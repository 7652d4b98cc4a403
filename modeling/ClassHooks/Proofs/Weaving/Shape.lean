import ClassHooks.Proofs.Weaving.Guarding
import ClassHooks.Proofs.Hook.Emission
import ClassHooks.Proofs.Body.Places
import ClassHooks.Proofs.Body.Exclusion
import ClassHooks.Proofs.Body.Encoding

/-!
What weaving makes of a body: the items, the labels among them and the regions.
-/
namespace ClassHooks

namespace Weaving
open Item

/-- The hooks that a chain emits around a method, one after the other. A method without returns has
no return hook. -/
inductive Emits (chain : Chain) (method : MethodName) (returnType : Option FieldType)
    (returns : Nat) (p : Pool) : Hook → Hook → Hook → Pool → Prop where
  | mk {enter exit error : Hook} {p₁ p₂ p₃ : Pool}
      (enters : chain.emit ⟨method, .enter, returnType⟩ p = .ok enter p₁)
      (exits : (if 0 < returns then chain.emit ⟨method, .return, returnType⟩
        else pure Hook.empty) p₁ = .ok exit p₂)
      (errors : chain.emit ⟨method, .error, returnType⟩ p₂ = .ok error p₃) :
      Emits chain method returnType returns p enter exit error p₃

def addFrame (b : Body) (requireFrames : Bool) : PoolM (Option (List (Frame Label))) :=
  if requireFrames || b.frames.isSome then do
    let throwable ← Pool.addClass throwable
    pure (some (b.frames.getD [] ++ [handlerFrame ⟨b.nextLabel + 2⟩ throwable]))
  else pure b.frames

theorem emits_keeps {J : Pool → Prop} (each : ∀ c, Keeps J (Pool.add c)) {chain : Chain}
    {method : MethodName} {returnType : Option FieldType} {returns : Nat} {p p' : Pool}
    {enter exit error : Hook} (before : J p)
    (emits : Emits chain method returnType returns p enter exit error p') : J p' := by
  cases emits with
  | mk enters exits errors =>
    have first := chain_emit_keeps each before enters
    refine chain_emit_keeps each ?_ errors
    split at exits
    · exact chain_emit_keeps each first exits
    · obtain ⟨_, rfl⟩ := state_pure_ok_iff.mp exits
      exact first

theorem emits_beyond {chain : Chain} {method : MethodName} {returnType : Option FieldType}
    {returns : Nat} {p p' : Pool} {enter exit error : Hook} (sound : p.Sound)
    (emits : Emits chain method returnType returns p enter exit error p') : p.Beyond p' :=
  emits_keeps Pool.keeps_add (Pool.beyond_self sound) emits

theorem usable_addFrame (b : Body) (requireFrames : Bool) :
    PoolM.AddsUsable (addFrame b requireFrames) := by
  unfold addFrame
  split
  · exact Pool.usable_bind (Pool.usable_addClass _) fun _ => Pool.usable_pure _
  · exact Pool.usable_pure _

theorem addFrame_cases {b : Body} {requireFrames : Bool} {p p' : Pool}
    {frames : Option (List (Frame Label))} (run : addFrame b requireFrames p = .ok frames p') :
    if requireFrames || b.frames.isSome then ∃ k, Pool.addClass throwable p = .ok k p' ∧
      frames = some (b.frames.getD [] ++ [handlerFrame ⟨b.nextLabel + 2⟩ k])
    else p' = p ∧ frames = b.frames := by
  unfold addFrame at run
  split at run
  · rename_i asked
    obtain ⟨k, p₁, added, made⟩ := state_bind_ok_iff.mp run
    obtain ⟨rfl, rfl⟩ := state_pure_ok_iff.mp made
    rw [if_pos asked]
    exact ⟨k, added, rfl⟩
  · rename_i plain
    obtain ⟨rfl, rfl⟩ := state_pure_ok_iff.mp run
    rw [if_neg plain]
    exact ⟨rfl, rfl⟩

theorem addFrame_ok {b : Body} {requireFrames : Bool} {p p' : Pool}
    {frames : Option (List (Frame Label))} (sound : p.Sound)
    (run : addFrame b requireFrames p = .ok frames p') : p.Beyond p' ∧
      if requireFrames || b.frames.isSome then ∃ k, p'.HoldsClass k throwable ∧
        frames = some (b.frames.getD [] ++ [handlerFrame ⟨b.nextLabel + 2⟩ k])
      else frames = b.frames := by
  have cases := addFrame_cases run
  split
  · rename_i asked
    rw [if_pos asked] at cases
    obtain ⟨k, added, made⟩ := cases
    obtain ⟨beyond, holds⟩ := Pool.addClass_ok sound added
    exact ⟨beyond, k, holds, made⟩
  · rename_i plain
    rw [if_neg plain] at cases
    obtain ⟨rfl, made⟩ := cases
    exact ⟨Pool.beyond_self sound, made⟩

def guardedItems (b : Body) (hook : List (Instruction Label)) : List Item :=
  if hook.isEmpty then b.items else guarded hook (b.nextLabel + 3) b.items

def guardedSpans (b : Body) (hook : List (Instruction Label)) : List CodeSpan :=
  if hook.isEmpty then [] else spansFrom (b.nextLabel + 3) b.items

/-- The numbers last for the labels of the woven body. -/
def LabelRoom (b : Body) (hook : List (Instruction Label)) : Prop :=
  b.nextLabel.toNat + labelsMinted hook b.returnCount < UInt32.size

def interleaving (b : Body) (enter exit error : Hook) : Interleaving :=
  ⟨enter.instructions, exit.instructions, error.instructions, b.instructions⟩

def wovenItems (b : Body) (w : Interleaving) : List Item :=
  w.enter.map .op ++ (.mark ⟨b.nextLabel⟩ :: (guardedItems b w.exit ++
    (.mark ⟨b.nextLabel + 1⟩ :: .mark ⟨b.nextLabel + 2⟩ :: (w.error.map .op ++
    [.op (.plain Opcode.athrow)]))))

/-- How a woven body came about. -/
structure Made (b : Body) (chain : Chain) (requireFrames : Bool) (method : MethodName) (p : Pool)
    (enter exit error : Hook) (woven : WovenMethod) (p' : Pool) : Prop where
  emits : ∃ descriptor p₁ frames, MethodDescriptor.parse method.descriptor = .ok descriptor ∧
    Emits chain method descriptor.returnType b.returnCount p enter exit error p₁ ∧
    addFrame b requireFrames p₁ = .ok frames p' ∧ woven.body.frames = frames
  excluded : Region.exclude woven.body.items b.handlers (guardedSpans b exit.instructions) =
    .ok (woven.body.handlers.dropLast)
  last : woven.body.handlers = woven.body.handlers.dropLast ++
    [⟨⟨b.nextLabel⟩, ⟨b.nextLabel + 1⟩, ⟨b.nextLabel + 2⟩, none⟩]
  items : woven.body.items = wovenItems b (interleaving b enter exit error)
  labels : b.labelsBehind (labelsMinted exit.instructions b.returnCount) =
    .ok woven.body.nextLabel
  room : neededStack b.maxStack enter exit error ≤ 65535
  rest : woven.body = { b with
    maxStack := UInt16.ofNat (neededStack b.maxStack enter exit error)
    items := woven.body.items
    handlers := woven.body.handlers
    frames := woven.body.frames
    others := b.others.filter fun a => !isDropped p' a
    nextLabel := woven.body.nextLabel }
  returns : woven.returnSites = b.returnCount

theorem withReturnHook_eq (b : Body) (hook : Hook) :
    withReturnHook hook (b.nextLabel + 3) b.items =
      (guardedItems b hook.instructions, guardedSpans b hook.instructions) := by
  unfold withReturnHook guardedItems guardedSpans
  split
  · rfl
  · rw [guardReturns_eq]
    rfl

theorem made_of_weave {b : Body} {chain : Chain} {requireFrames : Bool} {method : MethodName}
    {p p' : Pool} {woven : WovenMethod}
    (run : b.weave chain requireFrames method p = .ok woven p') :
    ∃ enter exit error, Made b chain requireFrames method p enter exit error woven p' := by
  unfold Body.weave at run
  obtain ⟨descriptor, q, parsed, run₁⟩ := state_bind_ok_iff.mp run
  obtain ⟨described, rfl⟩ := PoolM.lift_ok_iff.mp parsed
  dsimp only at run₁
  obtain ⟨enter, p₁, enters, run₂⟩ := state_bind_ok_iff.mp run₁
  obtain ⟨exit, p₂, exits, run₃⟩ := state_ite_bind_ok_iff.mp run₂
  obtain ⟨error, p₃, errors, run₄⟩ := state_bind_ok_iff.mp run₃
  obtain ⟨nextLabel, q, minted, run₄⟩ := state_bind_ok_iff.mp run₄
  obtain ⟨labels, rfl⟩ := PoolM.lift_ok_iff.mp minted
  rw [withReturnHook_eq] at run₄
  dsimp only at run₄
  obtain ⟨regions, q, cut, run₅⟩ := state_bind_ok_iff.mp run₄
  obtain ⟨excluded, rfl⟩ := PoolM.lift_ok_iff.mp cut
  by_cases deep : 65535 < neededStack b.maxStack enter exit error
  · rw [if_pos deep] at run₅
    obtain ⟨_, _, thrown, _⟩ := state_bind_ok_iff.mp run₅
    cases thrown
  rw [if_neg deep] at run₅
  have framed : ∃ frames, addFrame b requireFrames p₃ = .ok frames p' ∧ woven = ⟨{ b with
      maxStack := UInt16.ofNat (neededStack b.maxStack enter exit error)
      items := wovenItems b (interleaving b enter exit error)
      handlers := regions ++ [⟨⟨b.nextLabel⟩, ⟨b.nextLabel + 1⟩, ⟨b.nextLabel + 2⟩, none⟩]
      frames
      others := b.others.filter fun a => !isDropped p' a
      nextLabel }, b.returnCount⟩ := by
    unfold addFrame
    by_cases asked : (requireFrames || b.frames.isSome) = true
    · rw [if_pos asked] at run₅ ⊢
      obtain ⟨throwable, p₄, named, run₆⟩ := state_bind_ok_iff.mp run₅
      cases run₆
      exact ⟨_, state_bind_ok_iff.mpr ⟨throwable, _, named, rfl⟩, rfl⟩
    · rw [if_neg asked] at run₅ ⊢
      cases run₅
      exact ⟨_, rfl, rfl⟩
  obtain ⟨frames, asked, rfl⟩ := framed
  refine ⟨enter, exit, error, ⟨descriptor, p₃, frames,
    mapError_ok_iff.mp described, .mk enters exits errors, asked, rfl⟩,
    ?_, ?_, rfl, labels, Nat.le_of_not_lt deep, rfl, rfl⟩
  · dsimp only
    rw [List.dropLast_concat]
    exact excluded
  · dsimp only
    rw [List.dropLast_concat]

end Weaving

namespace Weaving
open Item

structure GuardsAll (w : Interleaving) (items : List Item) (r : Region) : Prop where
  catchAll : r.catchType = none
  start : Marks items r.start w.enter.length
  finish : Marks items r.finish w.finish
  handler : Marks items r.handler w.finish

/-- The pieces of a region cover what the region covered, and no hook. -/
structure Replaces (b : Body) (w : Interleaving) (items : List Item) (r : Region)
    (pieces : List Region) : Prop where
  kept : ∀ q ∈ pieces, q.handler = r.handler ∧ q.catchType = r.catchType
  covers : ∀ n, (∃ q ∈ pieces, q.Covers items n) ↔
    ∃ k < w.original.length, r.Covers b.items k ∧ n = w.place k

/-- A body that holds the interleaving, with its labels and regions where they belong. -/
structure Woven (b : Body) (w : Interleaving) (woven : Body) : Prop where
  original : w.original = b.instructions
  code : woven.instructions = w.instructions
  once : (labels woven.items).Nodup
  marks : ∀ l k, Marks b.items l k → Marks woven.items l (w.begin k)
  handlers : ∃ parts last, woven.handlers = parts.flatten ++ [last] ∧
    GuardsAll w woven.items last ∧ List.Forall₂ (Replaces b w woven.items) b.handlers parts

section Items
variable {b : Body} {w : Interleaving}

theorem code_guardedItems (original : w.original = b.instructions) :
    code (guardedItems b w.exit) = w.main := by
  unfold guardedItems Interleaving.main
  rw [original]
  split
  · rename_i empty
    change code b.items = b.instructions.flatMap (Instruction.withHook w.exit)
    rw [List.isEmpty_iff.mp empty]
    exact (Instruction.flatMap_withHook_nil b.instructions).symm
  · exact code_guarded _

theorem marks_guardedItems (original : w.original = b.instructions) {l : Label} {k : Nat}
    (marks : Marks b.items l k) :
    Marks (guardedItems b w.exit) l (Instruction.shift w.exit w.original k) := by
  unfold guardedItems
  rw [original]
  split
  · rename_i empty
    have inside : k ≤ b.instructions.length := marks_le marks
    rw [List.isEmpty_iff.mp empty, Instruction.shift_nil inside]
    exact marks
  · exact marks_guarded marks

theorem number_guarded {hook : List (Instruction Label)} (room : LabelRoom b hook)
    (filled : ¬ hook.isEmpty = true) : (b.nextLabel + 3).toNat = b.nextLabel.toNat + 3 ∧
      labelsMinted hook b.returnCount = 3 + labelsAround b.items := by
  have minted : labelsMinted hook b.returnCount = 3 + labelsAround b.items := by
    rw [labelsMinted, if_neg filled]
    rfl
  refine ⟨number_later 3 room ?_, minted⟩
  rw [minted]
  exact Nat.le_add_right 3 _

theorem label_guardedItems {hook : List (Instruction Label)} (room : LabelRoom b hook) {l : Label}
    (member : l ∈ labels (guardedItems b hook)) :
    l ∈ labels b.items ∨ (b.nextLabel.toNat + 3 ≤ l.number.toNat ∧
      l.number.toNat < b.nextLabel.toNat + labelsMinted hook b.returnCount) := by
  unfold guardedItems at member
  split at member
  · exact .inl member
  · rename_i filled
    obtain ⟨three, minted⟩ := number_guarded room filled
    unfold LabelRoom at room
    have bounds := label_guarded (by omega) member
    rw [three] at bounds
    exact bounds.imp_right fun ⟨low, high⟩ => ⟨low, by omega⟩

theorem labels_guardedItems_once (numbered : b.Numbered) {hook : List (Instruction Label)}
    (room : LabelRoom b hook) : (labels (guardedItems b hook)).Nodup := by
  unfold guardedItems
  split
  · exact numbered.once
  · rename_i filled
    obtain ⟨three, minted⟩ := number_guarded room filled
    unfold LabelRoom at room
    refine labels_guarded_once numbered.once (by omega) fun l member => ?_
    have := numbered.old l member
    omega

theorem marks_wovenItems {l : Label} {n : Nat} (marks : Marks (guardedItems b w.exit) l n) :
    Marks (wovenItems b w) l (w.enter.length + n) := by
  refine marks_append_iff.mpr (.inr ⟨n, .pastMark (marks_append_iff.mpr (.inl marks)), ?_⟩)
  rw [code_ops]

theorem marks_begin (original : w.original = b.instructions) {l : Label} {k : Nat}
    (marks : Marks b.items l k) : Marks (wovenItems b w) l (w.begin k) :=
  marks_wovenItems (marks_guardedItems original marks)

theorem marks_start : Marks (wovenItems b w) ⟨b.nextLabel⟩ w.enter.length := by
  refine marks_append_iff.mpr (.inr ⟨0, .here, ?_⟩)
  rw [code_ops]
  omega

theorem marks_finish (original : w.original = b.instructions) :
    Marks (wovenItems b w) ⟨b.nextLabel + 1⟩ w.finish ∧
      Marks (wovenItems b w) ⟨b.nextLabel + 2⟩ w.finish := by
  have length : w.finish = (code (w.enter.map Item.op)).length +
      (code (guardedItems b w.exit)).length := by
    rw [code_ops, code_guardedItems original, w.main_length]
  have behind : ∀ l rest, Marks rest l 0 →
      Marks (w.enter.map .op ++ (.mark ⟨b.nextLabel⟩ :: (guardedItems b w.exit ++ rest))) l
        w.finish := by
    intro l rest marks
    rw [length]
    exact marks_append_iff.mpr
      (.inr ⟨_, .pastMark (marks_append_iff.mpr (.inr ⟨0, marks, rfl⟩)), rfl⟩)
  exact ⟨behind _ _ .here, behind _ _ (.pastMark .here)⟩

theorem code_wovenItems (original : w.original = b.instructions) :
    code (wovenItems b w) = w.instructions := by
  simp [wovenItems, Interleaving.instructions, code_guardedItems original]

theorem labels_wovenItems : labels (wovenItems b w) = ⟨b.nextLabel⟩ ::
    (labels (guardedItems b w.exit) ++ [⟨b.nextLabel + 1⟩, ⟨b.nextLabel + 2⟩]) := by
  simp [wovenItems]

theorem number_handler {hook : List (Instruction Label)} (room : LabelRoom b hook) :
    (b.nextLabel + 1).toNat = b.nextLabel.toNat + 1 ∧
      (b.nextLabel + 2).toNat = b.nextLabel.toNat + 2 := by
  have three : 3 ≤ labelsMinted hook b.returnCount := Nat.le_add_right 3 _
  exact ⟨number_later 1 room (Nat.le_trans (by decide) three),
    number_later 2 room (Nat.le_trans (by decide) three)⟩

theorem labels_wovenItems_once (numbered : b.Numbered) (room : LabelRoom b w.exit) :
    (labels (wovenItems b w)).Nodup := by
  obtain ⟨one, two⟩ := number_handler room
  have inner : ∀ l ∈ labels (guardedItems b w.exit),
      l.number.toNat < b.nextLabel.toNat ∨ b.nextLabel.toNat + 3 ≤ l.number.toNat := by
    intro l member
    exact (label_guardedItems room member).imp (numbered.old l) And.left
  have new : ∀ n : UInt32, b.nextLabel.toNat ≤ n.toNat → n.toNat < b.nextLabel.toNat + 3 →
      (⟨n⟩ : Label) ∉ labels (guardedItems b w.exit) := by
    intro n low high member
    have bounds := inner _ member
    dsimp only at bounds
    omega
  rw [labels_wovenItems, List.nodup_cons, List.nodup_append, List.mem_append, not_or]
  refine ⟨⟨new _ (Nat.le_refl _) (by omega), fun again => ?_⟩,
    labels_guardedItems_once numbered room, ?_, ?_⟩
  · simp only [List.mem_cons, List.not_mem_nil, or_false] at again
    rcases again with same | same
    · have number : b.nextLabel.toNat = (b.nextLabel + 1).toNat := congrArg (·.number.toNat) same
      omega
    · have number : b.nextLabel.toNat = (b.nextLabel + 2).toNat := congrArg (·.number.toNat) same
      omega
  · rw [List.nodup_cons, List.mem_singleton]
    refine ⟨fun same => ?_, List.nodup_singleton _⟩
    have number : (b.nextLabel + 1).toNat = (b.nextLabel + 2).toNat :=
      congrArg (·.number.toNat) same
    omega
  · intro l member l' other same
    subst same
    simp only [List.mem_cons, List.not_mem_nil, or_false] at other
    rcases other with rfl | rfl
    · exact new _ (by omega) (by omega) member
    · exact new _ (by omega) (by omega) member

end Items

section Regions
variable {b : Body} {w : Interleaving}

def rankOf (items : List Item) (l : Label) : Nat := ((labelRanks items)[l]?).getD 0

theorem rankOf_eq {items : List Item} (once : (labels items).Nodup) {l : Label} {n : Nat}
    (marks : Marks items l n) :
    rankOf items l = n ∧ Region.rank (labelRanks items) l = .ok (rankOf items l) := by
  have rank : rankOf items l = n := by
    rw [rankOf, (labelRanks_iff once).mpr marks]
    rfl
  exact ⟨rank, (rank_ok_iff once).mpr (rank.symm ▸ marks)⟩

theorem spans_placed (original : w.original = b.instructions) :
    List.Forall₂ (fun k (s : CodeSpan) => k ∈ w.hooked ∧
        Marks (wovenItems b w) s.begin (w.begin k) ∧ Marks (wovenItems b w) s.resume (w.place k))
      w.hooked (guardedSpans b w.exit) := by
  unfold guardedSpans
  split
  · rename_i empty
    rw [w.hooked_of_nil (List.isEmpty_iff.mp empty)]
    exact .nil
  · rename_i filled
    have guarded_eq : guardedItems b w.exit = guarded w.exit (b.nextLabel + 3) b.items :=
      if_neg filled
    have hooked_eq := w.hooked_of_cons fun empty => filled (List.isEmpty_iff.mpr empty)
    have related := spans_related w.exit b.items (b.nextLabel + 3)
    rw [← guarded_eq] at related
    change List.Forall₂ _ (Instruction.returnPlaces b.instructions) _ at related
    rw [← original, ← hooked_eq] at related
    refine ((List.forall₂_and_left _ _).mpr ⟨fun k member => member, related⟩).imp ?_
    rintro k s ⟨member, begin, resume⟩
    change Marks _ _ (Instruction.shift w.exit b.instructions k) at begin
    change Marks _ _ (Instruction.shift w.exit b.instructions k + w.exit.length) at resume
    rw [← original] at begin resume
    refine ⟨member, marks_wovenItems begin, ?_⟩
    rw [w.place_of_hooked member, Interleaving.begin, Nat.add_assoc]
    exact marks_wovenItems resume

theorem rank_of_marks (numbered : b.Numbered) (room : LabelRoom b w.exit) {l : Label} {n : Nat}
    (marks : Marks (wovenItems b w) l n) : rankOf (wovenItems b w) l = n :=
  (rankOf_eq (labels_wovenItems_once numbered room) marks).1

section Cuts
variable (numbered : b.Numbered) (room : LabelRoom b w.exit)
  (original : w.original = b.instructions)
include numbered room original

theorem span_holds_iff {n : Nat} :
    (∃ s ∈ guardedSpans b w.exit, s.Holds (rankOf (wovenItems b w)) n) ↔
      ∃ k ∈ w.hooked, w.begin k ≤ n ∧ n < w.place k := by
  have related := spans_placed original
  constructor
  · rintro ⟨s, member, after, before⟩
    obtain ⟨k, inside, _, begin, resume⟩ := related_of_mem_right related member
    rw [rank_of_marks numbered room begin] at after
    rw [rank_of_marks numbered room resume] at before
    exact ⟨k, inside, after, before⟩
  · rintro ⟨k, inside, after, before⟩
    obtain ⟨s, member, _, begin, resume⟩ := related_of_mem related inside
    refine ⟨s, member, ?_, ?_⟩
    · rwa [rank_of_marks numbered room begin]
    · rwa [rank_of_marks numbered room resume]

theorem spans_ordered :
    CodeSpan.Ordered (rankOf (wovenItems b w)) (guardedSpans b w.exit) := by
  have related := spans_placed original
  constructor
  · intro s member
    obtain ⟨k, inside, _, begin, resume⟩ := related_of_mem_right related member
    rw [rank_of_marks numbered room begin, rank_of_marks numbered room resume]
    exact (w.mem_hooked_iff.mp inside).2
  · refine pairwise_of_related related w.hooked_sorted ?_
    rintro k m s s' ⟨inside, _, resume⟩ ⟨_, begin', _⟩ order
    rw [rank_of_marks numbered room resume, rank_of_marks numbered room begin']
    exact Nat.le_of_lt (w.place_lt_begin order (w.mem_hooked_iff.mp inside).1)

/-- Where the code for an instruction begins, no hook is cut. -/
theorem spans_clear (k : Nat) :
    CodeSpan.Clear (rankOf (wovenItems b w)) (guardedSpans b w.exit) (w.begin k) := by
  intro s member
  obtain ⟨m, inside, _, begin, resume⟩ := related_of_mem_right (spans_placed original) member
  rw [rank_of_marks numbered room begin, rank_of_marks numbered room resume]
  rcases Nat.lt_or_ge m k with order | order
  · exact .inr (Nat.le_of_lt (w.place_lt_begin order (w.mem_hooked_iff.mp inside).1))
  · exact .inl (w.begin_mono order)

theorem cut_pieces_woven {r : Region} {n m : Nat} (start : Marks b.items r.start n)
    (finish : Marks b.items r.finish m) :
    Region.Pieces (rankOf (wovenItems b w)) r r.start (guardedSpans b w.exit)
      (Region.cut (rankOf (wovenItems b w)) r r.start (guardedSpans b w.exit)) := by
  have rank := rank_of_marks numbered room (marks_begin (w := w) original start)
  have rank' := rank_of_marks numbered room (marks_begin (w := w) original finish)
  exact Region.cut_pieces (spans_ordered numbered room original)
    (rank' ▸ spans_clear numbered room original m) (rank ▸ spans_clear numbered room original n)

theorem cut_marked {r : Region} {n m : Nat} (start : Marks b.items r.start n)
    (finish : Marks b.items r.finish m) {q : Region}
    (member : q ∈ Region.cut (rankOf (wovenItems b w)) r r.start (guardedSpans b w.exit)) :
    (∃ x, Marks (wovenItems b w) q.start x) ∧ ∃ y, Marks (wovenItems b w) q.finish y := by
  obtain ⟨left, right⟩ := (cut_pieces_woven numbered room original start finish).bounds q member
  constructor
  · rcases left with same | ⟨span, here, same⟩
    · exact ⟨_, same ▸ marks_begin original start⟩
    · obtain ⟨k, _, _, _, resume⟩ := related_of_mem_right (spans_placed original) here
      exact ⟨_, same ▸ resume⟩
  · rcases right with same | ⟨span, here, same⟩
    · exact ⟨_, same ▸ marks_begin original finish⟩
    · obtain ⟨k, _, _, begin, _⟩ := related_of_mem_right (spans_placed original) here
      exact ⟨_, same ▸ begin⟩

/-- The pieces cover the code for what the region covers, but for the hooks. -/
theorem cut_covers_iff {r : Region} {s f : Nat} (start : Marks b.items r.start s)
    (finish : Marks b.items r.finish f) (n : Nat) :
    (∃ q ∈ Region.cut (rankOf (wovenItems b w)) r r.start (guardedSpans b w.exit),
        q.Covers (wovenItems b w) n) ↔
      (w.begin s ≤ n ∧ n < w.begin f) ∧ ∀ k ∈ w.hooked, ¬ (w.begin k ≤ n ∧ n < w.place k) := by
  have set := (cut_pieces_woven numbered room original start finish).covers n
  rw [rank_of_marks numbered room (marks_begin (w := w) original start),
    rank_of_marks numbered room (marks_begin (w := w) original finish)] at set
  have free : (∀ span ∈ guardedSpans b w.exit, ¬ span.Holds (rankOf (wovenItems b w)) n) ↔
      ∀ k ∈ w.hooked, ¬ (w.begin k ≤ n ∧ n < w.place k) := by
    simpa using not_congr (span_holds_iff numbered room original (n := n))
  rw [← free, ← set]
  constructor
  · rintro ⟨q, inside, x, y, marks, marks', after, before⟩
    exact ⟨q, inside, rank_of_marks numbered room marks ▸ after, rank_of_marks numbered room marks' ▸ before⟩
  · rintro ⟨q, inside, after, before⟩
    obtain ⟨⟨x, marks⟩, y, marks'⟩ := cut_marked numbered room original start finish inside
    exact ⟨q, inside, x, y, marks, marks', rank_of_marks numbered room marks ▸ after,
      rank_of_marks numbered room marks' ▸ before⟩

theorem cut_replaces {r : Region} (member : r ∈ b.handlers) :
    Replaces b w (wovenItems b w) r
      (Region.cut (rankOf (wovenItems b w)) r r.start (guardedSpans b w.exit)) := by
  obtain ⟨s, f, h, start, finish, filled, _, _⟩ := numbered.regions r member
  have bound : f ≤ w.original.length := original ▸ marks_le finish
  refine ⟨(cut_pieces_woven numbered room original start finish).kept, fun n => ?_⟩
  rw [cut_covers_iff numbered room original start finish n]
  constructor
  · rintro ⟨⟨after, before⟩, free⟩
    obtain ⟨k, early, low, high⟩ := w.unit_of_place bound
      (Nat.le_trans (w.enter_le_begin s) after) before
    -- In the code for an instruction, only the instruction is not in a hook.
    have here : n = w.place k := by
      by_contra other
      exact free k (w.mem_hooked_iff.mpr ⟨by omega, by omega⟩) ⟨low, by omega⟩
    refine ⟨k, by omega, ⟨s, f, start, finish, ?_, early⟩, here⟩
    by_contra late
    have := w.place_lt_begin (Nat.lt_of_not_le late) (by omega)
    omega
  · rintro ⟨k, inside, ⟨s', f', one, two, after, before⟩, rfl⟩
    obtain rfl := marks_unique numbered.once one start
    obtain rfl := marks_unique numbered.once two finish
    refine ⟨⟨?_, w.place_lt_begin before inside⟩, ?_⟩
    · exact Nat.le_trans (w.begin_mono after) (w.begin_le_place k)
    · rintro m hooked ⟨low, high⟩
      have inside' := (w.mem_hooked_iff.mp hooked).1
      obtain rfl := w.unit_unique inside inside' (w.begin_le_place k) (Nat.le_refl _) low
        (Nat.le_of_lt high)
      omega

theorem outside_eq {r : Region} (member : r ∈ b.handlers) :
    Region.outside (labelRanks (wovenItems b w)) (guardedSpans b w.exit) r =
      .ok (Region.cut (rankOf (wovenItems b w)) r r.start (guardedSpans b w.exit)) := by
  obtain ⟨s, f, h, start, finish, _, _, _⟩ := numbered.regions r member
  have once : (labels (wovenItems b w)).Nodup := labels_wovenItems_once numbered room
  have start' := (rankOf_eq once (marks_begin original start)).2
  have finish' := (rankOf_eq once (marks_begin original finish)).2
  refine Region.outside_eq_cut ?_ start' finish'
  intro span here
  obtain ⟨k, _, _, begin, resume⟩ := related_of_mem_right (spans_placed original) here
  exact ⟨(rankOf_eq once begin).2, (rankOf_eq once resume).2⟩

theorem exclude_eq {regions : List Region}
    (excluded : Region.exclude (wovenItems b w) b.handlers (guardedSpans b w.exit) = .ok regions) :
    regions = (b.handlers.map fun r =>
      Region.cut (rankOf (wovenItems b w)) r r.start (guardedSpans b w.exit)).flatten := by
  unfold Region.exclude at excluded
  by_cases none : (guardedSpans b w.exit).isEmpty = true
  · rw [if_pos none] at excluded
    cases excluded
    rw [List.isEmpty_iff.mp none]
    have whole : ∀ r ∈ b.handlers,
        Region.cut (rankOf (wovenItems b w)) r r.start [] = [r] := by
      intro r member
      obtain ⟨s, f, h, start, finish, filled, _, _⟩ := numbered.regions r member
      have low := rank_of_marks numbered room (marks_begin original start)
      have high := rank_of_marks numbered room (marks_begin original finish)
      have bound : f ≤ w.original.length := original ▸ marks_le finish
      have order := w.begin_lt_begin filled (by omega)
      unfold Region.cut
      rw [if_pos (by omega)]
    rw [List.map_congr_left whole, ← List.flatMap_def, List.flatMap_singleton']
  · rw [if_neg none] at excluded
    obtain ⟨parts, each, made⟩ := bind_ok_iff.mp excluded
    cases made
    rw [mapM_ok_of_forall fun r member => outside_eq numbered room original member] at each
    cases each
    rfl

end Cuts

end Regions

theorem labelRoom_of_made {b : Body} {chain : Chain} {requireFrames : Bool} {method : MethodName}
    {p p' : Pool} {enter exit error : Hook} {woven : WovenMethod}
    (made : Made b chain requireFrames method p enter exit error woven p') :
    LabelRoom b exit.instructions :=
  (counted_ok_iff.mp made.labels).1

theorem labelRoom_of_ofCode {c : CodeAttribute} {pool : Pool} {b : Body}
    (read : Body.ofCode c pool = .ok b) (hook : List (Instruction Label)) : LabelRoom b hook := by
  obtain ⟨numbers, few⟩ := Body.few_of_ofCode read
  have returns : b.returnCount ≤ b.instructions.length := List.countP_le_length
  unfold LabelRoom labelsMinted UInt32.size
  split <;> omega

theorem woven_of_numbered {b : Body} {chain : Chain} {requireFrames : Bool} {method : MethodName}
    {p p' : Pool} {enter exit error : Hook} {woven : WovenMethod} (numbered : b.Numbered)
    (made : Made b chain requireFrames method p enter exit error woven p') :
    Woven b (interleaving b enter exit error) woven.body := by
  have original : (interleaving b enter exit error).original = b.instructions := rfl
  have room : LabelRoom b (interleaving b enter exit error).exit := labelRoom_of_made made
  have items := made.items
  constructor
  case original => exact original
  case code =>
    unfold Body.instructions
    rw [items]
    exact code_wovenItems original
  case once =>
    rw [items]
    exact labels_wovenItems_once numbered room
  case marks =>
    intro l k marks
    rw [items]
    exact marks_begin original marks
  case handlers =>
    have excluded := made.excluded
    rw [items] at excluded ⊢
    have cut := exclude_eq numbered room original excluded
    refine ⟨_, _, made.last.trans (congrArg (· ++ _) cut), ?_, ?_⟩
    · obtain ⟨finish, handler⟩ := marks_finish original
      exact ⟨rfl, marks_start, finish, handler⟩
    · rw [List.forall₂_map_right_iff]
      exact List.forall₂_same.mpr fun r member => cut_replaces numbered room original member

theorem woven_of_made {b : Body} {chain : Chain} {requireFrames : Bool} {method : MethodName}
    {p p' : Pool} {enter exit error : Hook} {woven : WovenMethod} (sound : b.Sound)
    (made : Made b chain requireFrames method p enter exit error woven p') :
    Woven b (interleaving b enter exit error) woven.body :=
  woven_of_numbered sound.numbered made

end Weaving
end ClassHooks
