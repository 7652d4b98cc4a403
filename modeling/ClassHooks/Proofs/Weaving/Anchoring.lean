import ClassHooks.Proofs.Body.Orderly
import ClassHooks.Proofs.Body.Validation
import ClassHooks.Proofs.Weaving.Control

/-!
The labels of a woven body. If every label of the method stands once, below the next new one, then
so does every label of the woven body; what something names is there, and no region is empty.
-/
namespace ClassHooks
open Item Instruction

namespace Body

structure Anchored (b : Body) : Prop where
  numbered : b.Numbered
  placed : ∀ l, b.Names l → l ∈ labels b.items

theorem mem_labels_of_heads {b : Body} {l : Label} (heads : b.Heads l) : l ∈ labels b.items := by
  obtain ⟨n, _, marks⟩ := heads
  exact mem_labels_of_marks marks

theorem mem_labels_of_region {b : Body} (numbered : b.Numbered) {r : Region}
    (member : r ∈ b.handlers) {l : Label} (part : l = r.start ∨ l = r.finish ∨ l = r.handler) :
    l ∈ labels b.items := by
  obtain ⟨s, f, h, start, finish, _, handler, _⟩ := numbered.regions r member
  rcases part with rfl | rfl | rfl
  · exact mem_labels_of_marks start
  · exact mem_labels_of_marks finish
  · exact mem_labels_of_marks handler

theorem Orderly.anchored {b : Body} (orderly : b.Orderly) : b.Anchored := by
  have numbered := orderly.sound.numbered
  refine ⟨numbered, fun l named => ?_⟩
  cases named with
  | target member here => exact mem_labels_of_heads (orderly.sound.targets _ member l here)
  | region member here => exact mem_labels_of_region numbered member here
  | line member here =>
    subst here
    exact mem_labels_of_heads (orderly.lines _ member)
  | range member here =>
    obtain ⟨n, m, start, finish, _⟩ := member.elim (orderly.locals _) (orderly.variableTypes _)
    rcases here with rfl | rfl
    · exact mem_labels_of_marks start
    · exact mem_labels_of_marks finish
  | frame member here => exact mem_labels_of_heads (orderly.positions _ member l here)

def Uses (b : Body) (l : Label) : Prop := l ∈ labels b.items ∨ b.Names l

/-- What holds of the labels of a body. -/
structure Consistent (b : Body) : Prop where
  once : (labels b.items).Nodup
  placed : ∀ l, b.Names l → l ∈ labels b.items
  valid : b.validate = .ok ()
  below : ∀ l, b.Uses l → l.number.toNat < b.nextLabel.toNat
  unused : ∀ l b', b.newLabel = .ok (l, b') → ¬ b.Uses l
  regions : ∀ r ∈ b.handlers, ∃ n < b.instructions.length, r.Covers b.items n

theorem toNat_labelsBehind {b : Body} {n : Nat} {next : UInt32}
    (behind : b.labelsBehind n = .ok next) : next.toNat = b.nextLabel.toNat + n := by
  obtain ⟨room, rfl⟩ := counted_ok_iff.mp behind
  exact UInt32.toNat_ofNat_of_lt' room

theorem newLabel_ok_iff {b b' : Body} {l : Label} : b.newLabel = .ok (l, b') ↔
    ∃ next, b.labelsBehind 1 = .ok next ∧ l = ⟨b.nextLabel⟩ ∧ b' = { b with nextLabel := next } := by
  unfold newLabel
  rw [bind_ok_iff]
  exact exists_congr fun next => and_congr_right fun _ => by
    rw [pure_ok_iff, eq_comm, Prod.mk.injEq]

theorem Anchored.consistent {b : Body} (anchored : b.Anchored) : b.Consistent := by
  have once := anchored.numbered.once
  have below : ∀ l, b.Uses l → l.number.toNat < b.nextLabel.toNat := fun l use =>
    anchored.numbered.old l (use.elim id (anchored.placed l))
  refine ⟨once, anchored.placed, validate_ok_iff.mpr ⟨once, anchored.placed⟩, below, ?_, ?_⟩
  · intro l b' made use
    obtain ⟨_, _, rfl, _⟩ := newLabel_ok_iff.mp made
    exact Nat.lt_irrefl _ (below _ use)
  · intro r member
    obtain ⟨s, f, h, start, finish, filled, _⟩ := anchored.numbered.regions r member
    have inside : f ≤ b.instructions.length := marks_le finish
    exact ⟨s, by omega, s, f, start, finish, Nat.le_refl _, filled⟩

structure Apart (ls : List Label) (b : Body) : Prop where
  placed : ∀ l ∈ ls, l ∈ labels b.items
  apart : ∀ l ∈ ls, ∀ l' ∈ ls, ∀ n, Marks b.items l n → Marks b.items l' n → l = l'

theorem apart_of_ofCode {c : CodeAttribute} {pool : Pool} {b : Body}
    (read : ofCode c pool = .ok b) : b.Apart (labels b.items) := by
  obtain ⟨decoded, t, _, decodes, labelled⟩ := labelled_of_ofCode read
  obtain ⟨small, listing, _⟩ := listing_of_decode decodes
  refine ⟨fun l member => member, fun l _ l' _ n one two => ?_⟩
  obtain ⟨o, found, _, place⟩ := (marks_labelled labelled listing small).mp one
  obtain ⟨o', found', _, place'⟩ := (marks_labelled labelled listing small).mp two
  obtain rfl : o = o' := UInt16.toNat_inj.mp (place.trans place'.symm)
  exact Option.some.inj (found.symm.trans found')

theorem anchored_newLabel {b b' : Body} {l : Label} (anchored : b.Anchored)
    (made : b.newLabel = .ok (l, b')) : b'.Anchored := by
  obtain ⟨next, counted, _, rfl⟩ := newLabel_ok_iff.mp made
  obtain ⟨⟨filled, once, old, regions⟩, placed⟩ := anchored
  have later := toNat_labelsBehind counted
  refine ⟨⟨filled, once, fun l member => ?_, regions⟩, ?_⟩
  · change l.number.toNat < next.toNat
    have := old l member
    omega
  intro l named
  refine placed l ?_
  cases named with
  | target member here => exact .target member here
  | region member here => exact .region member here
  | line member here => exact .line member here
  | range member here => exact .range member here
  | frame member here => exact .frame member here

end Body

namespace Weaving

@[simp] theorem positions_handlerFrame (handler : Label) (throwable : UInt16) :
    (handlerFrame handler throwable).positions = [handler] := rfl

section Woven
variable {b : Body} {w : Interleaving} {woven : Body}

theorem begin_inside (shape : Woven b w woven) {n : Nat} (inside : n < b.instructions.length) :
    w.begin n < woven.instructions.length := by
  rw [shape.code, w.instructions_length]
  have within : n < w.original.length := by rwa [shape.original]
  have := w.begin_le_place n
  have := w.place_lt_finish within
  have := w.finish_le_rethrow
  omega

theorem heads_woven (shape : Woven b w woven) {l : Label} (heads : b.Heads l) : woven.Heads l := by
  obtain ⟨n, inside, marks⟩ := heads
  exact ⟨w.begin n, begin_inside shape inside, shape.marks l n marks⟩

theorem begin_injective (shape : Woven b w woven) {l l' : Label} {n m : Nat}
    (marks : Marks b.items l n) (marks' : Marks b.items l' m) (same : w.begin n = w.begin m) :
    n = m := by
  have bound : n ≤ b.instructions.length := marks_le marks
  have bound' : m ≤ b.instructions.length := marks_le marks'
  rw [← shape.original] at bound bound'
  rcases Nat.lt_trichotomy n m with less | equal | more
  · have := w.begin_lt_begin less (by omega)
    omega
  · exact equal
  · have := w.begin_lt_begin more (by omega)
    omega

theorem mem_labels_woven (shape : Woven b w woven) {l : Label} (member : l ∈ labels b.items) :
    l ∈ labels woven.items := by
  obtain ⟨n, marks⟩ := marked_iff_mem.mpr member
  exact mem_labels_of_marks (shape.marks l n marks)

theorem label_wovenItems_below (room : LabelRoom b w.exit)
    (old : ∀ l ∈ labels b.items, l.number.toNat < b.nextLabel.toNat) {l : Label}
    (member : l ∈ labels (wovenItems b w)) :
    l.number.toNat < b.nextLabel.toNat + labelsMinted w.exit b.returnCount := by
  obtain ⟨one, two⟩ := number_handler room
  have three : 3 ≤ labelsMinted w.exit b.returnCount := Nat.le_add_right 3 _
  rw [labels_wovenItems] at member
  simp only [List.mem_cons, List.mem_append, List.not_mem_nil, or_false] at member
  rcases member with rfl | inside | rfl | rfl
  · dsimp only
    omega
  · rcases label_guardedItems room inside with early | ⟨_, new⟩
    · have := old l early
      omega
    · exact new
  · dsimp only
    omega
  · dsimp only
    omega

end Woven

section Made
variable {b : Body} {chain : Chain} {requireFrames : Bool} {method : MethodName} {p p' : Pool}
  {enter exit error : Hook} {woven : WovenMethod}
  (made : Made b chain requireFrames method p enter exit error woven p')
include made

theorem frames_of_made : (woven.body.frames.isSome = (requireFrames || b.frames.isSome)) ∧
    (woven.body.frames.getD [] = b.frames.getD [] ∨ ∃ k, woven.body.frames.getD [] =
      b.frames.getD [] ++ [handlerFrame ⟨b.nextLabel + 2⟩ k]) := by
  obtain ⟨_, _, frames, _, _, framed, same⟩ := made.emits
  have cases := addFrame_cases framed
  rw [same]
  by_cases asked : (requireFrames || b.frames.isSome) = true
  · rw [if_pos asked] at cases
    obtain ⟨k, _, rfl⟩ := cases
    exact ⟨asked.symm, .inr ⟨k, rfl⟩⟩
  · rw [if_neg asked] at cases
    obtain ⟨_, rfl⟩ := cases
    rw [Bool.not_eq_true, Bool.or_eq_false_iff] at asked
    rw [asked.1, asked.2]
    exact ⟨rfl, .inl rfl⟩

variable (numbered : b.Numbered)
include numbered

theorem handler_of_made :
    Marks woven.body.items ⟨b.nextLabel + 2⟩ (interleaving b enter exit error).finish ∧
      (interleaving b enter exit error).finish < woven.body.instructions.length := by
  have shape : Woven b (interleaving b enter exit error) woven.body :=
    woven_of_numbered numbered made
  constructor
  · rw [made.items]
    exact (marks_finish shape.original).2
  · have := (interleaving b enter exit error).finish_le_rethrow
    rw [shape.code, Interleaving.instructions_length]
    omega

theorem regions_of_made : ∀ r ∈ woven.body.handlers, ∃ s f h, Marks woven.body.items r.start s ∧
    Marks woven.body.items r.finish f ∧ s < f ∧ Marks woven.body.items r.handler h ∧
    h < woven.body.instructions.length := by
  set w := interleaving b enter exit error with named
  have shape : Woven b w woven.body := woven_of_numbered numbered made
  have original : w.original = b.instructions := shape.original
  have room : LabelRoom b w.exit := labelRoom_of_made made
  have items : woven.body.items = wovenItems b w := made.items
  have excluded := made.excluded
  rw [items] at excluded
  have cut := exclude_eq numbered room original excluded
  rw [made.last]
  intro q member
  rcases List.mem_append.mp member with piece | whole
  · rw [cut] at piece
    obtain ⟨pieces, among, inside⟩ := List.mem_flatten.mp piece
    obtain ⟨r, here, rfl⟩ := List.mem_map.mp among
    obtain ⟨s, f, h, start, finish, filled, handler, within⟩ := numbered.regions r here
    have parts := cut_pieces_woven numbered room original start finish
    obtain ⟨⟨x, first⟩, y, last⟩ := cut_marked numbered room original start finish inside
    have order := parts.filled q inside
    rw [rank_of_marks numbered room first, rank_of_marks numbered room last] at order
    obtain ⟨m, below, marks⟩ := heads_woven shape ⟨h, within, handler⟩
    rw [(parts.kept q inside).1]
    rw [← items] at first last
    exact ⟨x, y, m, first, last, order, marks, below⟩
  · obtain rfl := List.mem_singleton.mp whole
    obtain ⟨finish, _⟩ := marks_finish original
    obtain ⟨handler, inside⟩ := handler_of_made made numbered
    rw [← items] at finish
    refine ⟨_, _, _, items ▸ marks_start, finish, ?_, handler, inside⟩
    have filled : 0 < w.original.length := by
      rw [original]
      exact numbered.filled
    rw [← w.begin_zero]
    exact w.begin_lt_begin filled filled

theorem numbered_of_made : woven.body.Numbered := by
  have shape := woven_of_numbered numbered made
  constructor
  case filled =>
    rw [shape.code, Interleaving.instructions_length]
    exact Nat.succ_pos _
  case once => exact shape.once
  case old =>
    intro l member
    rw [made.items] at member
    rw [Body.toNat_labelsBehind made.labels]
    exact label_wovenItems_below (labelRoom_of_made made) numbered.old member
  case regions => exact regions_of_made made numbered

omit numbered in
/-- Hooks that name nothing leave the labels anchored. -/
theorem anchored_of_made (anchored : b.Anchored)
    (silent : (interleaving b enter exit error).NamesNothing) : woven.body.Anchored := by
  have numbered := numbered_of_made made anchored.numbered
  have shape := woven_of_numbered anchored.numbered made
  have kept : ∀ l, b.Names l → l ∈ labels woven.body.items := fun l named =>
    mem_labels_woven shape (anchored.placed l named)
  refine ⟨numbered, fun l named => ?_⟩
  cases named with
  | @target i member here =>
    rw [shape.code] at member
    rcases (interleaving b enter exit error).mem_instructions member with hook | old | rfl
    · have none : i.targets = [] :=
        hook.elim (silent.enter i) fun rest => rest.elim (silent.exit i) (silent.error i)
      rw [none] at here
      cases here
    · exact kept l (.target old here)
    · cases here
  | region member here => exact Body.mem_labels_of_region numbered member here
  | line member here =>
    rw [made.rest] at member
    exact kept l (.line member here)
  | range member here =>
    rw [made.rest] at member
    exact kept l (.range member here)
  | @frame f member here =>
    obtain ⟨_, same | ⟨k, same⟩⟩ := frames_of_made made
    · rw [same] at member
      exact kept l (.frame member here)
    · rw [same] at member
      rcases List.mem_append.mp member with old | new
      · exact kept l (.frame old here)
      · obtain rfl := List.mem_singleton.mp new
        rw [positions_handlerFrame, List.mem_singleton] at here
        subst here
        exact mem_labels_of_marks (handler_of_made made anchored.numbered).1

end Made

end Weaving
end ClassHooks
