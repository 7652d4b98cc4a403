import ClassHooks.Proofs.Hook.Repetition
import ClassHooks.Proofs.Weaving.Anchoring
import ClassHooks.Proofs.Weaving.Depths
import ClassHooks.Proofs.Weaving.Unit

/-!
Weaving a method again. A woven body is in order, so what it is encoded to is read again; and whatever
weaving would add to the pool was added before.
-/
namespace ClassHooks
namespace Weaving
open Item Instruction

section Order
variable {b : Body} {w : Interleaving} {woven : Body}

theorem spans_woven (shape : Woven b w woven) {v : Variable} (spans : v.Spans b.items) :
    v.Spans woven.items := by
  obtain ⟨n, m, start, finish, order⟩ := spans
  exact ⟨w.begin n, w.begin m, shape.marks _ n start, shape.marks _ m finish, w.begin_mono order⟩

theorem returns_woven (shape : Woven b w woven) (straight : w.Straight) :
    woven.returnCount = b.returnCount := by
  have none : ∀ {is : List (Instruction Label)}, (∀ i ∈ is, i.Straight) →
      is.countP isReturn = 0 := fun all => List.countP_eq_zero.mpr fun i member => by
    simp [not_return_of_straight (all i member)]
  have each : ∀ i, (w.unit i).countP isReturn = [i].countP isReturn := by
    intro i
    unfold Interleaving.unit withHook
    split
    · rw [List.countP_append, none straight.exit, Nat.zero_add]
    · rfl
  have main : w.main.countP isReturn = w.original.countP isReturn := by
    unfold Interleaving.main
    generalize w.original = is
    induction is with
    | nil => rfl
    | cons i is ih =>
      rw [List.flatMap_cons, List.countP_append, ih, each, ← List.countP_append,
        List.singleton_append]
  have last : [Instruction.plain Opcode.athrow].countP (isReturn (τ := Label)) = 0 := rfl
  unfold Body.returnCount
  rw [shape.code, Interleaving.instructions, List.countP_append, List.countP_append,
    List.countP_append, none straight.enter, none straight.error, main, shape.original, last]
  omega

end Order

section Made
variable {b : Body} {chain : Chain} {requireFrames : Bool} {method : MethodName} {p p' : Pool}
  {enter exit error : Hook} {woven : WovenMethod}
  (made : Made b chain requireFrames method p enter exit error woven p')

include made in
theorem straight_of_made : (interleaving b enter exit error).Straight := by
  obtain ⟨_, _, _, _, emits, _⟩ := made.emits
  exact straight_of_emits emits

variable (orderly : b.Orderly) (fits : ∀ i ∈ (interleaving b enter exit error).instructions, i.Fits)
include made orderly fits

theorem sound_of_made : woven.body.Sound := by
  set w := interleaving b enter exit error with named
  have sound := orderly.sound
  have shape : Woven b w woven.body := woven_of_made sound made
  have straight : w.Straight := straight_of_made made
  obtain ⟨filled, once, old, regions⟩ := numbered_of_made made sound.numbered
  constructor
  case filled => exact filled
  case once => exact once
  case old => exact old
  case fits =>
    rw [shape.code]
    exact fits
  case targets =>
    intro i member l target
    rw [shape.code] at member
    rcases w.mem_instructions member with hook | here | rfl
    · rw [hook_targets straight fits member hook] at target
      cases target
    · rw [shape.original] at here
      exact heads_woven shape (sound.targets i here l target)
    · cases target
  case regions => exact regions

omit fits in
theorem frame_of_made : ∀ f ∈ woven.body.frames.getD [], Frame.Writable f.kind ∧
    ∀ l ∈ f.positions, woven.body.Heads l := by
  have shape := woven_of_made orderly.sound made
  have kept : ∀ f ∈ b.frames.getD [], Frame.Writable f.kind ∧ ∀ l ∈ f.positions,
      woven.body.Heads l := fun f member =>
    ⟨orderly.writable f member, fun l here =>
      heads_woven shape (orderly.positions f member l here)⟩
  obtain ⟨_, same | ⟨k, same⟩⟩ := frames_of_made made
  · rw [same]
    exact kept
  · rw [same, List.forall_mem_append]
    refine ⟨kept, fun f member => ?_⟩
    obtain rfl := List.mem_singleton.mp member
    refine ⟨⟨Nat.zero_lt_succ _, Nat.succ_lt_succ (Nat.zero_lt_succ _)⟩, fun l here => ?_⟩
    rw [positions_handlerFrame, List.mem_singleton] at here
    subst here
    obtain ⟨marks, inside⟩ := handler_of_made made orderly.sound.numbered
    exact ⟨_, inside, marks⟩

omit fits in
theorem ordered_of_made : (woven.body.frames.getD []).Pairwise fun f g => ∃ n m,
    Marks woven.body.items f.position n ∧ Marks woven.body.items g.position m ∧ n < m := by
  set w := interleaving b enter exit error with named
  have shape : Woven b w woven.body := woven_of_made orderly.sound made
  have old : (b.frames.getD []).Pairwise fun f g => ∃ n m, Marks woven.body.items f.position n ∧
      Marks woven.body.items g.position m ∧ n < m := by
    refine orderly.ordered.imp fun {f g} ⟨n, m, first, second, order⟩ => ?_
    have bound : m ≤ w.original.length := by
      rw [shape.original]
      exact marks_le second
    exact ⟨w.begin n, w.begin m, shape.marks _ n first, shape.marks _ m second,
      w.begin_lt_begin order (by omega)⟩
  obtain ⟨_, same | ⟨k, same⟩⟩ := frames_of_made made
  · rw [same]
    exact old
  · rw [same, List.pairwise_append]
    refine ⟨old, List.pairwise_singleton _ _, fun f member g new => ?_⟩
    obtain rfl := List.mem_singleton.mp new
    obtain ⟨n, inside, marks⟩ := orderly.positions f member f.position (by simp [Frame.positions])
    rw [← shape.original] at inside
    obtain ⟨handler, _⟩ := handler_of_made made orderly.sound.numbered
    exact ⟨w.begin n, w.finish, shape.marks _ n marks, handler, w.begin_lt_begin inside inside⟩

theorem orderly_of_made : woven.body.Orderly := by
  have sound := orderly.sound
  have shape := woven_of_made sound made
  have straight := straight_of_made made
  have lines : woven.body.lines = b.lines := by rw [made.rest]
  have locals : woven.body.locals = b.locals := by rw [made.rest]
  have types : woven.body.variableTypes = b.variableTypes := by rw [made.rest]
  constructor
  case sound => exact sound_of_made made orderly fits
  case rising => exact (decodable_of_woven sound orderly.rising shape straight fits).rising
  case lines =>
    rw [lines]
    exact fun l member => heads_woven shape (orderly.lines l member)
  case locals =>
    rw [locals]
    exact fun v member => spans_woven shape (orderly.locals v member)
  case variableTypes =>
    rw [types]
    exact fun v member => spans_woven shape (orderly.variableTypes v member)
  case writable => exact fun f member => (frame_of_made made orderly f member).1
  case positions => exact fun f member => (frame_of_made made orderly f member).2
  case ordered => exact ordered_of_made made orderly

end Made

section Hooks
variable {chain : Chain} {method : MethodName} {returnType : Option FieldType} {returns : Nat}
  {p p' r : Pool} {enter exit error : Hook}

/-- In every later pool the same hooks are emitted, and nothing is added. -/
theorem emits_again (emits : Emits chain method returnType returns p enter exit error p')
    (later : p'.Later r) : Emits chain method returnType returns r enter exit error r := by
  cases emits with
  | @mk p₁ p₂ _ enters exits errors =>
    obtain ⟨_, again⟩ := repeats_ok (chain.repeats_emit _) enters
    obtain ⟨grown', again''⟩ := repeats_ok (chain.repeats_emit _) errors
    have middle : p₂.Later r := Pool.later_trans grown' later
    by_cases some : 0 < returns
    · rw [if_pos some] at exits
      obtain ⟨grown, again'⟩ := repeats_ok (chain.repeats_emit _) exits
      refine .mk (again r (Pool.later_trans grown middle)) ?_ (again'' r later)
      rw [if_pos some]
      exact again' r middle
    · rw [if_neg some] at exits
      obtain ⟨rfl, rfl⟩ := state_pure_ok_iff.mp exits
      refine .mk (again r middle) ?_ (again'' r later)
      rw [if_neg some]
      rfl

theorem emits_unique {enter' exit' error' : Hook} {p'' : Pool}
    (one : Emits chain method returnType returns p enter exit error p')
    (two : Emits chain method returnType returns p enter' exit' error' p'') :
    enter = enter' ∧ exit = exit' ∧ error = error' := by
  cases one with
  | mk enters exits errors =>
    cases two with
    | mk enters' exits' errors' =>
      rw [enters] at enters'
      cases enters'
      rw [exits] at exits'
      cases exits'
      rw [errors] at errors'
      cases errors'
      exact ⟨rfl, rfl, rfl⟩

def HooksFit (enter exit error : Hook) : Prop :=
  ∀ i, i ∈ enter.instructions ∨ i ∈ exit.instructions ∨ i ∈ error.instructions → i.Fits

theorem fits_of_hooks {b : Body} (sound : b.Sound) (hooks : HooksFit enter exit error) :
    ∀ i ∈ (interleaving b enter exit error).instructions, i.Fits := by
  intro i member
  rcases (interleaving b enter exit error).mem_instructions member with hook | original | rfl
  · exact hooks i hook
  · exact sound.fits i original
  · exact ⟨.nothing, rfl, rfl⟩

theorem hooks_of_fits {b : Body}
    (emits : Emits chain method returnType b.returnCount p enter exit error p')
    (fits : ∀ i ∈ (interleaving b enter exit error).instructions, i.Fits) :
    HooksFit enter exit error := by
  intro i member
  refine fits i ?_
  rcases member with inside | inside | inside
  · exact List.mem_append_left _ inside
  · cases emits with
    | mk _ exits _ =>
      split at exits
      · rename_i some
        obtain ⟨j, original, ends⟩ := List.countP_pos_iff.mp some
        refine List.mem_append_right _ (List.mem_append_left _ ?_)
        refine List.mem_flatMap.mpr ⟨j, original, ?_⟩
        rw [Interleaving.unit, withHook, if_pos ends]
        exact List.mem_append_left _ inside
      · obtain ⟨rfl, _⟩ := state_pure_ok_iff.mp exits
        cases inside
  · exact List.mem_append_right _ (List.mem_append_right _ (List.mem_append_left _ inside))

end Hooks

/-- The chain can be woven into a method of so many returns, with or without a stack map, with nothing
to add to the pool. -/
structure Settled (chain : Chain) (requireFrames : Bool) (method : MethodName) (pool : Pool)
    (returns : Nat) (framed : Bool) : Prop where
  hooks : ∃ descriptor enter exit error,
    MethodDescriptor.parse method.descriptor = .ok descriptor ∧
    Emits chain method descriptor.returnType returns pool enter exit error pool ∧
    HooksFit enter exit error
  required : requireFrames = true → framed = true
  handler : framed = true → ∃ k, Pool.addClass throwable pool = .ok k pool

/-- The payload of a code attribute that can be read, and woven with nothing to add to the pool. -/
def Rests (chain : Chain) (requireFrames : Bool) (method : MethodName) (pool : Pool)
    (payload : Bytes) : Prop :=
  ∃ c b, CodeAttribute.parse payload = .ok c ∧ Body.ofCode c pool = .ok b ∧
    Settled chain requireFrames method pool b.returnCount b.frames.isSome

section Rounds
variable {chain : Chain} {requireFrames : Bool} {method : MethodName}

theorem settled_of_made {b : Body} {p p' r : Pool} {enter exit error : Hook} {woven : WovenMethod}
    (made : Made b chain requireFrames method p enter exit error woven p')
    (fits : ∀ i ∈ (interleaving b enter exit error).instructions, i.Fits) (later : p'.Later r) :
    Settled chain requireFrames method r b.returnCount woven.body.frames.isSome := by
  obtain ⟨descriptor, p₁, frames, parsed, emits, framed, _⟩ := made.emits
  obtain ⟨some, _⟩ := frames_of_made made
  have keeps : Keeps p₁.Later (addFrame b requireFrames) :=
    usable_addFrame b requireFrames p₁.Later fun c _ => Pool.keeps_later c
  have grown : p₁.Later p' := holds_of_keeps keeps (Pool.later_refl _) framed
  constructor
  case hooks =>
    exact ⟨descriptor, enter, exit, error, parsed, emits_again emits (Pool.later_trans grown later),
      hooks_of_fits emits fits⟩
  case required =>
    intro required
    rw [some, required]
    rfl
  case handler =>
    intro asked
    have cases := addFrame_cases framed
    rw [← some, if_pos asked] at cases
    obtain ⟨k, added, _⟩ := cases
    obtain ⟨_, again⟩ := repeats_ok (Pool.repeats_addClass throwable) added
    exact ⟨k, again r later⟩

theorem rests_of_encodes {pool : Pool} {woven : Body} {e : Encoded} {c : CodeAttribute}
    {payload : Bytes} (orderly : woven.Orderly) (encodes : woven.Encodes pool e c)
    (apart : ∀ a ∈ woven.others, a.isTable pool = false) (written : c.write = .ok payload)
    (settled : Settled chain requireFrames method pool woven.returnCount woven.frames.isSome) :
    Rests chain requireFrames method pool payload := by
  obtain ⟨b, read, frames, returns⟩ := Body.ofCode_of_encodes orderly encodes apart
  refine ⟨c, b, CodeAttribute.parse_written written, read, ?_⟩
  rwa [frames, returns]

/-- After weaving, the new payload rests in every later pool. -/
theorem rests_of_payload {q q' r : Pool} {old new : Bytes} {sites : Nat} (sound : q.Sound)
    (inside : ∀ c, CodeAttribute.parse old = .ok c → ∀ a ∈ c.attributes, a.name.toNat < q.size)
    (run : payload chain requireFrames method old q = .ok (new, sites) q') (grows : q'.Grows r)
    (later : q'.Later r) : Rests chain requireFrames method r new := by
  obtain ⟨c, b, woven, q₁, c', parsed, read, weaves, coded, written⟩ := rewritten_of_payload run
  have orderly := Body.orderly_of_ofCode read
  obtain ⟨decoded, t, _, _, labelled⟩ := Body.labelled_of_ofCode read
  obtain ⟨enter, exit, error, made⟩ := made_of_weave weaves
  obtain ⟨_, p₁, frames, _, emits, adds, _⟩ := made.emits
  have emitted := emits_beyond sound emits
  obtain ⟨framing, _⟩ := addFrame_ok emitted.sound adds
  obtain ⟨beyond, e, encodes⟩ := Body.encodes_of_toCode framing.sound coded
  have all : q.Grows r := Pool.grows_trans emitted.grows
    (Pool.grows_trans framing.grows (Pool.grows_trans beyond.grows grows))
  have fits : ∀ i ∈ (interleaving b enter exit error).instructions, i.Fits := by
    obtain ⟨_, _, laid⟩ := laid_of_encode encodes.encoded
    rw [← (woven_of_made orderly.sound made).code]
    exact laid.acceptable.fits
  have grown : q₁.Later q' := holds_of_keeps
    (Body.usable_toCode woven.body q₁.Later fun c _ => Pool.keeps_later c) (Pool.later_refl _) coded
  have apart : ∀ a ∈ woven.body.others, a.isTable r = false := by
    have kept : woven.body.others = b.others.filter fun a => !isDropped q₁ a :=
      congrArg Body.others made.rest
    intro a member
    rw [kept, labelled.tables.others] at member
    obtain ⟨known, plain⟩ := List.mem_filter.mp (List.mem_filter.mp member).1
    rw [Attribute.isTable_of_inside all (inside c parsed a known)]
    simpa using plain
  refine rests_of_encodes (orderly_of_made made orderly fits) (Body.encodes_grows grows encodes)
    apart written ?_
  rw [returns_woven (woven_of_made orderly.sound made) (straight_of_made made)]
  exact settled_of_made made fits (Pool.later_trans grown later)

section Again
variable {pool : Pool} {b : Body}
  (settled : Settled chain requireFrames method pool b.returnCount b.frames.isSome)
include settled

theorem stays_weave {c : CodeAttribute} {before : Pool} (read : Body.ofCode c before = .ok b) :
    (b.weave chain requireFrames method).Stays pool fun _ => True := by
  obtain ⟨descriptor, enter, exit, error, parsed, emits, _⟩ := settled.hooks
  have framed : ∃ frames, addFrame b requireFrames pool = .ok frames pool := by
    unfold addFrame
    split
    · rename_i asked
      have some : b.frames.isSome = true := by
        rcases Bool.or_eq_true_iff.mp asked with required | some
        · exact settled.required required
        · exact some
      obtain ⟨k, added⟩ := settled.handler some
      exact ⟨_, state_bind_of_ok added⟩
    · exact ⟨_, rfl⟩
  obtain ⟨frames, framed⟩ := framed
  obtain ⟨refused, woven⟩ := weave_of_emits (Body.sound_of_ofCode read) parsed emits (labelRoom_of_ofCode read _)
  rcases Nat.lt_or_ge 65535 (neededStack b.maxStack enter exit error) with deep | room
  · exact stays_of_error (refused deep) trivial
  · obtain ⟨woven, run⟩ := woven room frames pool framed
    exact stays_of_ok run trivial

theorem tableNames_again {p p' : Pool} {enter exit error : Hook} {woven : WovenMethod}
    (made : Made b chain requireFrames method p enter exit error woven p') :
    woven.body.tableNames = b.tableNames := by
  have lines : woven.body.lines = b.lines := by rw [made.rest]
  have locals : woven.body.locals = b.locals := by rw [made.rest]
  have types : woven.body.variableTypes = b.variableTypes := by rw [made.rest]
  have framed : woven.body.frames.isSome = b.frames.isSome := by
    rw [(frames_of_made made).1]
    cases required : requireFrames with
    | false => rfl
    | true => rw [settled.required required, Bool.or_true]
  have stackMap : Body.tableName Attribute.stackMapTable woven.body.frames.toList =
      Body.tableName Attribute.stackMapTable b.frames.toList := by
    generalize woven.body.frames = new, b.frames = old at framed ⊢
    cases new <;> cases old <;> first | rfl | cases framed
  rw [Body.tableNames, lines, locals, types, stackMap, Body.tableNames]

end Again

/-- A payload that rests is woven with nothing added to the pool, or fails for a limit; and what comes
of it rests. -/
theorem stays_payload {pool : Pool} {old : Bytes} (sound : pool.Sound) (complete : pool.Complete)
    (rests : Rests chain requireFrames method pool old) :
    (payload chain requireFrames method old).Stays pool fun result =>
      Rests chain requireFrames method pool result.1 := by
  obtain ⟨c, b, parsed, read, settled⟩ := rests
  have orderly := Body.orderly_of_ofCode read
  obtain ⟨decoded, t, _, _, labelled⟩ := Body.labelled_of_ofCode read
  have names := Body.known_tableNames labelled
  have first : Limited (CodeAttribute.parse old) (c = ·) := limited_of_ok parsed rfl
  refine stays_bind (stays_lift first) ?_
  rintro _ _ ⟨_, rfl⟩
  refine stays_bind stays_get ?_
  rintro _ _ rfl
  have second : Limited (Body.ofCode c pool) (b = ·) := limited_of_ok read rfl
  refine stays_bind (stays_lift second) ?_
  rintro _ _ ⟨_, rfl⟩
  refine stays_bind (stays_weave settled read) fun woven weaves _ => ?_
  obtain ⟨enter, exit, error, made⟩ := made_of_weave weaves
  obtain ⟨descriptor, p₁, frames, described, emits, _⟩ := made.emits
  have fits : ∀ i ∈ (interleaving b enter exit error).instructions, i.Fits := by
    obtain ⟨_, enter', exit', error', described', emits', hooks⟩ := settled.hooks
    rw [described] at described'
    cases described'
    obtain ⟨rfl, rfl, rfl⟩ := emits_unique emits emits'
    exact fits_of_hooks orderly.sound hooks
  have ordered := orderly_of_made made orderly fits
  have known : ∀ name ∈ woven.body.tableNames, pool.knows name = true := by
    rwa [tableNames_again settled made]
  refine stays_bind (Body.stays_toCode complete ordered known) fun c' coded _ => ?_
  obtain ⟨_, e, encodes⟩ := Body.encodes_of_toCode sound coded
  have apart : ∀ a ∈ woven.body.others, a.isTable pool = false := by
    have kept : woven.body.others = b.others.filter fun a => !isDropped pool a :=
      congrArg Body.others made.rest
    intro a member
    rw [kept, labelled.tables.others] at member
    exact CodeAttribute.others_apart a (List.mem_filter.mp member).1
  have admits := Body.admits_of_encodes ordered encodes
  refine stays_bind (stays_lift (CodeAttribute.limited_write admits)) fun new _ ⟨written, _⟩ =>
    stays_pure ?_
  refine rests_of_encodes ordered encodes apart written ?_
  rw [returns_woven (woven_of_made orderly.sound made) (straight_of_made made)]
  exact settled_of_made made fits (Pool.later_refl pool)

end Rounds
end Weaving
end ClassHooks
