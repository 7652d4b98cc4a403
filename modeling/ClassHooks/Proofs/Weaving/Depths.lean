import Mathlib
import ClassHooks.Proofs.Weaving.Control

/-!
Depths of the operand stack. If the instructions of a method have depths that agree along all its
ways, then so have those of the woven method, and the stack that it asks for holds them all.
-/
namespace ClassHooks

def Body.Passes (b : Body) (n m : Nat) : Prop :=
  b.Step (fun _ (_ : Empty) => False) ⟨n, none⟩ m

/-- Depths of the stack before each instruction, where `effect i change` says that the instruction
can change the depth so. -/
structure Body.Depths (effect : Instruction Label → Int → Prop) (b : Body) (d : Nat → Nat) :
    Prop where
  first : 0 < b.instructions.length → d 0 = 0
  passes : ∀ n m i, b.instructions[n]? = some i → b.Passes n m → effect i ((d m : Int) - d n)
  handlers : ∀ r ∈ b.handlers, ∀ n < b.instructions.length,
    Item.Marks b.items r.handler n → d n = 1
  bounded : ∀ n < b.instructions.length, d n ≤ b.maxStack.toNat

namespace Hook

/-- Slots that the hook has on the stack before each instruction and at its end, which is its last
place: it begins and ends with none and has never more than it reports. -/
structure Heights (effect : Instruction Label → Int → Prop) (hook : Hook) (h : Nat → Nat) :
    Prop where
  start : h 0 = 0
  finish : h hook.instructions.length = 0
  passes : ∀ n i, hook.instructions[n]? = some i → effect i ((h (n + 1) : Int) - h n)
  bounded : ∀ n ≤ hook.instructions.length, h n ≤ hook.maxStack.toNat
  straight : ∀ i ∈ hook.instructions, i.targets = []

def Neutral (effect : Instruction Label → Int → Prop) (hook : Hook) : Prop :=
  ∃ h, hook.Heights effect h

variable {effect : Instruction Label → Int → Prop}

theorem neutral_empty : empty.Neutral effect := by
  refine ⟨fun _ => 0, rfl, rfl, ?_, fun _ _ => Nat.zero_le _, ?_⟩ <;> simp [empty]

/-- One hook behind another needs the greater of the two depths, since the first is done with its
slots when the second begins. -/
theorem neutral_append {a b : Hook} (first : a.Neutral effect) (second : b.Neutral effect) :
    (a.append b).Neutral effect := by
  obtain ⟨h, one⟩ := first
  obtain ⟨g, two⟩ := second
  have length : (a.append b).instructions.length =
      a.instructions.length + b.instructions.length := List.length_append
  have peak : (a.append b).maxStack.toNat = max a.maxStack.toNat b.maxStack.toNat :=
    toNat_max _ _
  let both : Nat → Nat := fun n =>
    if n < a.instructions.length then h n else g (n - a.instructions.length)
  have early : ∀ n, n ≤ a.instructions.length → both n = h n := by
    intro n bound
    rcases Nat.lt_or_eq_of_le bound with inside | rfl
    · exact if_pos inside
    · simp [both, two.start, one.finish]
  have late : ∀ n, both (a.instructions.length + n) = g n := by
    intro n
    simp [both]
  refine ⟨both, ?_, ?_, ?_, ?_, ?_⟩
  · rw [early 0 (Nat.zero_le _), one.start]
  · rw [length, late, two.finish]
  · intro n i here
    change (a.instructions ++ b.instructions)[n]? = some i at here
    rcases Nat.lt_or_ge n a.instructions.length with inside | outside
    · rw [List.getElem?_append_left inside] at here
      rw [early n (Nat.le_of_lt inside), early (n + 1) inside]
      exact one.passes n i here
    · obtain ⟨m, rfl⟩ := Nat.exists_eq_add_of_le outside
      rw [List.getElem?_append_right (Nat.le_add_right _ _), Nat.add_sub_cancel_left] at here
      rw [Nat.add_assoc, late, late]
      exact two.passes m i here
  · intro n bound
    rw [length] at bound
    rw [peak]
    rcases Nat.lt_or_ge n a.instructions.length with inside | outside
    · have := one.bounded n (Nat.le_of_lt inside)
      rw [early n (Nat.le_of_lt inside)]
      omega
    · obtain ⟨m, rfl⟩ := Nat.exists_eq_add_of_le outside
      have := two.bounded m (by omega)
      rw [late]
      omega
  · intro i member
    rcases List.mem_append.mp member with inside | inside
    · exact one.straight i inside
    · exact two.straight i inside

end Hook

section Chains
variable {effect : Instruction Label → Int → Prop}

/-- What the policies of the chain emit is neutral, where its constants are those of the pool. -/
def Chain.Neutral (effect : Instruction Label → Int → Prop) (pool : Pool) (chain : Chain) : Prop :=
  ∀ p ∈ chain.policies, ∀ site before hook after, p.emit site before = .ok hook after →
    after.Grows pool → hook.Neutral effect

theorem chain_emit_neutral {chain : Chain} {final : Pool} (neutral : chain.Neutral effect final)
    {site : Site} {pool pool' : Pool} {hook : Hook} (run : chain.emit site pool = .ok hook pool')
    (later : pool'.Grows final) : hook.Neutral effect := by
  refine chain_emit_induction (J := fun p hook => p.Grows final → hook.Neutral effect) ?_ ?_ run
    later
  · intro _
    exact Hook.neutral_empty
  · intro p member before after done own ih emitted grows
    have grown : before.Grows after :=
      emit_keeps Pool.keeps_grows (Pool.grows_refl before) emitted
    exact Hook.neutral_append (ih (Pool.grows_trans grown grows))
      (neutral p member _ _ _ _ emitted grows)

namespace Weaving

theorem neutral_of_emits {chain : Chain} {final : Pool} (neutral : chain.Neutral effect final)
    {method : MethodName} {returnType : Option FieldType} {returns : Nat} {p p' : Pool}
    {enter exit error : Hook} (emits : Emits chain method returnType returns p enter exit error p')
    (later : p'.Grows final) :
    enter.Neutral effect ∧ exit.Neutral effect ∧ error.Neutral effect := by
  have grows : ∀ {site q q' hook}, chain.emit site q = .ok hook q' → q.Grows q' := by
    intro site q q' hook run
    exact chain_emit_keeps Pool.keeps_grows (Pool.grows_refl q) run
  cases emits with
  | @mk p₁ _ _ enters exits errors =>
    have last := Pool.grows_trans (grows errors) later
    have rest : exit.Neutral effect ∧ p₁.Grows final := by
      split at exits
      · exact ⟨chain_emit_neutral neutral exits last, Pool.grows_trans (grows exits) last⟩
      · obtain ⟨rfl, rfl⟩ := state_pure_ok_iff.mp exits
        exact ⟨Hook.neutral_empty, last⟩
    exact ⟨chain_emit_neutral neutral enters rest.2, rest.1,
      chain_emit_neutral neutral errors later⟩

end Weaving
end Chains

namespace Interleaving
variable (w : Interleaving)

def unitAt (n : Nat) : Nat := Nat.findGreatest (fun k => w.begin k ≤ n) (w.original.length - 1)

/-- Depths of the woven code: at an instruction of the method its own, in a hook those of the hook
above what lies below it. -/
def depth (d enter exit error : Nat → Nat) (n : Nat) : Nat :=
  if n < w.enter.length then enter n
  else if n < w.finish then d (w.unitAt n) + exit (n - w.begin (w.unitAt n))
  else 1 + error (n - w.finish)

variable {w}

theorem unitAt_eq {n k : Nat} (inside : k < w.original.length) (after : w.begin k ≤ n)
    (before : n ≤ w.place k) : w.unitAt n = k := by
  unfold unitAt
  rw [Nat.findGreatest_eq_iff]
  refine ⟨by omega, fun _ => after, ?_⟩
  intro m order _
  have := w.place_lt_begin order inside
  omega

section Depth
variable {d enter exit error : Nat → Nat}

theorem depth_enter {n : Nat} (early : n < w.enter.length) :
    w.depth d enter exit error n = enter n := if_pos early

theorem depth_unit {n k : Nat} (inside : k < w.original.length) (after : w.begin k ≤ n)
    (before : n ≤ w.place k) :
    w.depth d enter exit error n = d k + exit (n - w.begin k) := by
  have := w.enter_le_begin k
  have := w.place_lt_finish inside
  unfold depth
  rw [if_neg (by omega), if_pos (by omega), unitAt_eq inside after before]

theorem depth_error {n : Nat} (late : w.finish ≤ n) :
    w.depth d enter exit error n = 1 + error (n - w.finish) := by
  have : w.enter.length ≤ w.finish := w.enter_le_begin w.original.length
  unfold depth
  rw [if_neg (by omega), if_neg (by omega)]

end Depth
end Interleaving

namespace Weaving
open Item

section Woven
variable {effect : Instruction Label → Int → Prop} {b woven : Body} {d : Nat → Nat}
  {enter exit error : Hook} {g x r : Nat → Nat}

section Places
variable {w : Interleaving} (begins : x 0 = 0) (ends : x w.exit.length = 0)
include begins

theorem depth_begin {k : Nat} (inside : k < w.original.length) :
    w.depth d g x r (w.begin k) = d k := by
  rw [w.depth_unit inside (Nat.le_refl _) (w.begin_le_place k), Nat.sub_self, begins, Nat.add_zero]

theorem depth_enter_next (filled : 0 < w.original.length) (first : d 0 = 0)
    (empty : g w.enter.length = 0) {n : Nat} (early : n < w.enter.length) :
    w.depth d g x r (n + 1) = g (n + 1) := by
  rcases Nat.lt_or_ge (n + 1) w.enter.length with more | done
  · exact w.depth_enter more
  · have whole : n + 1 = w.enter.length := by omega
    have same : n + 1 = w.begin 0 := by rw [w.begin_zero, whole]
    rw [same, depth_begin begins filled, ← same, whole, first, empty]

include ends

theorem depth_place {k : Nat} (inside : k < w.original.length) :
    w.depth d g x r (w.place k) = d k := by
  have lead : x (w.lead k) = 0 := by
    unfold Interleaving.lead
    split
    · exact ends
    · exact begins
  rw [w.depth_unit inside (w.begin_le_place k) (Nat.le_refl _), Interleaving.place,
    Nat.add_sub_cancel_left, lead, Nat.add_zero]

end Places

section Steps
variable (shape : Woven b (interleaving b enter exit error) woven) (sound : b.Sound)
  (last : ∃ i, b.instructions.getLast? = some i ∧ i.isTerminal = true)
  (depths : b.Depths effect d) (enters : enter.Heights effect g) (exits : exit.Heights effect x)
  (errors : error.Heights effect r)
include shape sound last depths enters exits errors

/-- Along every way of the woven code the depths agree. -/
theorem depth_passes {n m : Nat} {i : Instruction Label} (here : woven.instructions[n]? = some i)
    (passes : woven.Passes n m) :
    effect i (((interleaving b enter exit error).depth d g x r m : Int) -
      (interleaving b enter exit error).depth d g x r n) := by
  set w := interleaving b enter exit error with made
  have names : w.NamesNothing := ⟨enters.straight, exits.straight, errors.straight⟩
  have filled : 0 < w.original.length := by
    obtain ⟨i, final, _⟩ := last
    exact List.length_pos_of_mem (List.mem_of_getLast? final)
  have final : ∀ i, b.instructions.getLast? = some i → i.isTerminal = true := by
    obtain ⟨i, final, terminal⟩ := last
    intro j here
    rw [final] at here
    cases here
    exact terminal
  have known : w.instructions[n]? = some i := by rw [← shape.code, here]
  have inside : n < w.instructions.length := (List.getElem?_eq_some_iff.mp known).1
  cases w.spot_of_lt inside with
  | enter early =>
    obtain rfl := step_hook_inv shape names (.enter early) passes
    rw [w.instructions_enter early] at known
    rw [w.depth_enter early,
      depth_enter_next exits.start filled (depths.first filled) enters.finish early]
    exact enters.passes n i known
  | @lead _ k inside' after before =>
    obtain rfl := step_hook_inv shape names (.exit inside' after before) passes
    rw [w.instructions_lead inside' after before] at known
    rw [w.depth_unit inside' after (Nat.le_of_lt before), w.depth_unit inside' (by omega) before,
      show n + 1 - w.begin k = n - w.begin k + 1 by omega]
    have grown := exits.passes (n - w.begin k) i known
    rw [show ((d k + x (n - w.begin k + 1) : Nat) : Int) - (d k + x (n - w.begin k) : Nat) =
      (x (n - w.begin k + 1) : Int) - x (n - w.begin k) by omega]
    exact grown
  | @original k inside' =>
    rw [w.instructions_place inside'] at known
    rcases step_place_inv shape sound final inside' passes with
      ⟨m', rfl, below, step⟩ | ⟨t, absurd, _⟩
    · rw [depth_begin exits.start below, depth_place exits.start exits.finish inside']
      refine depths.passes k m' i ?_ step
      rw [← known]
      exact List.getElem?_eq_getElem inside'
    · cases absurd
  | error after before =>
    obtain rfl := step_hook_inv shape names (.error after before) passes
    rw [w.instructions_error after before] at known
    rw [w.depth_error after, w.depth_error (by omega),
      show n + 1 - w.finish = n - w.finish + 1 by omega]
    have grown := errors.passes (n - w.finish) i known
    rw [show ((1 + r (n - w.finish + 1) : Nat) : Int) - (1 + r (n - w.finish) : Nat) =
      (r (n - w.finish + 1) : Int) - r (n - w.finish) by omega]
    exact grown
  | rethrow => exact absurd passes (not_step_rethrow shape)

omit last enters in
/-- Every handler of the woven code is entered with the exception alone on the stack. -/
theorem depth_handlers {h : Region} (member : h ∈ woven.handlers) {n : Nat}
    (marks : Marks woven.items h.handler n) :
    (interleaving b enter exit error).depth d g x r n = 1 := by
  set w := interleaving b enter exit error with made
  obtain ⟨parts, last, listed, all, related⟩ := shape.handlers
  rw [listed] at member
  rcases List.mem_append.mp member with old | new
  · obtain ⟨pieces, part, inside⟩ := List.mem_flatten.mp old
    obtain ⟨region, known, replaces⟩ := related_of_mem_right related part
    obtain ⟨_, _, k, _, _, _, marks', below⟩ := sound.regions region known
    rw [(replaces.kept h inside).1] at marks
    rw [marks_unique shape.once marks (shape.marks _ _ marks'), depth_begin exits.start below]
    exact depths.handlers region known k below marks'
  · rw [List.mem_singleton.mp new] at marks
    rw [marks_unique shape.once marks all.handler, w.depth_error (Nat.le_refl _), Nat.sub_self,
      errors.start]

omit shape sound last in
theorem depth_bounded {n : Nat}
    (inside : n < (interleaving b enter exit error).instructions.length) :
    (interleaving b enter exit error).depth d g x r n ≤
      neededStack b.maxStack enter exit error := by
  set w := interleaving b enter exit error with made
  have peak := toNat_max enter.maxStack exit.maxStack
  have low := enters.bounded
  have high := exits.bounded
  unfold neededStack
  rw [peak]
  have unit : ∀ k < w.original.length, ∀ m ≤ exit.instructions.length,
      d k + x m ≤ b.maxStack.toNat + exit.maxStack.toNat := by
    intro k below m bound
    exact Nat.add_le_add (depths.bounded k below) (exits.bounded m bound)
  cases w.spot_of_lt inside with
  | enter early =>
    have := enters.bounded n (Nat.le_of_lt early)
    rw [w.depth_enter early]
    omega
  | @lead _ k inside' after before =>
    have hooked := w.place_of_hooked (w.mem_hooked_iff.mpr ⟨inside', by omega⟩)
    have room : n - w.begin k ≤ exit.instructions.length := by
      change _ ≤ w.exit.length
      omega
    have := unit k inside' _ room
    rw [w.depth_unit inside' after (Nat.le_of_lt before)]
    omega
  | @original k inside' =>
    have := depths.bounded k inside'
    rw [depth_place exits.start exits.finish inside']
    omega
  | error after before =>
    have room : n - w.finish ≤ error.instructions.length := by
      unfold Interleaving.rethrow at before
      change _ ≤ w.error.length
      omega
    have := errors.bounded _ room
    rw [w.depth_error after]
    omega
  | rethrow =>
    have room : w.rethrow - w.finish ≤ error.instructions.length := by
      unfold Interleaving.rethrow
      change _ ≤ w.error.length
      omega
    have := errors.bounded _ room
    rw [w.depth_error w.finish_le_rethrow]
    omega

theorem depths_of_woven (deep : woven.maxStack.toNat = neededStack b.maxStack enter exit error) :
    woven.Depths effect ((interleaving b enter exit error).depth d g x r) := by
  set w := interleaving b enter exit error with made
  refine ⟨fun _ => ?_, ?_, ?_, ?_⟩
  · have filled : 0 < w.original.length := by
      obtain ⟨i, final, _⟩ := last
      exact List.length_pos_of_mem (List.mem_of_getLast? final)
    rcases Nat.eq_zero_or_pos w.enter.length with none | some
    · have start : w.begin 0 = 0 := by rw [w.begin_zero, none]
      have first := depth_begin (d := d) (g := g) (r := r) exits.start filled
      rw [start, depths.first filled] at first
      exact first
    · rw [w.depth_enter some, enters.start]
  · intro n m i here passes
    exact depth_passes shape sound last depths enters exits errors here passes
  · intro h member n _ marks
    exact depth_handlers shape sound depths exits errors member marks
  · intro n inside
    rw [deep]
    refine depth_bounded depths enters exits errors ?_
    rw [← shape.code]
    exact inside

end Steps
end Woven

theorem exclude_ok {b : Body} {w : Interleaving} (sound : b.Sound) (room : LabelRoom b w.exit)
    (original : w.original = b.instructions) :
    ∃ regions, Region.exclude (wovenItems b w) b.handlers (guardedSpans b w.exit) =
      .ok regions := by
  unfold Region.exclude
  by_cases none : (guardedSpans b w.exit).isEmpty = true
  · rw [if_pos none]
    exact ⟨_, rfl⟩
  · have each := mapM_ok_of_forall fun r member => outside_eq sound.numbered room original member
    rw [if_neg none]
    exact ⟨_, bind_ok_iff.mpr ⟨_, each, rfl⟩⟩

theorem weave_of_emits {b : Body} (sound : b.Sound) {chain : Chain} {requireFrames : Bool}
    {method : MethodName} {p p' : Pool} {descriptor : MethodDescriptor}
    (parsed : MethodDescriptor.parse method.descriptor = .ok descriptor) {enter exit error : Hook}
    (emits : Emits chain method descriptor.returnType b.returnCount p enter exit error p')
    (numbers : LabelRoom b exit.instructions) :
    (65535 < neededStack b.maxStack enter exit error →
      b.weave chain requireFrames method p = .error (.notSupported (.operandStack method.className
        method.method method.descriptor (neededStack b.maxStack enter exit error))) p') ∧
    (neededStack b.maxStack enter exit error ≤ 65535 → ∀ frames p'',
      addFrame b requireFrames p' = .ok frames p'' →
        ∃ woven, b.weave chain requireFrames method p = .ok woven p'') := by
  have minted : b.labelsBehind (labelsMinted exit.instructions b.returnCount) = .ok _ :=
    counted_ok_iff.mpr ⟨numbers, rfl⟩
  have emitted : (interleaving b enter exit error).original = b.instructions := rfl
  obtain ⟨regions, excluded⟩ := exclude_ok sound numbers emitted
  cases emits with
  | @mk p₁ p₂ _ enters exits errors =>
    simp only [wovenItems, interleaving] at excluded
    unfold Body.weave
    rw [state_bind_of_ok (PoolM.lift_ok_iff.mpr ⟨mapError_ok_iff.mpr parsed, rfl⟩)]
    dsimp only
    rw [state_bind_of_ok enters, state_ite_bind_of_ok exits, state_bind_of_ok errors,
      state_bind_of_ok (PoolM.lift_ok_iff.mpr ⟨minted, rfl⟩), withReturnHook_eq]
    dsimp only
    rw [state_bind_of_ok (PoolM.lift_ok_iff.mpr ⟨excluded, rfl⟩)]
    constructor
    · intro deep
      rw [if_pos deep]
      rfl
    · intro room frames p'' framed
      rw [if_neg (Nat.not_lt.mpr room)]
      have cases := addFrame_cases framed
      by_cases asked : (requireFrames || b.frames.isSome) = true
      · rw [if_pos asked] at cases ⊢
        obtain ⟨k, added, _⟩ := cases
        exact ⟨_, state_bind_of_ok added⟩
      · rw [if_neg asked] at cases ⊢
        obtain ⟨rfl, _⟩ := cases
        exact ⟨_, rfl⟩

/-- If a method whose last instruction does not go on has depths that agree along its ways, then
whatever is woven into it has depths that agree along its ways and are the same at the instructions
of the method, and the stack that it asks for holds them all; or it is refused because it would ask
for more than 65535 slots. -/
theorem weave_depths {c : CodeAttribute} {pool : Pool} {b : Body}
    (read : Body.ofCode c pool = .ok b)
    (last : ∃ i, b.instructions.getLast? = some i ∧ i.isTerminal = true)
    {effect : Instruction Label → Int → Prop} {d : Nat → Nat} (depths : b.Depths effect d)
    (chain : Chain) (requireFrames : Bool) (method : MethodName) (p : Pool) :
    (∀ woven p', b.weave chain requireFrames method p = .ok woven p' →
      chain.Neutral effect p' →
      ∃ descriptor enter exit error p₁, MethodDescriptor.parse method.descriptor = .ok descriptor ∧
        Emits chain method descriptor.returnType b.returnCount p enter exit error p₁ ∧
        woven.body.instructions = (interleaving b enter exit error).instructions ∧
        woven.body.maxStack.toNat = neededStack b.maxStack enter exit error ∧
        ∃ d', woven.body.Depths effect d' ∧ ∀ k < b.instructions.length,
          d' ((interleaving b enter exit error).place k) = d k) ∧
    ∀ descriptor enter exit error p₁, MethodDescriptor.parse method.descriptor = .ok descriptor →
      Emits chain method descriptor.returnType b.returnCount p enter exit error p₁ →
      65535 < neededStack b.maxStack enter exit error →
      b.weave chain requireFrames method p = .error (.notSupported (.operandStack method.className
        method.method method.descriptor (neededStack b.maxStack enter exit error))) p₁ := by
  have sound : b.Sound := Body.sound_of_ofCode read
  constructor
  · intro woven p' run neutral
    obtain ⟨enter, exit, error, made⟩ := made_of_weave run
    obtain ⟨descriptor, p₁, frames, parsed, emits, framed, _⟩ := made.emits
    have shape := woven_of_made sound made
    have grows : p₁.Grows p' :=
      holds_of_keeps (usable_addFrame b requireFrames _ fun k _ => Pool.keeps_grows k)
        (Pool.grows_refl p₁) framed
    obtain ⟨⟨g, enters⟩, ⟨x, exits⟩, ⟨r, errors⟩⟩ := neutral_of_emits neutral emits grows
    have deep : woven.body.maxStack.toNat = neededStack b.maxStack enter exit error := by
      rw [made.rest]
      exact UInt16.toNat_ofNat_of_lt' (Nat.lt_succ_of_le made.room)
    refine ⟨descriptor, enter, exit, error, p₁, parsed, emits, shape.code, deep, _,
      depths_of_woven shape sound last depths enters exits errors deep, ?_⟩
    intro k inside
    exact depth_place exits.start exits.finish inside
  · intro descriptor enter exit error p₁ parsed emits deep
    exact (weave_of_emits sound parsed emits (labelRoom_of_ofCode read _)).1 deep

def returnsZero : CodeAttribute := ⟨1, 1, [0x03, 0xAC], [], []⟩

def pushing : Chain :=
  ⟨[⟨"p", fun _ => .ofOperations [.pushNull, .discard]⟩], by simp⟩

def pushEffect (i : Instruction Label) (change : Int) : Prop :=
  change = if i.opcode = Opcode.pop then -1 else 1

theorem pushing_neutral (pool : Pool) : pushing.Neutral pushEffect pool := by
  intro p member site before hook after run _
  have emitted : p.emit site before =
      .ok ⟨[.plain Opcode.aconstNull, .plain Opcode.pop], 1⟩ before := by
    obtain rfl := List.mem_singleton.mp member
    cbv
  rw [emitted] at run
  cases run
  refine ⟨fun n => if n = 1 then 1 else 0, rfl, rfl, ?_, ?_, ?_⟩
  · intro n i here
    rcases n with _ | _ | n
    · cases here
      rfl
    · cases here
      rfl
    · cases here
  · intro n _
    change (if n = 1 then 1 else 0) ≤ 1
    split <;> omega
  · intro i inside
    simp at inside
    rcases inside with rfl | rfl <;> rfl

theorem returnsZero_depths : ∃ b woven p' d enter exit error,
    Body.ofCode returnsZero Pool.empty = .ok b ∧
    (∃ i, b.instructions.getLast? = some i ∧ i.isTerminal = true) ∧ b.Depths pushEffect d ∧
    b.weave pushing false ⟨"A", "m", "()I"⟩ Pool.empty = .ok woven p' ∧
    pushing.Neutral pushEffect p' ∧
    woven.body.instructions = (interleaving b enter exit error).instructions ∧
    ∃ d', woven.body.Depths pushEffect d' ∧ ∀ k < b.instructions.length,
      d' ((interleaving b enter exit error).place k) = d k := by
  have accepted : (Body.ofCode returnsZero Pool.empty).toOption.any (fun b =>
      b.instructions = [.plain 0x03, .plain 0xAC] ∧ b.handlers = [] ∧ b.maxStack = 1) = true := by
    decide +kernel
  have weaves : (Body.ofCode returnsZero Pool.empty).toOption.any (fun b =>
      succeeds (b.weave pushing false ⟨"A", "m", "()I"⟩) Pool.empty) = true := by decide +kernel
  obtain ⟨b, read⟩ := ok_of_isSome (Option.isSome_of_any accepted)
  rw [read] at accepted weaves
  obtain ⟨code, handlers, deep⟩ := of_decide_eq_true accepted
  obtain ⟨woven, p', run⟩ : ∃ woven p', b.weave pushing false ⟨"A", "m", "()I"⟩ Pool.empty =
      .ok woven p' := ok_of_succeeds weaves
  have last : ∃ i, b.instructions.getLast? = some i ∧ i.isTerminal = true := by
    rw [code]
    exact ⟨_, rfl, rfl⟩
  have depths : b.Depths pushEffect id := by
    refine ⟨fun _ => rfl, ?_, ?_, ?_⟩
    · intro n m i here passes
      have none : i.targets = [] := by
        rw [code] at here
        rcases n with _ | _ | n <;> cases here <;> rfl
      cases passes with
      | next _ _ more =>
        rw [code] at here more
        obtain rfl : n = 0 := by simp at more; omega
        cases here
        rfl
      | jump here' target _ _ =>
        rw [here] at here'
        cases here'
        rw [none] at target
        cases target
    · intro r member
      rw [handlers] at member
      cases member
    · intro n inside
      rw [code] at inside
      rw [deep]
      exact Nat.le_of_lt_succ inside
  obtain ⟨_, enter, exit, error, _, _, _, whole, _, d', deeper, same⟩ :=
    (weave_depths read last depths pushing false ⟨"A", "m", "()I"⟩ Pool.empty).1 woven p' run
      (pushing_neutral p')
  exact ⟨b, woven, p', id, enter, exit, error, read, last, depths, run, pushing_neutral p', whole,
    d', deeper, same⟩

def falling : CodeAttribute := ⟨0, 1, [0x00], [], []⟩

def fallingItems : List Item :=
  [.mark ⟨0⟩, .op (.plain 0x00), .mark ⟨1⟩, .mark ⟨2⟩, .op (.plain Opcode.athrow)]

/-- Control that runs off the end of a method comes to the error hook of the woven one without an
exception on the stack. -/
theorem falling_without_depths : ∃ b woven p', Body.ofCode falling Pool.empty = .ok b ∧
    b.Depths (fun _ change => change = 0) (fun _ => 0) ∧
    b.weave Chain.empty false ⟨"A", "m", "()V"⟩ Pool.empty = .ok woven p' ∧
    Chain.empty.Neutral (fun _ change => change = 0) p' ∧
    ∀ d, ¬ woven.body.Depths (fun _ change => change = 0) d := by
  have accepted : (Body.ofCode falling Pool.empty).toOption.any (fun b =>
      b.instructions = [.plain 0x00] ∧ b.handlers = []) = true := by decide +kernel
  have weaves : (Body.ofCode falling Pool.empty).toOption.any (fun b =>
      succeeds (b.weave Chain.empty false ⟨"A", "m", "()V"⟩) Pool.empty) = true := by decide +kernel
  have made : (Body.ofCode falling Pool.empty).toOption.all (fun b =>
      match b.weave Chain.empty false ⟨"A", "m", "()V"⟩ Pool.empty with
      | .ok woven _ => woven.body.items = fallingItems ∧
          woven.body.handlers = [⟨⟨0⟩, ⟨1⟩, ⟨2⟩, none⟩]
      | .error _ _ => true) = true := by decide +kernel
  obtain ⟨b, read⟩ := ok_of_isSome (Option.isSome_of_any accepted)
  rw [read] at accepted weaves made
  obtain ⟨code, handlers⟩ := of_decide_eq_true accepted
  obtain ⟨woven, p', run⟩ : ∃ woven p', b.weave Chain.empty false ⟨"A", "m", "()V"⟩ Pool.empty =
      .ok woven p' := ok_of_succeeds weaves
  change (match b.weave Chain.empty false ⟨"A", "m", "()V"⟩ Pool.empty with
      | .ok woven _ => decide (woven.body.items = fallingItems ∧
          woven.body.handlers = [⟨⟨0⟩, ⟨1⟩, ⟨2⟩, none⟩])
      | .error _ _ => true) = true at made
  rw [run] at made
  obtain ⟨items, regions⟩ := of_decide_eq_true made
  refine ⟨b, woven, p', read, ?_, run, nofun, ?_⟩
  · refine ⟨fun _ => rfl, fun _ _ _ _ _ => rfl, ?_, fun _ _ => Nat.zero_le _⟩
    intro r member
    rw [handlers] at member
    cases member
  · intro d depths
    have whole : woven.body.instructions = [.plain 0x00, .plain Opcode.athrow] := by
      unfold Body.instructions
      rw [items]
      rfl
    have first : d 0 = 0 := depths.first (by rw [whole]; decide)
    have caught : d 1 = 1 := by
      refine depths.handlers ⟨⟨0⟩, ⟨1⟩, ⟨2⟩, none⟩ (by simp [regions]) 1 (by simp [whole]) ?_
      rw [items]
      exact .pastMark (.pastOp (.pastMark .here))
    have passes : woven.body.Passes 0 1 :=
      .next (i := .plain 0x00) (by rw [whole]; rfl) rfl (by rw [whole]; decide)
    have fell := depths.passes 0 1 _ (by rw [whole]; rfl) passes
    rw [first, caught] at fell
    cases fell

end Weaving
end ClassHooks
