import ClassHooks.Proofs.Weaving.Shape

/-!
Control in a woven body, step by step: where an exception goes from each part of the code, and
that the instructions of the method pass control on as they did.
-/
namespace ClassHooks

namespace Interleaving

structure Straight (w : Interleaving) : Prop where
  enter : ∀ i ∈ w.enter, i.Straight
  exit : ∀ i ∈ w.exit, i.Straight
  error : ∀ i ∈ w.error, i.Straight

/-- The hooks name no place in the code. Encoding accepts no others, since the operand of an
instruction that goes straight on has no target. -/
structure NamesNothing (w : Interleaving) : Prop where
  enter : ∀ i ∈ w.enter, i.targets = []
  exit : ∀ i ∈ w.exit, i.targets = []
  error : ∀ i ∈ w.error, i.targets = []

inductive InHook (w : Interleaving) : Nat → Prop where
  | enter {p : Nat} (early : p < w.enter.length) : InHook w p
  | exit {p k : Nat} (inside : k < w.original.length) (after : w.begin k ≤ p)
      (before : p < w.place k) : InHook w p
  | error {p : Nat} (after : w.finish ≤ p) (before : p < w.rethrow) : InHook w p

variable {w : Interleaving}

theorem hook_instruction {p : Nat} (hook : w.InHook p) :
    ∃ i, w.instructions[p]? = some i ∧ (i ∈ w.enter ∨ i ∈ w.exit ∨ i ∈ w.error) ∧
      p + 1 < w.instructions.length := by
  have length := w.instructions_length
  have order := w.finish_le_rethrow
  cases hook with
  | enter early =>
    refine ⟨w.enter[p], ?_, .inl (List.getElem_mem early), ?_⟩
    · rw [w.instructions_enter early, List.getElem?_eq_getElem early]
    · have := w.enter_le_begin w.original.length
      change w.enter.length ≤ w.finish at this
      omega
  | @exit k inside after before =>
    have here := w.instructions_lead inside after before
    have room : p - w.begin k < w.exit.length := by
      have hooked := w.place_of_hooked (w.mem_hooked_iff.mpr ⟨inside, by omega⟩)
      omega
    refine ⟨w.exit[p - w.begin k], ?_, .inr (.inl (List.getElem_mem room)), ?_⟩
    · rw [here, List.getElem?_eq_getElem room]
    · have := w.place_lt_finish inside
      omega
  | error after before =>
    have room : p - w.finish < w.error.length := by
      unfold rethrow at before
      omega
    refine ⟨w.error[p - w.finish], ?_, .inr (.inr (List.getElem_mem room)), by omega⟩
    rw [w.instructions_error after before, List.getElem?_eq_getElem room]

end Interleaving

namespace Weaving
open Item

def ToError (catches : UInt16 → τ → Prop) (w : Interleaving) (woven : Body) (n : Nat) (t : τ) :
    Prop := ∃ l, woven.Handles catches n t (some l) ∧ Marks woven.items l w.finish

section Control
variable {b woven : Body} {w : Interleaving} {catches : UInt16 → τ → Prop}

/-- At an instruction of the method the pieces stand in for the regions. -/
theorem standIn_place {k : Nat} (inside : k < w.original.length) (t : τ) {r : Region}
    {pieces : List Region} (replaces : Replaces b w woven.items r pieces) :
    Region.StandIn (fun r => r.Covers b.items k ∧ r.Catches catches t)
      (fun q => q.Covers woven.items (w.place k) ∧ q.Catches catches t) r pieces := by
  have covers := replaces.covers (w.place k)
  refine ⟨fun q member => (replaces.kept q member).1, ?_⟩
  constructor
  · rintro ⟨q, member, covered, caught⟩
    obtain ⟨m, inside', before, same⟩ := covers.mp ⟨q, member, covered⟩
    rw [w.place_injective inside inside' same]
    refine ⟨before, fun c type => caught c ?_⟩
    rw [(replaces.kept q member).2, type]
  · rintro ⟨before, caught⟩
    obtain ⟨q, member, covered⟩ := covers.mpr ⟨k, inside, before, rfl⟩
    refine ⟨q, member, covered, fun c type => caught c ?_⟩
    rw [← (replaces.kept q member).2, type]

theorem standIn_hook {n : Nat} (other : ∀ k < w.original.length, n ≠ w.place k) (t : τ)
    {r : Region} {pieces : List Region} (replaces : Replaces b w woven.items r pieces) :
    Region.StandIn (fun _ => False)
      (fun q => q.Covers woven.items n ∧ q.Catches catches t) r pieces := by
  refine ⟨fun q member => (replaces.kept q member).1, ?_⟩
  rw [iff_false]
  rintro ⟨q, member, covered, _⟩
  obtain ⟨k, inside, _, same⟩ := (replaces.covers n).mp ⟨q, member, covered⟩
  exact other k inside same

theorem not_leaves_of_toError {n : Nat} {t : τ} (goes : ToError catches w woven n t) :
    ¬ woven.Leaves catches ⟨n, some t⟩ := by
  obtain ⟨l, handled, _⟩ := goes
  intro leaves
  cases leaves with
  | thrown _ escapes => cases Region.selects_unique handled escapes

variable (shape : Woven b w woven)
include shape

theorem woven_length : woven.instructions.length = w.rethrow + 1 := by
  rw [shape.code, w.instructions_length]

theorem covers_of_guardsAll {last : Region} (all : GuardsAll w woven.items last) {n : Nat} :
    last.Covers woven.items n ↔ w.enter.length ≤ n ∧ n < w.finish := by
  constructor
  · rintro ⟨s, f, start, finish, after, before⟩
    rw [marks_unique shape.once start all.start] at after
    rw [marks_unique shape.once finish all.finish] at before
    exact ⟨after, before⟩
  · rintro ⟨after, before⟩
    exact ⟨_, _, all.start, all.finish, after, before⟩

theorem handles_parts {n : Nat} {t : τ} {o : Option Label} {p : Region → Prop}
    (chosen : Region.Selects p b.handlers o)
    (same : ∀ r pieces, Replaces b w woven.items r pieces → Region.StandIn p
      (fun q => q.Covers woven.items n ∧ q.Catches catches t) r pieces) :
    (∀ l, o = some l → woven.Handles catches n t (some l)) ∧
      (o = none → w.enter.length ≤ n → n < w.finish → ToError catches w woven n t) ∧
      (o = none → n < w.enter.length ∨ w.finish ≤ n → woven.Handles catches n t none) := by
  -- The region of the error hook is the last one: it is chosen only if no piece is.
  obtain ⟨parts, last, listed, all, related⟩ := shape.handlers
  have pieces := Region.selects_flatten (related.imp same) chosen
  have covers := covers_of_guardsAll shape all (n := n)
  unfold ToError Body.Handles
  rw [listed]
  refine ⟨?_, ?_, ?_⟩
  · rintro l rfl
    exact Region.selects_append_iff.mpr (.inl ⟨l, rfl, pieces⟩)
  · rintro rfl after before
    refine ⟨last.handler, Region.selects_append_iff.mpr (.inr ⟨pieces, .first ?_⟩), all.handler⟩
    refine ⟨covers.mpr ⟨after, before⟩, fun c caught => ?_⟩
    rw [all.catchAll] at caught
    cases caught
  · rintro rfl outside
    refine Region.selects_append_iff.mpr (.inr ⟨pieces, .later ?_ .nothing⟩)
    rintro ⟨inside, _⟩
    have := covers.mp inside
    omega

/-- An exception of the method goes where it went, or to the error hook if it left the method. -/
theorem handles_place {k : Nat} (inside : k < w.original.length) {t : τ} {o : Option Label}
    (handled : b.Handles catches k t o) :
    (∀ l, o = some l → woven.Handles catches (w.place k) t (some l)) ∧
      (o = none → ToError catches w woven (w.place k) t) := by
  obtain ⟨caught, missed, _⟩ := handles_parts shape handled fun r pieces =>
    standIn_place inside t
  refine ⟨caught, fun none => missed none ?_ (w.place_lt_finish inside)⟩
  exact Nat.le_trans (w.enter_le_begin k) (w.begin_le_place k)

/-- An exception of a return hook goes to the error hook. -/
theorem handles_lead {n k : Nat} (inside : k < w.original.length) (after : w.begin k ≤ n)
    (before : n < w.place k) (t : τ) : ToError catches w woven n t := by
  have other : ∀ m < w.original.length, n ≠ w.place m := by
    rintro m inside' rfl
    obtain rfl := w.unit_unique inside inside' after (Nat.le_of_lt before) (w.begin_le_place m)
      (Nat.le_refl _)
    omega
  obtain ⟨_, missed, _⟩ := handles_parts shape (Region.selects_never b.handlers) fun r pieces =>
    standIn_hook other t
  refine missed rfl (Nat.le_trans (w.enter_le_begin k) after) ?_
  have := w.place_lt_finish inside
  omega

theorem handles_outside {n : Nat} (outside : n < w.enter.length ∨ w.finish ≤ n) (t : τ) :
    woven.Handles catches n t none := by
  have other : ∀ m < w.original.length, n ≠ w.place m := by
    rintro m inside rfl
    have := w.place_lt_finish inside
    have := w.enter_le_begin m
    have := w.begin_le_place m
    omega
  obtain ⟨_, _, leaves⟩ := handles_parts shape (Region.selects_never b.handlers) fun r pieces =>
    standIn_hook other t
  exact leaves rfl outside

theorem step_hook (straight : w.Straight) {n : Nat} (hook : w.InHook n) :
    woven.Step catches ⟨n, none⟩ (n + 1) := by
  obtain ⟨i, here, origin, more⟩ := w.hook_instruction hook
  rw [← shape.code] at here more
  refine .next here (Instruction.not_terminal_of_straight ?_) more
  rcases origin with enter | exit | error
  · exact straight.enter i enter
  · exact straight.exit i exit
  · exact straight.error i error

theorem step_of_toError {n : Nat} {t : τ} (inside : n < w.rethrow + 1)
    (goes : ToError catches w woven n t) : woven.Step catches ⟨n, some t⟩ w.finish := by
  have length := woven_length shape
  have order := w.finish_le_rethrow
  obtain ⟨l, handled, marks⟩ := goes
  exact .caught (by omega) handled marks (by omega)

theorem instruction_place {k : Nat} {i : Instruction Label} (here : b.instructions[k]? = some i) :
    k < w.original.length ∧ woven.instructions[w.place k]? = some i := by
  rw [← shape.original] at here
  obtain ⟨inside, same⟩ := List.getElem?_eq_some_iff.mp here
  exact ⟨inside, by rw [shape.code, w.instructions_place inside, same]⟩

theorem step_place {k m : Nat} {thrown : Option τ} (step : b.Step catches ⟨k, thrown⟩ m) :
    woven.Step catches ⟨w.place k, thrown⟩ (w.begin m) := by
  have length := woven_length shape
  have order := w.finish_le_rethrow
  have count : b.instructions.length = w.original.length := by rw [shape.original]
  have below : ∀ m, m < b.instructions.length → w.begin m < woven.instructions.length := by
    intro m inside
    have := w.begin_lt_begin inside (by omega)
    have : w.begin b.instructions.length = w.finish := by rw [count]; rfl
    omega
  cases step with
  | next here goesOn more =>
    obtain ⟨inside, there⟩ := instruction_place shape here
    rw [w.begin_succ inside]
    refine .next there goesOn ?_
    rw [← w.begin_succ inside]
    exact below _ more
  | jump here target marks inside =>
    obtain ⟨_, there⟩ := instruction_place shape here
    exact .jump there target (shape.marks _ _ marks) (below _ inside)
  | caught here handled marks inside =>
    have inside' : k < w.original.length := by omega
    have before := w.place_lt_finish inside'
    refine .caught (by omega) ((handles_place shape inside' handled).1 _ rfl)
      (shape.marks _ _ marks) (below _ inside)

theorem leaves_place {k : Nat} (leaves : b.Leaves catches ⟨k, none⟩) :
    woven.Leaves catches ⟨w.place k, none⟩ := by
  cases leaves with
  | returned here ends => exact .returned (instruction_place shape here).2 ends

theorem step_escapes {k : Nat} {t : τ} (leaves : b.Leaves catches ⟨k, some t⟩) :
    woven.Step catches ⟨w.place k, some t⟩ w.finish := by
  cases leaves with
  | thrown here escapes =>
    have inside : k < w.original.length := by
      rw [shape.original]
      exact here
    have := w.place_lt_finish inside
    have := w.finish_le_rethrow
    exact step_of_toError shape (by omega) ((handles_place shape inside escapes).2 rfl)

theorem leaves_outside {n : Nat} (outside : n < w.enter.length ∨ w.finish ≤ n)
    (inside : n < w.rethrow + 1) (t : τ) : woven.Leaves catches ⟨n, some t⟩ := by
  have length := woven_length shape
  exact .thrown (by omega) (handles_outside shape outside t)

theorem step_toError_inv {n m : Nat} {t : τ} (goes : ToError catches w woven n t)
    (step : woven.Step catches ⟨n, some t⟩ m) : m = w.finish := by
  obtain ⟨l, handled, marks⟩ := goes
  cases step with
  | caught _ handled' marks' _ =>
    cases Region.selects_unique handled handled'
    exact marks_unique shape.once marks' marks

theorem not_step_outside {n m : Nat} (outside : n < w.enter.length ∨ w.finish ≤ n) (t : τ) :
    ¬ woven.Step catches ⟨n, some t⟩ m := by
  intro step
  cases step with
  | caught _ handled _ _ =>
    cases Region.selects_unique handled (handles_outside shape outside t)

/-- A hook that names no place goes on to its next instruction and nowhere else. -/
theorem step_hook_inv (names : w.NamesNothing) {n m : Nat} (hook : w.InHook n)
    (step : woven.Step catches ⟨n, none⟩ m) : m = n + 1 := by
  obtain ⟨i, here, origin, _⟩ := w.hook_instruction hook
  rw [← shape.code] at here
  cases step with
  | next _ _ _ => rfl
  | jump here' target _ _ =>
    rw [here] at here'
    cases here'
    have none : i.targets = [] := by
      rcases origin with enter | exit | error
      · exact names.enter i enter
      · exact names.exit i exit
      · exact names.error i error
    rw [none] at target
    cases target

theorem not_returned_hook (straight : w.Straight) {n : Nat} (hook : w.InHook n) :
    ¬ woven.Leaves catches ⟨n, none⟩ := by
  obtain ⟨i, here, origin, _⟩ := w.hook_instruction hook
  rw [← shape.code] at here
  intro leaves
  cases leaves with
  | returned here' ends =>
    rw [here] at here'
    cases here'
    have goesOn : i.isReturn = false := Instruction.not_return_of_straight (by
      rcases origin with enter | exit | error
      · exact straight.enter i enter
      · exact straight.exit i exit
      · exact straight.error i error)
    rw [goesOn] at ends
    cases ends

theorem not_step_rethrow {m : Nat} {thrown : Option τ} :
    ¬ woven.Step catches ⟨w.rethrow, thrown⟩ m := by
  have here : woven.instructions[w.rethrow]? = some (.plain Opcode.athrow) := by
    rw [shape.code, w.instructions_rethrow]
  intro step
  cases thrown with
  | some t => exact not_step_outside shape (.inr w.finish_le_rethrow) t step
  | none =>
    cases step with
    | next here' goesOn _ =>
      rw [here] at here'
      cases here'
      cases goesOn
    | jump here' target _ _ =>
      rw [here] at here'
      cases here'
      cases target

theorem leaves_rethrow_inv {thrown : Option τ}
    (leaves : woven.Leaves catches ⟨w.rethrow, thrown⟩) : ∃ t, thrown = some t := by
  have here : woven.instructions[w.rethrow]? = some (.plain Opcode.athrow) := by
    rw [shape.code, w.instructions_rethrow]
  cases leaves with
  | returned here' ends =>
    rw [here] at here'
    cases here'
    cases ends
  | thrown _ _ => exact ⟨_, rfl⟩

/-- An instruction of the method passes control on only as it did, or to the error hook. -/
theorem step_place_inv (sound : b.Sound)
    (ends : ∀ i, b.instructions.getLast? = some i → i.isTerminal = true) {k m : Nat}
    {thrown : Option τ} (inside : k < w.original.length)
    (step : woven.Step catches ⟨w.place k, thrown⟩ m) :
    (∃ m', m = w.begin m' ∧ m' < w.original.length ∧ b.Step catches ⟨k, thrown⟩ m') ∨
      (∃ t, thrown = some t ∧ m = w.finish ∧ b.Leaves catches ⟨k, some t⟩) := by
  have count : b.instructions.length = w.original.length := by rw [shape.original]
  have here : b.instructions[k]? = some b.instructions[k] := List.getElem?_eq_getElem (by omega)
  obtain ⟨_, there⟩ := instruction_place shape here
  cases thrown with
  | none =>
    refine .inl ?_
    cases step with
    | next there' goesOn more =>
      rw [there] at there'
      cases there'
      have behind : k + 1 < b.instructions.length := by
        by_contra last
        have final : b.instructions.getLast? = some b.instructions[k] := by
          rw [List.getLast?_eq_getElem?, ← here]
          congr
          omega
        rw [ends _ final] at goesOn
        cases goesOn
      exact ⟨k + 1, (w.begin_succ inside).symm, by omega, .next here goesOn behind⟩
    | jump there' target marks _ =>
      rw [there] at there'
      cases there'
      obtain ⟨m', below, marks'⟩ := sound.targets _ (List.getElem_mem _) _ target
      have same := marks_unique shape.once marks (shape.marks _ _ marks')
      exact ⟨m', same, by omega, .jump here target marks' below⟩
  | some t =>
    obtain ⟨o, handled⟩ := Region.selects_total
      (fun r => r.Covers b.items k ∧ r.Catches catches t) b.handlers
    obtain ⟨caught, missed⟩ := handles_place shape inside handled
    cases o with
    | none =>
      refine .inr ⟨t, rfl, ?_, .thrown (by omega) handled⟩
      exact step_toError_inv shape (missed rfl) step
    | some l =>
      obtain ⟨r, member, _, rfl⟩ := Region.mem_of_selects handled
      obtain ⟨_, _, h, _, _, _, marks, below⟩ := sound.regions r member
      refine .inl ⟨h, ?_, by omega, .caught (by omega) handled marks below⟩
      cases step with
      | caught _ handled' marks' _ =>
        cases Region.selects_unique (caught _ rfl) handled'
        exact marks_unique shape.once marks' (shape.marks _ _ marks)

theorem leaves_place_inv {k : Nat} {thrown : Option τ} (inside : k < w.original.length)
    (leaves : woven.Leaves catches ⟨w.place k, thrown⟩) :
    thrown = none ∧ b.Leaves catches ⟨k, none⟩ := by
  have count : b.instructions.length = w.original.length := by rw [shape.original]
  have here : b.instructions[k]? = some b.instructions[k] := List.getElem?_eq_getElem (by omega)
  obtain ⟨_, there⟩ := instruction_place shape here
  cases leaves with
  | returned there' ends =>
    rw [there] at there'
    cases there'
    exact ⟨rfl, .returned here ends⟩
  | @thrown _ t _ escapes =>
    obtain ⟨o, handled⟩ := Region.selects_total
      (fun r => r.Covers b.items k ∧ r.Catches catches t) b.handlers
    obtain ⟨caught, missed⟩ := handles_place shape inside handled
    cases o with
    | none =>
      obtain ⟨_, handled', _⟩ := missed rfl
      cases Region.selects_unique handled' escapes
    | some l => cases Region.selects_unique (caught l rfl) escapes

end Control

theorem straight_of_emits {b : Body} {chain : Chain} {method : MethodName}
    {returnType : Option FieldType} {returns : Nat} {p p' : Pool} {enter exit error : Hook}
    (emits : Emits chain method returnType returns p enter exit error p') :
    (interleaving b enter exit error).Straight := by
  cases emits with
  | mk enters exits errors =>
    refine ⟨chain_emit_straight enters, ?_, chain_emit_straight errors⟩
    split at exits
    · exact chain_emit_straight exits
    · obtain ⟨rfl, _⟩ := state_pure_ok_iff.mp exits
      intro i member
      cases member

theorem names_nothing_of_emits {b : Body} {chain : Chain} (names : chain.NamesNothing)
    {method : MethodName} {returnType : Option FieldType} {returns : Nat} {p p' : Pool}
    {enter exit error : Hook} (emits : Emits chain method returnType returns p enter exit error p') :
    (interleaving b enter exit error).NamesNothing := by
  cases emits with
  | mk enters exits errors =>
    refine ⟨chain_emit_names_nothing names enters, ?_, chain_emit_names_nothing names errors⟩
    split at exits
    · exact chain_emit_names_nothing names exits
    · obtain ⟨rfl, _⟩ := state_pure_ok_iff.mp exits
      intro i member
      cases member

end Weaving
end ClassHooks
