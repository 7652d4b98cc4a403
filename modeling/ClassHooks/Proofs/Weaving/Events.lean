import ClassHooks.Proofs.Weaving.Simulation

/-!
Every path through a woven body meets one event at its end: the return hook before the return by
which it ends, or the error hook if it ends by an exception.
-/
namespace ClassHooks

def Body.ReturnsCalmly (b : Body) (path : List (Move τ)) : Prop :=
  ∀ move ∈ path, ∀ i, b.instructions[move.place]? = some i → i.isReturn = true →
    move.thrown = none

def Interleaving.Completes (w : Interleaving) (k : Nat) (path : List (Move τ)) : Prop :=
  k ∈ w.hooked ∧ ⟨w.place k - 1, none⟩ ∈ path

namespace Weaving

/-- What has happened when control is at an instruction of the woven body: it is in the enter hook;
or it is `j` instructions behind the beginning of the code for an instruction of the method, and
has run through those; or it is in the error hook. -/
inductive Phase (w : Interleaving) : List (Move τ) → Nat → Prop where
  | enter {p : Nat} (early : p < w.enter.length) : Phase w (Move.line 0 p) p
  | main {k j : Nat} {body : List (Move τ)} (inside : k < w.original.length) (bound : j ≤ w.lead k)
      (within : ∀ move ∈ body, w.enter.length ≤ move.place ∧ move.place < w.finish)
      (fresh : ∀ m, ¬ w.Completes m body) :
      Phase w (Move.line 0 w.enter.length ++ (body ++ Move.line (w.begin k) j)) (w.begin k + j)
  | error {j : Nat} {body : List (Move τ)} (bound : j ≤ w.error.length)
      (within : ∀ move ∈ body, w.enter.length ≤ move.place ∧ move.place < w.finish)
      (fresh : ∀ m, ¬ w.Completes m body) :
      Phase w (Move.line 0 w.enter.length ++ (body ++ Move.line w.finish j)) (w.finish + j)

section Places
variable {w : Interleaving}

theorem last_of_hook {k m q : Nat} (hooked : m ∈ w.hooked) (inside : k < w.original.length)
    (after : w.begin k ≤ q) (before : q ≤ w.place k) (last : w.place m - 1 = q) : m = k := by
  obtain ⟨inside', hook⟩ := w.mem_hooked_iff.mp hooked
  exact w.unit_unique inside' inside (by omega) (by omega) after before

theorem within_line {k j : Nat} (inside : k < w.original.length) (bound : j ≤ w.lead k)
    {move : Move τ} (member : move ∈ Move.line (w.begin k) j) :
    w.enter.length ≤ move.place ∧ move.place < w.finish := by
  obtain ⟨_, after, before⟩ := Move.mem_line_iff.mp member
  have := w.enter_le_begin k
  have := w.place_lt_finish inside
  have : w.place k = w.begin k + w.lead k := rfl
  omega

theorem within_place {k : Nat} (inside : k < w.original.length) :
    w.enter.length ≤ w.place k ∧ w.place k < w.finish := by
  have := w.enter_le_begin k
  have := w.begin_le_place k
  exact ⟨by omega, w.place_lt_finish inside⟩

theorem not_completes_line {k j m : Nat} (inside : k < w.original.length) (hook : j < w.lead k)
    {t : τ} : ¬ w.Completes m (Move.line (w.begin k) j ++ [⟨w.begin k + j, some t⟩]) := by
  rintro ⟨hooked, member⟩
  rcases List.mem_append.mp member with early | last
  · obtain ⟨_, after, before⟩ := Move.mem_line_iff.mp early
    have here : w.place k = w.begin k + w.lead k := rfl
    obtain rfl := last_of_hook hooked inside after (by omega) rfl
    dsimp only at before
    omega
  · simp at last

theorem completes_append {m : Nat} {first second : List (Move τ)}
    (one : ¬ w.Completes m first) (two : ¬ w.Completes m second) :
    ¬ w.Completes m (first ++ second) := by
  rintro ⟨hooked, member⟩
  rcases List.mem_append.mp member with early | late
  · exact one ⟨hooked, early⟩
  · exact two ⟨hooked, late⟩

theorem phase_unit {k : Nat} {body : List (Move τ)} (inside : k < w.original.length)
    (within : ∀ move ∈ body, w.enter.length ≤ move.place ∧ move.place < w.finish)
    (fresh : ∀ m, ¬ w.Completes m body) :
    Phase w (Move.line 0 w.enter.length ++ body) (w.begin k) := by
  have main := Phase.main inside (Nat.zero_le _) within fresh
  rwa [Move.line_zero, List.append_nil] at main

theorem phase_finish {body : List (Move τ)}
    (within : ∀ move ∈ body, w.enter.length ≤ move.place ∧ move.place < w.finish)
    (fresh : ∀ m, ¬ w.Completes m body) :
    Phase w (Move.line 0 w.enter.length ++ body) w.finish := by
  have error := Phase.error (Nat.zero_le w.error.length) within fresh
  rwa [Move.line_zero, List.append_nil] at error

theorem entered_of_phase {path : List (Move τ)} {n : Nat} (phase : Phase w path n) :
    (n < w.enter.length ∧ path = Move.line 0 n) ∨
      ∃ rest, path = Move.line 0 w.enter.length ++ rest ∧
        ∀ move ∈ rest, w.enter.length ≤ move.place := by
  have order : w.enter.length ≤ w.finish := w.enter_le_begin _
  cases phase with
  | enter early => exact .inl ⟨early, rfl⟩
  | main inside bound within _ =>
    refine .inr ⟨_, rfl, fun move member => ?_⟩
    rcases List.mem_append.mp member with old | line
    · exact (within move old).1
    · exact (within_line inside bound line).1
  | error _ within _ =>
    refine .inr ⟨_, rfl, fun move member => ?_⟩
    rcases List.mem_append.mp member with old | line
    · exact (within move old).1
    · obtain ⟨_, after, _⟩ := Move.mem_line_iff.mp line
      omega

end Places

section Phases
variable {b woven : Body} {w : Interleaving} {catches : UInt16 → τ → Prop}
  (shape : Woven b w woven) (sound : b.Sound)
include shape sound

theorem phase_begin :
    Phase w (Move.line 0 w.enter.length : List (Move τ)) w.enter.length := by
  have inside : 0 < w.original.length := by
    rw [shape.original]
    exact sound.filled
  have main : Phase w (Move.line 0 w.enter.length ++ []) (w.begin 0) :=
    phase_unit inside (fun (move : Move τ) member => (List.not_mem_nil member).elim)
      (fun m completes => (List.not_mem_nil completes.2).elim)
  rwa [w.begin_zero, List.append_nil] at main

theorem phase_start : Phase w ([] : List (Move τ)) 0 := by
  by_cases hook : 0 < w.enter.length
  · exact .enter hook
  · have begin : Phase w (Move.line 0 w.enter.length : List (Move τ)) w.enter.length :=
      phase_begin shape sound
    rw [Nat.eq_zero_of_not_pos hook] at begin
    exact begin

theorem not_step_return {k m : Nat} (inside : k < w.original.length)
    (ends : w.original[k].isReturn = true) : ¬ woven.Step catches ⟨w.place k, none⟩ m := by
  have here : woven.instructions[w.place k]? = some w.original[k] := by
    rw [shape.code, w.instructions_place inside]
  intro step
  cases step with
  | next here' goesOn _ =>
    rw [here] at here'
    cases here'
    rw [Instruction.isTerminal, Opcode.isTerminal_of_isReturn _ ends] at goesOn
    cases goesOn
  | jump here' target _ _ =>
    rw [here] at here'
    cases here'
    have fits : w.original[k].Fits := by
      apply sound.fits
      rw [← shape.original]
      exact List.getElem_mem inside
    rw [Instruction.targets_of_return ends fits] at target
    cases target

section Steps
variable (names : w.NamesNothing)
  (ends : ∀ i, b.instructions.getLast? = some i → i.isTerminal = true)
include names

theorem phase_step_enter {p m : Nat} {thrown : Option τ} (early : p < w.enter.length)
    (step : woven.Step catches ⟨p, thrown⟩ m) : Phase w (Move.line 0 p ++ [⟨p, thrown⟩]) m := by
  cases thrown with
  | some t => exact absurd step (not_step_outside shape (.inl early) t)
  | none =>
    obtain rfl := step_hook_inv shape names (.enter early) step
    have path : (Move.line 0 (p + 1) : List (Move τ)) = Move.line 0 p ++ [⟨p, none⟩] := by
      rw [Move.line_snoc, Nat.zero_add]
    rw [← path]
    by_cases more : p + 1 < w.enter.length
    · exact .enter more
    · have done : p + 1 = w.enter.length := by omega
      rw [done]
      exact phase_begin shape sound

omit sound in
theorem phase_step_exit {k j m : Nat} {thrown : Option τ} {body : List (Move τ)}
    (inside : k < w.original.length) (hook : j < w.lead k)
    (within : ∀ move ∈ body, w.enter.length ≤ move.place ∧ move.place < w.finish)
    (fresh : ∀ m, ¬ w.Completes m body)
    (step : woven.Step catches ⟨w.begin k + j, thrown⟩ m) :
    Phase w (Move.line 0 w.enter.length ++ (body ++ Move.line (w.begin k) j) ++
      [⟨w.begin k + j, thrown⟩]) m := by
  have after : w.begin k ≤ w.begin k + j := Nat.le_add_right _ _
  have before : w.begin k + j < w.place k := Nat.add_lt_add_left hook _
  rw [List.append_assoc, List.append_assoc]
  cases thrown with
  | none =>
    obtain rfl := step_hook_inv shape names (.exit inside after before) step
    rw [← Move.line_snoc]
    exact .main inside hook within fresh
  | some t =>
    obtain rfl := step_toError_inv shape (handles_lead shape inside after before t) step
    have within' : ∀ move ∈ body ++ (Move.line (w.begin k) j ++ [⟨w.begin k + j, some t⟩]),
        w.enter.length ≤ move.place ∧ move.place < w.finish := by
      intro move member
      simp only [List.mem_append, List.mem_singleton] at member
      rcases member with old | line | rfl
      · exact within move old
      · exact within_line inside (Nat.le_of_lt hook) line
      · have := within_place inside
        have := w.enter_le_begin k
        exact ⟨by simp only; omega, by simp only; omega⟩
    exact phase_finish within' fun m =>
      completes_append (fresh m) (not_completes_line inside hook)

include ends

omit names in
theorem phase_step_place {k m : Nat} {thrown : Option τ} {body : List (Move τ)}
    (inside : k < w.original.length) (goesOn : w.original[k].isReturn = false)
    (within : ∀ move ∈ body, w.enter.length ≤ move.place ∧ move.place < w.finish)
    (fresh : ∀ m, ¬ w.Completes m body)
    (step : woven.Step catches ⟨w.place k, thrown⟩ m) :
    Phase w (Move.line 0 w.enter.length ++ (body ++ [⟨w.place k, thrown⟩])) m := by
  have within' : ∀ move ∈ body ++ [⟨w.place k, thrown⟩],
      w.enter.length ≤ move.place ∧ move.place < w.finish := by
    intro move member
    rcases List.mem_append.mp member with old | here
    · exact within move old
    · rw [List.mem_singleton.mp here]
      exact within_place inside
  have fresh' : ∀ m, ¬ w.Completes m (body ++ [⟨w.place k, thrown⟩]) := by
    intro m
    refine completes_append (fresh m) ?_
    rintro ⟨hooked, member⟩
    have last : w.place m - 1 = w.place k := by
      rw [List.mem_singleton, Move.mk.injEq] at member
      exact member.1
    have own := (w.mem_hooked_iff.mp hooked).2
    obtain rfl := last_of_hook hooked inside (w.begin_le_place k) (Nat.le_refl _) last
    omega
  rcases step_place_inv shape sound ends inside step with ⟨m', rfl, inside', _⟩ | ⟨_, _, rfl, _⟩
  · exact phase_unit inside' within' fresh'
  · exact phase_finish within' fresh'

theorem phase_step {path : List (Move τ)} {p m : Nat} {thrown : Option τ}
    (phase : Phase w path p) (step : woven.Step catches ⟨p, thrown⟩ m)
    (calm : ∀ i, woven.instructions[p]? = some i → i.isReturn = true → thrown = none) :
    Phase w (path ++ [⟨p, thrown⟩]) m := by
  cases phase with
  | enter early => exact phase_step_enter shape sound names early step
  | @main k j body inside bound within fresh =>
    rcases Nat.lt_or_eq_of_le bound with hook | rfl
    · exact phase_step_exit shape names inside hook within fresh step
    change woven.Step catches ⟨w.place k, thrown⟩ m at step
    change ∀ i, woven.instructions[w.place k]? = some i → _ at calm
    change Phase w (_ ++ [⟨w.place k, thrown⟩]) m
    have here : woven.instructions[w.place k]? = some w.original[k] := by
      rw [shape.code, w.instructions_place inside]
    cases kind : w.original[k].isReturn with
    | true =>
      obtain rfl := calm _ here kind
      exact absurd step (not_step_return shape sound inside kind)
    | false =>
      have lead : w.lead k = 0 := by
        simp [Interleaving.lead, List.getElem?_eq_getElem inside, kind]
      have plain := phase_step_place shape sound ends inside kind within fresh step
      rwa [lead, Move.line_zero, List.append_nil, List.append_assoc]
  | @error j body bound within fresh =>
    have after : w.finish ≤ w.finish + j := Nat.le_add_right _ _
    rcases Nat.lt_or_eq_of_le bound with hook | rfl
    · have before : w.finish + j < w.rethrow := Nat.add_lt_add_left hook _
      cases thrown with
      | some t => exact absurd step (not_step_outside shape (.inr after) t)
      | none =>
        obtain rfl := step_hook_inv shape names (.error after before) step
        rw [List.append_assoc, List.append_assoc, ← Move.line_snoc]
        exact .error hook within fresh
    · exact absurd step (not_step_rethrow shape)

/-- Wherever a path has come to, it has gone through the phases. -/
theorem phase_of_walk {first path : List (Move τ)} {p m : Nat} (phase : Phase w first p)
    (walk : woven.Walk catches p path m) (calm : woven.ReturnsCalmly path) :
    Phase w (first ++ path) m := by
  induction walk generalizing first with
  | stay n => rwa [List.append_nil]
  | @move n m k thrown path step _ ih =>
    have here := phase_step shape sound names ends phase step (calm _ (List.mem_cons_self ..))
    have whole := ih here fun move member => calm move (List.mem_cons_of_mem _ member)
    rwa [List.append_assoc] at whole

end Steps

section Entry
variable (names : w.NamesNothing)
  (ends : ∀ i, b.instructions.getLast? = some i → i.isTerminal = true)
include names ends

theorem step_enter_inv {n m : Nat} {thrown : Option τ} (step : woven.Step catches ⟨n, thrown⟩ m)
    (early : m < w.enter.length) : thrown = none ∧ m = n + 1 := by
  have order : w.enter.length ≤ w.finish := w.enter_le_begin _
  have inside : n < w.instructions.length := by
    rw [← shape.code]
    cases step with
    | next here _ _ | jump here _ _ _ => exact (List.getElem?_eq_some_iff.mp here).1
    | caught here _ _ _ => exact here
  have hook : ∀ outside : n < w.enter.length ∨ w.finish ≤ n, w.InHook n →
      thrown = none ∧ m = n + 1 := by
    intro outside hook
    cases thrown with
    | some t => exact absurd step (not_step_outside shape outside t)
    | none => exact ⟨rfl, step_hook_inv shape names hook step⟩
  cases w.spot_of_lt inside with
  | enter early => exact hook (.inl early) (.enter early)
  | error after before => exact hook (.inr after) (.error after before)
  | rethrow => exact absurd step (not_step_rethrow shape)
  | @lead _ k inside after before =>
    have := w.enter_le_begin k
    cases thrown with
    | none =>
      have := step_hook_inv shape names (.exit inside after before) step
      omega
    | some t =>
      have := step_toError_inv shape (handles_lead shape inside after before t) step
      omega
  | @original k bound =>
    rcases step_place_inv shape sound ends bound step with ⟨m, rfl, _, _⟩ | ⟨_, _, rfl, _⟩
    · have := w.enter_le_begin m
      omega
    · omega

end Entry
end Phases

/-- What can happen before control leaves the woven body: a path that ends by a return has run one
return hook to its end, the one before that return, and has not been in the error hook; a path that
ends by an exception has been in the error hook once and has run no return hook to its end, unless
the enter hook threw. -/
structure OneEvent (catches : UInt16 → τ → Prop) (w : Interleaving) (woven : Body) : Prop where
  code : woven.instructions = w.instructions
  /-- The enter hook comes first, and control does not come back to it. -/
  entered : ∀ path n, woven.Walk catches 0 path n → woven.ReturnsCalmly path →
    (n < w.enter.length ∧ path = Move.line 0 n) ∨
      ∃ rest, path = Move.line 0 w.enter.length ++ rest ∧
        ∀ move ∈ rest, w.enter.length ≤ move.place
  reentered : ∀ n thrown m, woven.Step catches ⟨n, thrown⟩ m → m < w.enter.length →
    thrown = none ∧ m = n + 1
  returned : ∀ path, woven.Run catches 0 path none → woven.ReturnsCalmly path →
    ∃ before k i, w.original[k]? = some i ∧ i.isReturn = true ∧ w.lead k = w.exit.length ∧
      path = Move.line 0 w.enter.length ++ (before ++ w.moves ⟨k, none⟩) ∧
      (∀ move ∈ before, w.enter.length ≤ move.place ∧ move.place < w.finish) ∧
      ∀ m, ¬ w.Completes m before
  thrown : ∀ path t, woven.Run catches 0 path (some t) → woven.ReturnsCalmly path →
    (∃ n < w.enter.length, path = Move.line 0 n ++ [⟨n, some t⟩]) ∨
      ∃ before j, j ≤ w.error.length ∧ path = Move.line 0 w.enter.length ++
        (before ++ (Move.line w.finish j ++ [⟨w.finish + j, some t⟩])) ∧
      (∀ move ∈ before, w.enter.length ≤ move.place ∧ move.place < w.finish) ∧
      ∀ m, ¬ w.Completes m before
  /-- What a return hook throws goes to the error hook and nowhere else. -/
  exitThrows : ∀ k n t, k < w.original.length → w.begin k ≤ n → n < w.place k →
    (∀ m, woven.Step catches ⟨n, some t⟩ m ↔ m = w.finish) ∧
      ¬ woven.Leaves catches ⟨n, some t⟩
  /-- What the enter hook or the error hook throws leaves the method. -/
  othersThrow : ∀ n t, n < w.enter.length ∨ (w.finish ≤ n ∧ n ≤ w.rethrow) →
    woven.Leaves catches ⟨n, some t⟩ ∧ ∀ m, ¬ woven.Step catches ⟨n, some t⟩ m

section Whole
variable {b woven : Body} {w : Interleaving} {catches : UInt16 → τ → Prop}
  (shape : Woven b w woven)
include shape

theorem returned_of_phase (straight : w.Straight) {path : List (Move τ)} {n : Nat}
    (phase : Phase w path n) (leaves : woven.Leaves catches ⟨n, none⟩) :
    ∃ before k i, w.original[k]? = some i ∧ i.isReturn = true ∧ w.lead k = w.exit.length ∧
      path ++ [⟨n, none⟩] = Move.line 0 w.enter.length ++ (before ++ w.moves ⟨k, none⟩) ∧
      (∀ move ∈ before, w.enter.length ≤ move.place ∧ move.place < w.finish) ∧
      ∀ m, ¬ w.Completes m before := by
  cases phase with
  | enter early => exact absurd leaves (not_returned_hook shape straight (.enter early))
  | @main k j body inside bound within fresh =>
    rcases Nat.lt_or_eq_of_le bound with hook | rfl
    · exact absurd leaves (not_returned_hook shape straight
        (.exit inside (Nat.le_add_right _ _) (Nat.add_lt_add_left hook _)))
    obtain ⟨_, left⟩ := leaves_place_inv shape inside leaves
    cases left with
    | returned here ends =>
      rw [← shape.original] at here
      refine ⟨body, k, _, here, ends, ?_, ?_, within, fresh⟩
      · rw [Interleaving.lead, here, Option.any_some, if_pos ends]
      · rw [Interleaving.moves, List.append_assoc, List.append_assoc]
        rfl
  | @error j body bound within fresh =>
    rcases Nat.lt_or_eq_of_le bound with hook | rfl
    · exact absurd leaves (not_returned_hook shape straight
        (.error (Nat.le_add_right _ _) (Nat.add_lt_add_left hook _)))
    · obtain ⟨t, absurd⟩ := leaves_rethrow_inv shape leaves
      cases absurd

/-- What leaves the method by an exception comes from the enter hook, or through the error hook. -/
theorem thrown_of_phase {path : List (Move τ)} {n : Nat} {t : τ}
    (phase : Phase w path n) (leaves : woven.Leaves catches ⟨n, some t⟩) :
    (∃ m < w.enter.length, path ++ [⟨n, some t⟩] = Move.line 0 m ++ [⟨m, some t⟩]) ∨
      ∃ before j, j ≤ w.error.length ∧ path ++ [⟨n, some t⟩] = Move.line 0 w.enter.length ++
        (before ++ (Move.line w.finish j ++ [⟨w.finish + j, some t⟩])) ∧
      (∀ move ∈ before, w.enter.length ≤ move.place ∧ move.place < w.finish) ∧
      ∀ m, ¬ w.Completes m before := by
  cases phase with
  | enter early => exact .inl ⟨n, early, rfl⟩
  | @main k j body inside bound within fresh =>
    rcases Nat.lt_or_eq_of_le bound with hook | rfl
    · exact absurd leaves (not_leaves_of_toError (handles_lead shape inside
        (Nat.le_add_right _ _) (Nat.add_lt_add_left hook _) t))
    · obtain ⟨absurd, _⟩ := leaves_place_inv shape inside leaves
      cases absurd
  | @error j body bound within fresh =>
    refine .inr ⟨body, j, bound, ?_, within, fresh⟩
    rw [List.append_assoc, List.append_assoc]

end Whole

theorem oneEvent_of_woven {b woven : Body} {w : Interleaving} (shape : Woven b w woven)
    (straight : w.Straight) (names : w.NamesNothing) (sound : b.Sound)
    (ends : ∀ i, b.instructions.getLast? = some i → i.isTerminal = true)
    (catches : UInt16 → τ → Prop) : OneEvent catches w woven := by
  have phases : ∀ path n, woven.Walk catches 0 path n → woven.ReturnsCalmly path →
      Phase w path n := by
    intro path n walk calm
    exact phase_of_walk shape sound names ends (phase_start shape sound) walk calm
  have runs : ∀ path outcome, woven.Run catches 0 path outcome → woven.ReturnsCalmly path →
      ∃ trace n, path = trace ++ [⟨n, outcome⟩] ∧ Phase w trace n ∧
        woven.Leaves catches ⟨n, outcome⟩ := by
    intro path outcome run calm
    obtain ⟨trace, n, rfl, walk, leaves⟩ := Body.walk_of_run run
    exact ⟨trace, n, rfl, phases trace n walk fun move member =>
      calm move (List.mem_append_left _ member), leaves⟩
  constructor
  case code => exact shape.code
  case entered =>
    intro path n walk calm
    exact entered_of_phase (phases path n walk calm)
  case reentered =>
    intro n thrown m
    exact step_enter_inv shape sound names ends
  case returned =>
    intro path run calm
    obtain ⟨trace, n, rfl, phase, leaves⟩ := runs path none run calm
    exact returned_of_phase shape straight phase leaves
  case thrown =>
    intro path t run calm
    obtain ⟨trace, n, rfl, phase, leaves⟩ := runs path (some t) run calm
    exact thrown_of_phase shape phase leaves
  case exitThrows =>
    intro k n t inside after before
    have goes : ToError catches w woven n t := handles_lead shape inside after before t
    have := w.place_lt_finish inside
    have := w.finish_le_rethrow
    refine ⟨fun m => ⟨step_toError_inv shape goes, ?_⟩, not_leaves_of_toError goes⟩
    rintro rfl
    exact step_of_toError shape (by omega) goes
  case othersThrow =>
    intro n t outside
    have order : w.enter.length ≤ w.finish := w.enter_le_begin _
    have := w.finish_le_rethrow
    have place : n < w.enter.length ∨ w.finish ≤ n := outside.imp_right And.left
    exact ⟨leaves_outside shape place (by omega) t, fun m => not_step_outside shape place t⟩

/-- A woven body meets one event at its end. -/
theorem weave_one_event {c : CodeAttribute} {pool : Pool} {b : Body}
    (made : Body.ofCode c pool = .ok b)
    (ends : ∀ i, b.instructions.getLast? = some i → i.isTerminal = true)
    {chain : Chain} {requireFrames : Bool} {method : MethodName} {p p' : Pool}
    {woven : WovenMethod} (run : b.weave chain requireFrames method p = .ok woven p')
    (catches : UInt16 → τ → Prop) :
    ∃ descriptor enter exit error p₁, MethodDescriptor.parse method.descriptor = .ok descriptor ∧
      Emits chain method descriptor.returnType b.returnCount p enter exit error p₁ ∧
      ((interleaving b enter exit error).NamesNothing →
        OneEvent catches (interleaving b enter exit error) woven.body) := by
  have sound := Body.sound_of_ofCode made
  obtain ⟨enter, exit, error, whole⟩ := made_of_weave run
  obtain ⟨descriptor, p₁, _, parsed, emits, _⟩ := whole.emits
  exact ⟨descriptor, enter, exit, error, p₁, parsed, emits, fun names =>
    oneEvent_of_woven (woven_of_made sound whole) (straight_of_emits emits) names sound ends
      catches⟩

theorem twoReturns_one_event : ∃ b woven p', Body.ofCode twoReturns Pool.empty = .ok b ∧
    b.weave reporting false ⟨"A", "m", "()V"⟩ Pool.empty = .ok woven p' ∧
    ∃ enter exit error, (interleaving b enter exit error).NamesNothing ∧
      OneEvent (fun c (t : UInt16) => c = t) (interleaving b enter exit error) woven.body := by
  obtain ⟨b, woven, p', made, ends, run⟩ := twoReturns_weaves
  obtain ⟨_, enter, exit, error, _, _, emits, event⟩ :=
    weave_one_event made ends run fun c (t : UInt16) => c = t
  have names : (interleaving b enter exit error).NamesNothing :=
    names_nothing_of_emits (callbacks_name_nothing (by simp [reporting])) emits
  exact ⟨b, woven, p', made, run, enter, exit, error, names, event names⟩

/-- A hook that names a place can be left before its end. -/
theorem skipping_not_one_event : ∃ b woven p', Body.ofCode soleReturn Pool.empty = .ok b ∧
    (∀ i, b.instructions.getLast? = some i → i.isTerminal = true) ∧
    b.weave skipping false ⟨"A", "m", "()V"⟩ Pool.empty = .ok woven p' ∧
    ∀ enter exit error, ¬ OneEvent (fun _ (_ : Unit) => True) (interleaving b enter exit error)
      woven.body := by
  obtain ⟨b, woven, p', read, code, run, items⟩ := skipping_weaves
  refine ⟨b, woven, p', read, ?_, run, fun enter exit error event => ?_⟩
  · intro i last
    rw [code] at last
    cases last
    rfl
  · have calm : woven.body.ReturnsCalmly ([⟨0, none⟩, ⟨2, none⟩] : List (Move Unit)) := by
      intro move member _ _ _
      simp only [List.mem_cons, List.not_mem_nil, or_false] at member
      rcases member with rfl | rfl <;> rfl
    obtain ⟨before, k, i, here, ends, whole, same, _⟩ :=
      event.returned _ (skipped_run items _) calm
    have first : k = 0 := by
      have inside := (List.getElem?_eq_some_iff.mp here).1
      change k < b.instructions.length at inside
      rw [code] at inside
      exact Nat.lt_one_iff.mp inside
    rw [first] at same
    exact not_skipped _ _ same.symm

end Weaving
end ClassHooks
