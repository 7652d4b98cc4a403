import ClassHooks.Proofs.Hook.Emission
import ClassHooks.Proofs.Pool.Codec

/-!
Which constants policies add. A policy may ask for any constant; if none of its runs has the unusable
one added, then the pool stays one that can be written and read back.
-/
namespace ClassHooks

def Operation.outcome (operation : Operation) (s : Emission) :
    Except Error (Option UInt16) × Emission :=
  match operation.perform s with
  | .ok answer s' => (.ok answer, s')
  | .error e s' => (.error e, s')

namespace Script

def tells : Except Error (Option UInt16) → Bool
  | .ok _ => true
  | .error e => e.isReported

/-- The operations that the script comes to when it runs, with their answers. -/
def steps : Script → Emission → List (Operation × Except Error (Option UInt16))
  | .done, _ => []
  | .fail _, _ => []
  | .perform operation next, s =>
    (operation, (operation.outcome s).1) ::
      if tells (operation.outcome s).1 then
        (next (operation.outcome s).1).steps (operation.outcome s).2
      else []

theorem run_perform_ok {operation : Operation} {next : Except Error (Option UInt16) → Script}
    {s s' : Emission} (run : (perform operation next).run s = .ok () s') :
    tells (operation.outcome s).1 = true ∧
      (next (operation.outcome s).1).run (operation.outcome s).2 = .ok () s' := by
  unfold Operation.outcome
  unfold Script.run at run
  cases performed : operation.perform s with
  | ok answer t =>
    rw [performed] at run
    exact ⟨rfl, run⟩
  | error e t =>
    rw [performed] at run
    dsimp only at run
    split at run
    · rename_i told
      exact ⟨told, run⟩
    · cases run

theorem steps_of_performs {Q : Operation → Prop} {script : Script} (performs : script.Performs Q)
    {s : Emission} : ∀ step ∈ script.steps s, Q step.1 := by
  induction script generalizing s with
  | done | fail => exact nofun
  | perform operation next ih =>
    rw [steps, List.forall_mem_cons]
    refine ⟨performs.1, ?_⟩
    split
    · exact ih _ (performs.2 _)
    · nofun

/-- A run keeps what each step that it takes keeps. -/
theorem holds_of_steps {I : Emission → Prop} {script : Script} {s s' : Emission} (holds : I s)
    (each : ∀ operation t, (operation, (operation.outcome t).1) ∈ script.steps s → I t →
      I (operation.outcome t).2) (run : script.run s = .ok () s') : I s' := by
  induction script generalizing s with
  | done =>
    cases run
    exact holds
  | fail e => cases run
  | perform operation next ih =>
    obtain ⟨told, rest⟩ := run_perform_ok run
    rw [steps, if_pos told] at each
    refine ih _ (each operation s ?_ holds) (fun operation t member => each operation t ?_) rest
    · exact List.mem_cons_self
    · exact List.mem_cons_of_mem _ member

end Script

/-- No run of a policy of the chain has the unusable constant added. -/
def Chain.AddsUsable (chain : Chain) : Prop :=
  ∀ p ∈ chain.policies, ∀ site pool answer,
    (.constant .unusable, .ok answer) ∉ (p.script site).steps ⟨pool, Emitter.start p.name site⟩

theorem callbacks_add_usable {chain : Chain}
    (callbacks : ∀ p ∈ chain.policies, ∃ c : Callback, p = c.policy) : chain.AddsUsable := by
  intro p member site pool answer step
  obtain ⟨c, rfl⟩ := callbacks p member
  have performs : (c.policy.script site).Performs (· ≠ .constant .unusable) := by
    refine Script.performs_ofOperations fun operation performed => ?_
    rintro rfl
    revert performed
    unfold Callback.operations Callback.pushValue Callback.pushNames Callback.pushNamesUnder
    repeat' split
    all_goals simp
  exact Script.steps_of_performs performs _ step rfl

theorem built_outcome {operation : Operation} {s : Emission} (built : s.pool.Built)
    (usable : operation = .constant .unusable → ∀ answer, (operation.outcome s).1 ≠ .ok answer) :
    (operation.outcome s).2.pool.Built := by
  by_cases asked : operation = .constant .unusable
  · -- The request failed, and a request that fails adds nothing.
    have refused := usable asked
    subst asked
    obtain ⟨pool, e⟩ := s
    have performed : (Operation.constant .unusable).perform ⟨pool, e⟩ =
        (EmitM.inPool (Pool.add .unusable) >>= fun i => pure (some i)) ⟨pool, e⟩ := rfl
    unfold Operation.outcome at refused ⊢
    rw [performed] at refused ⊢
    simp only [bind, EStateM.bind, EmitM.inPool] at refused ⊢
    cases added : Pool.add .unusable pool with
    | ok i pool' =>
      rw [added] at refused
      exact absurd rfl (refused (some i))
    | error fault pool' =>
      rw [Pool.add_error added]
      exact built
  · have keeps : Keeps (fun s => s.pool.Built) operation.perform := by
      refine EmitM.keeps_perform (stable_pool fun c => Pool.keeps_built) (allowed_pool operation) ?_
      rintro value rfl
      exact keeps_inPool (Pool.keeps_built fun same => asked (same ▸ rfl))
    have kept := keeps s built
    unfold Operation.outcome
    cases run : operation.perform s <;> rw [run] at kept <;> exact kept

theorem emit_built {p : Policy} {site : Site} {pool pool' : Pool} {hook : Hook}
    (usable : ∀ answer, (.constant .unusable, .ok answer) ∉
      (p.script site).steps ⟨pool, Emitter.start p.name site⟩)
    (built : pool.Built) (run : p.emit site pool = .ok hook pool') : pool'.Built := by
  obtain ⟨s, emitted, rfl, _⟩ := emit_ok run
  refine Script.holds_of_steps (I := fun s => s.pool.Built) built ?_ emitted
  intro operation t step holds
  refine built_outcome holds ?_
  rintro rfl answer ok
  rw [ok] at step
  exact usable answer step

theorem chain_emit_built {chain : Chain} (usable : chain.AddsUsable) {site : Site}
    {pool pool' : Pool} {hook : Hook} (built : pool.Built)
    (run : chain.emit site pool = .ok hook pool') : pool'.Built :=
  chain_emit_induction (J := fun pool _ => pool.Built) built
    (fun p member _ _ _ _ before emitted => emit_built (usable p member site _) before emitted) run

end ClassHooks
