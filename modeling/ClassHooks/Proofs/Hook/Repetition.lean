import ClassHooks.Proofs.Hook.Emission

/-!
A chain emits the same hooks again. Scripts see nothing of the pool but the answers to their requests,
and in a later pool each request is answered as it was.
-/
namespace ClassHooks

def EmitM.Repeats (x : EmitM α) : Prop :=
  ClassHooks.Repeats Emission.pool (fun q s => ⟨q, s.emitter⟩) x

namespace EmitM

theorem inPool_of_ok {operation : PoolM α} {p q : Pool} {a : α} (run : operation p = .ok a q)
    (e : Emitter) : inPool operation ⟨p, e⟩ = .ok a ⟨q, e⟩ := by
  simp only [inPool, run]

theorem inPool_of_error {operation : PoolM α} {p q : Pool} {fault : Error}
    (run : operation p = .error fault q) (e : Emitter) :
    inPool operation ⟨p, e⟩ = .error fault ⟨q, e⟩ := by
  simp only [inPool, run]

theorem repeats_inPool {operation : PoolM α} (repeats : operation.Repeats) :
    Repeats (inPool operation) := by
  rintro ⟨pool, e⟩
  have here := repeats pool
  unfold RepeatsAt at here
  cases run : operation pool with
  | ok a p =>
    rw [run] at here
    refine repeatsAt_of_ok (inPool_of_ok run e) here.1 ?_
    intro q later
    exact inPool_of_ok (here.2 q later) e
  | error fault p =>
    rw [run] at here
    refine repeatsAt_of_error (inPool_of_error run e) here.1 ?_
    intro q later
    exact inPool_of_error (here.2 q later) e

theorem constant_of_ok (use : ConstantUse) {operation : PoolM UInt16} {p q : Pool} {i : UInt16}
    (run : operation p = .ok i q) (e : Emitter) :
    constant use operation ⟨p, e⟩ = .ok i ⟨q, e⟩ := by
  simp only [constant, run]

theorem constant_of_error (use : ConstantUse) {operation : PoolM UInt16} {p q : Pool} {fault : Error}
    (run : operation p = .error fault q) (e : Emitter) : constant use operation ⟨p, e⟩ =
      .error (.hook e.policy (.noRoom use fault.message)) ⟨q, e⟩ := by
  simp only [constant, run]

theorem repeats_constant (use : ConstantUse) {operation : PoolM UInt16}
    (repeats : operation.Repeats) : Repeats (constant use operation) := by
  rintro ⟨pool, e⟩
  have here := repeats pool
  unfold RepeatsAt at here
  cases run : operation pool with
  | ok a p =>
    rw [run] at here
    refine repeatsAt_of_ok (constant_of_ok use run e) here.1 ?_
    intro q later
    exact constant_of_ok use (here.2 q later) e
  | error fault p =>
    rw [run] at here
    refine repeatsAt_of_error (constant_of_error use run e) here.1 ?_
    intro q later
    exact constant_of_error use (here.2 q later) e

theorem repeats_swap : Repeats swap := by
  rintro ⟨pool, e⟩
  unfold ClassHooks.RepeatsAt swap
  dsimp only
  rcases e.stack with _ | ⟨a, _ | ⟨b, rest⟩⟩
  · exact ⟨Pool.later_refl pool, fun q later => rfl⟩
  · exact ⟨Pool.later_refl pool, fun q later => rfl⟩
  · by_cases single : a.slots = 1 ∧ b.slots = 1
    · simp only [if_pos single]
      exact ⟨Pool.later_refl pool, fun q later => trivial⟩
    · simp only [if_neg single]
      exact ⟨Pool.later_refl pool, fun q later => trivial⟩

theorem repeats_push (kind : ValueKind) : Repeats (push kind) := by
  rintro ⟨pool, e⟩
  by_cases room : e.depth.toNat + kind.slots ≤ 65535
  · refine repeatsAt_of_ok (push_ok_iff.mpr ⟨room, rfl⟩) (Pool.later_refl pool) fun q _ => ?_
    exact push_ok_iff.mpr ⟨room, rfl⟩
  · have full := Nat.lt_of_not_le room
    refine repeatsAt_of_error (push_error_iff.mpr ⟨full, rfl, rfl⟩) (Pool.later_refl pool)
      fun q _ => ?_
    exact push_error_iff.mpr ⟨full, rfl, rfl⟩

theorem repeats_append (i : Instruction Label) : Repeats (append i) :=
  fun _ => ⟨Pool.later_refl _, fun _ _ => rfl⟩

theorem closed_repeats : Closed Repeats where
  pure := repeats_pure
  bind := repeats_bind
  fail _ := fun _ => ⟨Pool.later_refl _, fun _ _ => rfl⟩
  emitter := fun _ => ⟨Pool.later_refl _, fun _ _ => rfl⟩
  push := repeats_push
  dropTop := fun _ => ⟨Pool.later_refl _, fun _ _ => rfl⟩
  lower _ := fun _ => ⟨Pool.later_refl _, fun _ _ => rfl⟩
  swap := repeats_swap
  append i _ := repeats_append i
  constant use _ _ repeats := repeats_constant use repeats

end EmitM

theorem Operation.repeats_perform (operation : Operation) : EmitM.Repeats operation.perform :=
  EmitM.closed_repeats.perform (fun i _ _ _ _ => EmitM.repeats_append i) fun value _ =>
    EmitM.repeats_inPool (Pool.repeats_add value)

theorem Script.repeats_run (script : Script) : EmitM.Repeats script.run := by
  induction script with
  | done => exact repeats_pure _
  | fail e => exact repeats_throw e
  | perform operation next ih =>
    intro s
    have here := operation.repeats_perform s
    unfold RepeatsAt at here
    cases run : operation.perform s with
    | ok answer t =>
      rw [run] at here
      refine repeatsAt_step ?_ here.1 ?_ (ih (.ok answer) t)
      · simp only [Script.run, run]
      · intro q later
        simp only [Script.run, here.2 q later]
    | error fault t =>
      rw [run] at here
      by_cases told : fault.isReported = true
      · refine repeatsAt_step ?_ here.1 ?_ (ih (.error fault) t)
        · simp only [Script.run, run, if_pos told]
        · intro q later
          simp only [Script.run, here.2 q later, if_pos told]
      · refine repeatsAt_of_error (e := fault) ?_ here.1 ?_
        · simp only [Script.run, run, if_neg told]
        · intro q later
          simp only [Script.run, here.2 q later, if_neg told]

theorem Policy.repeats_emit (p : Policy) (site : Site) : PoolM.Repeats (p.emit site) := by
  intro pool
  have here := (p.script site).repeats_run ⟨pool, Emitter.start p.name site⟩
  unfold RepeatsAt at here
  cases run : (p.script site).run ⟨pool, Emitter.start p.name site⟩ with
  | error e s =>
    rw [run] at here
    have first : p.emit site pool = .error e s.pool := by simp only [Policy.emit, run]
    refine repeatsAt_of_error first here.1 ?_
    intro q later
    have again : (p.script site).run ⟨q, Emitter.start p.name site⟩ = _ := here.2 q later
    simp only [Policy.emit, again]
  | ok _ s =>
    rw [run] at here
    have again : ∀ q, s.pool.Later q →
        (p.script site).run ⟨q, Emitter.start p.name site⟩ = .ok () ⟨q, s.emitter⟩ := here.2
    cases finished : s.emitter.finish with
    | error e =>
      have first : p.emit site pool = .error e s.pool := by simp only [Policy.emit, run, finished]
      refine repeatsAt_of_error first here.1 ?_
      intro q later
      simp only [Policy.emit, again q later, finished]
    | ok hook =>
      have first : p.emit site pool = .ok hook s.pool := by simp only [Policy.emit, run, finished]
      refine repeatsAt_of_ok first here.1 ?_
      intro q later
      simp only [Policy.emit, again q later, finished]

/-- A chain emits the same hook in every later pool, and adds nothing to it. -/
theorem Chain.repeats_emit (chain : Chain) (site : Site) : PoolM.Repeats (chain.emit site) := by
  obtain ⟨policies, distinct⟩ := chain
  unfold Chain.emit
  dsimp only
  generalize Hook.empty = done
  clear distinct
  induction policies generalizing done with
  | nil => exact repeats_pure _
  | cons p policies ih =>
    rw [List.foldlM_cons]
    exact repeats_bind (repeats_bind (p.repeats_emit site) fun _ => repeats_pure _) fun _ => ih _

end ClassHooks
