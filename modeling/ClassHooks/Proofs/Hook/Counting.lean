import ClassHooks.Proofs.Hook.Failing

/-!
The counters of an emitter are exact. They have sixteen bits, and an operation whose values they
could not count breaks the emission off; so wherever operations succeed, the depth is the slots of
the values, and the greatest depth the most slots that they took at any time.
-/
namespace ClassHooks

/-- The counters of the emitter, when the values on its stack took `most` slots at some time and
never more. -/
structure Emission.Counts (s : Emission) (most : Nat) : Prop where
  depth : s.emitter.depth.toNat = slotsOf id s.emitter.stack
  low : slotsOf id s.emitter.stack ≤ most
  peak : s.emitter.maxDepth.toNat = most

theorem Emission.Counts.bound {s : Emission} {most : Nat} (counts : s.Counts most) :
    most ≤ 65535 := by
  have small := s.emitter.maxDepth.toNat_lt
  have peak := counts.peak
  omega

/-- One value more would take more slots than can be counted. -/
def Emission.Full (s : Emission) : Prop :=
  ∃ kind : ValueKind, 65535 < slotsOf id s.emitter.stack + kind.slots

theorem counts_start (pool : Pool) (name : String) (site : Site) :
    Emission.Counts ⟨pool, Emitter.start name site⟩ 0 :=
  ⟨rfl, Nat.le_refl 0, rfl⟩

namespace EmitM
open Emission
variable {α β : Type}

def Lowers (x : EmitM α) : Prop :=
  ∀ s most, s.Counts most → match x s with
    | .ok _ t => t.Counts most
    | .error e _ => e.isReported = true

/-- The values take the most slots at the end, if not before. A failure is reported, but for an
overflow where the slots cannot be counted. -/
def Raises (x : EmitM α) : Prop :=
  ∀ s most, s.Counts most → match x s with
    | .ok _ t => t.Counts (max most (slotsOf id t.emitter.stack))
    | .error e t => e.isReported = true ∨ (e = .overflow ∧ t.Full)

theorem raises_of_lowers {x : EmitM α} (lowers : Lowers x) : Raises x := by
  intro s most counts
  have after := lowers s most counts
  cases run : x s with
  | ok a t =>
    rw [run] at after
    dsimp only
    rwa [Nat.max_eq_left after.low]
  | error e t =>
    rw [run] at after
    exact .inl after

theorem lowers_bind {x : EmitM α} {f : α → EmitM β} (first : Lowers x)
    (next : ∀ a, Lowers (f a)) : Lowers (x >>= f) := by
  intro s most counts
  have start := first s most counts
  cases run : x s with
  | ok a t =>
    rw [run] at start
    rw [state_bind_of_ok run]
    exact next a t most start
  | error e t =>
    rw [run] at start
    rw [state_bind_of_error run]
    exact start

theorem raises_bind {x : EmitM α} {f : α → EmitM β} (first : Lowers x)
    (next : ∀ a, Raises (f a)) : Raises (x >>= f) := by
  intro s most counts
  have start := first s most counts
  cases run : x s with
  | ok a t =>
    rw [run] at start
    rw [state_bind_of_ok run]
    exact next a t most start
  | error e t =>
    rw [run] at start
    rw [state_bind_of_error run]
    exact .inl start

theorem raises_return {x : EmitM α} {g : α → β} (raises : Raises x) :
    Raises (x >>= fun a => pure (g a)) := by
  intro s most counts
  have start := raises s most counts
  cases run : x s with
  | ok a t =>
    rw [run] at start
    rw [state_bind_of_ok run]
    exact start
  | error e t =>
    rw [run] at start
    rw [state_bind_of_error run]
    exact start

theorem lowers_ite {c : Prop} [Decidable c] {x y : EmitM α} (yes : Lowers x) (no : Lowers y) :
    Lowers (if c then x else y) := by
  split
  · exact yes
  · exact no

theorem raises_ite {c : Prop} [Decidable c] {x y : EmitM α} (yes : Raises x) (no : Raises y) :
    Raises (if c then x else y) := by
  split
  · exact yes
  · exact no

theorem lowers_pure (a : α) : Lowers (pure a : EmitM α) := fun _ _ counts => counts

theorem lowers_fail (fault : HookFault) : Lowers (fail fault : EmitM α) := fun _ _ _ => rfl

theorem lowers_emitter : Lowers emitter := fun _ _ counts => counts

theorem lowers_append (i : Instruction Label) : Lowers (append i) :=
  fun _ _ counts => ⟨counts.depth, counts.low, counts.peak⟩

theorem lowers_constant (use : ConstantUse) (operation : PoolM UInt16) :
    Lowers (constant use operation) := by
  rintro ⟨pool, e⟩ most counts
  unfold constant
  dsimp only
  cases operation pool with
  | ok index q => exact ⟨counts.depth, counts.low, counts.peak⟩
  | error fault q => rfl

theorem lowers_add (value : Constant) : Lowers (inPool (Pool.add value)) := by
  rintro ⟨pool, e⟩ most counts
  unfold inPool
  dsimp only
  cases added : Pool.add value pool with
  | ok index q => exact ⟨counts.depth, counts.low, counts.peak⟩
  | error fault q =>
    unfold Pool.add at added
    split at added
    · cases added
    · split at added
      · cases added
      · cases added
        rfl

theorem lowers_pop (k : ValueKind) : Lowers (pop k) := by
  intro s most counts
  cases run : pop k s with
  | error e t =>
    by_cases here : s.emitter.stack.head? = some k
    · rw [pop_runs here] at run
      cases run
    · obtain ⟨fault, fails⟩ := pop_fails here
      rw [fails] at run
      cases run
      rfl
  | ok _ t =>
    have popped := popped_of_pop run
    have low := counts.low
    rw [popped.stack, slotsOf_append] at low
    refine ⟨popped.depth counts.depth, by omega, ?_⟩
    rw [popped.peak]
    exact counts.peak

theorem raises_push (k : ValueKind) : Raises (push k) := by
  intro s most counts
  cases run : push k s with
  | error e t =>
    obtain ⟨full, rfl, rfl⟩ := push_error_iff.mp run
    rw [counts.depth] at full
    exact .inr ⟨rfl, k, full⟩
  | ok _ t =>
    have pushed := pushed_of_push run
    have high := counts.low
    rw [← counts.peak] at high
    obtain ⟨depth, peak⟩ := pushed.depths counts.depth high
    rw [counts.peak] at peak
    exact ⟨depth, Nat.le_max_right _ _, peak⟩

theorem lowers_popAll (kinds : List ValueKind) : Lowers (popAll kinds) := by
  unfold popAll
  induction kinds.reverse with
  | nil => exact lowers_pure _
  | cons k ks ih => exact lowers_bind (lowers_pop k) fun _ => ih

theorem raises_pushAll (kinds : List ValueKind) : Raises (pushAll kinds) := by
  unfold pushAll
  induction kinds with
  | nil => exact raises_of_lowers (lowers_pure _)
  | cons k ks ih =>
    intro s most counts
    have first := raises_push k s most counts
    cases pushed : push k s with
    | error e t =>
      rw [pushed] at first
      have stops : (k :: ks).forM push s = .error e t := state_bind_of_error pushed
      rw [stops]
      exact first
    | ok _ u =>
      rw [pushed] at first
      have goes : (k :: ks).forM push s = ks.forM push u := state_bind_of_ok pushed
      have after := ih u _ first
      rw [goes]
      cases rest : ks.forM push u with
      | error e t =>
        rw [rest] at after
        exact after
      | ok _ t =>
        rw [rest] at after
        -- The values at the end are the most of all, so those on the way do not count.
        have higher : slotsOf id u.emitter.stack ≤ slotsOf id t.emitter.stack := by
          rw [(pushed_of_forM rest).stack, slotsOf_append]
          exact Nat.le_add_left _ _
        dsimp only at after ⊢
        rwa [Nat.max_assoc, Nat.max_eq_right higher] at after

theorem raises_emit (i : Instruction Label) (k : ValueKind) :
    Raises (append i >>= fun _ => push k) :=
  raises_bind (lowers_append i) fun _ => raises_push k

theorem raises_pushInt (value : Int32) : Raises (pushInt value) := by
  unfold pushInt
  dsimp only
  exact raises_ite (raises_emit _ _) (raises_ite (raises_emit _ _) (raises_ite (raises_emit _ _)
    (raises_bind (lowers_constant _ _) fun _ => raises_emit _ _)))

theorem raises_copyBase (k : ValueKind) : Raises (copyBase k) := by
  apply raises_bind lowers_emitter
  intro e
  exact raises_ite (raises_bind (lowers_fail _) fun _ => raises_emit _ _) (raises_emit _ _)

theorem raises_copyReturnValue : Raises copyReturnValue := by
  apply raises_bind lowers_emitter
  intro e
  cases e.base with
  | none =>
    have refuses : Raises (fail .returnsVoid : EmitM Unit) := raises_of_lowers (lowers_fail _)
    exact raises_ite (raises_bind (lowers_fail _) fun _ => refuses) refuses
  | some k =>
    exact raises_ite (raises_bind (lowers_fail _) fun _ => raises_copyBase k) (raises_copyBase k)

theorem raises_copyException : Raises copyException := by
  apply raises_bind lowers_emitter
  intro e
  exact raises_ite (raises_bind (lowers_fail _) fun _ => raises_copyBase _) (raises_copyBase _)

theorem raises_invokeStatic (owner name descriptor : String) :
    Raises (invokeStatic owner name descriptor) := by
  unfold invokeStatic
  split
  · exact raises_of_lowers (lowers_fail _)
  · rename_i d _
    apply raises_bind (lowers_popAll _)
    intro _
    apply raises_bind (lowers_constant _ _)
    intro _
    apply raises_bind (lowers_append _)
    intro _
    cases d.returnKind with
    | none => exact raises_of_lowers (lowers_pure _)
    | some k => exact raises_push k

theorem raises_box (type : FieldType) : Raises (box type) := by
  unfold box
  split
  · exact raises_invokeStatic _ _ _
  · apply raises_bind lowers_emitter
    intro e
    exact raises_of_lowers (lowers_ite (lowers_fail _) (lowers_pure _))

theorem raises_checkcast (className : String) : Raises (checkcast className) :=
  raises_bind (lowers_pop _) fun _ => raises_bind (lowers_constant _ _) fun _ => raises_emit _ _

theorem lowers_discard : Lowers discard := by
  apply lowers_bind lowers_emitter
  intro e
  split
  · exact lowers_fail _
  · exact lowers_bind (lowers_pop _) fun _ => lowers_append _

theorem lowers_swap : Lowers swap := by
  rintro ⟨pool, policy, event, base, stack, depth, peak, is⟩ most counts
  unfold swap
  dsimp only
  rcases stack with _ | ⟨a, _ | ⟨b, rest⟩⟩
  · rfl
  · rfl
  · dsimp only
    by_cases single : a.slots = 1 ∧ b.slots = 1
    · rw [if_pos single]
      have same : slotsOf id (b :: a :: rest) = slotsOf id (a :: b :: rest) := by
        simp only [slotsOf_cons]
        omega
      exact ⟨counts.depth.trans same.symm, same.trans_le counts.low, counts.peak⟩
    · rw [if_neg single]
      rfl

theorem raises_raw (i : Instruction Label) (pops pushes : List ValueKind) :
    Raises (raw i pops pushes) := by
  have emits : Raises (popAll pops >>= fun _ => append i >>= fun _ => pushAll pushes) :=
    raises_bind (lowers_popAll pops) fun _ => raises_bind (lowers_append i) fun _ =>
      raises_pushAll pushes
  have stops : ∀ (fault : HookFault) (f : Unit → EmitM Unit), Raises (fail fault >>= f) :=
    fun _ _ _ _ _ => .inl rfl
  exact raises_ite (stops _ _) (raises_ite (stops _ _) (raises_ite (stops _ _) emits))

end EmitM

/-- An operation counts what it pushes. -/
theorem raises_perform (op : Operation) : EmitM.Raises op.perform := by
  cases op <;> apply EmitM.raises_return
  case pushInt value => exact EmitM.raises_pushInt value
  case pushString => exact EmitM.raises_bind (EmitM.lowers_constant _ _) fun _ => EmitM.raises_emit _ _
  case pushNull => exact EmitM.raises_emit _ _
  case copyReturnValue => exact EmitM.raises_copyReturnValue
  case copyException => exact EmitM.raises_copyException
  case box => exact EmitM.raises_box _
  case invokeStatic => exact EmitM.raises_invokeStatic _ _ _
  case checkcast => exact EmitM.raises_checkcast _
  case discard => exact EmitM.raises_of_lowers EmitM.lowers_discard
  case swap => exact EmitM.raises_of_lowers EmitM.lowers_swap
  case raw => exact EmitM.raises_raw _ _ _
  case constant => exact EmitM.raises_of_lowers (EmitM.lowers_add _)

/-- The script goes from one state to another, and all that it performs succeeds. On the way its
values take `most` slots at some time, and never more. -/
inductive Script.Climbs : Script → Emission → Emission → Nat → Prop where
  | done {s : Emission} : Climbs .done s s (slotsOf id s.emitter.stack)
  | perform {op : Operation} {next : Except Error (Option UInt16) → Script}
      {answer : Option UInt16} {s t u : Emission} {most : Nat}
      (performed : op.perform s = .ok answer t) (rest : Climbs (next (.ok answer)) t u most) :
      Climbs (.perform op next) s u (max (slotsOf id s.emitter.stack) most)

/-- All that the script performs succeeds, up to an operation that breaks the emission off. -/
inductive Script.Breaks : Script → Emission → Emission → Prop where
  | here {op : Operation} {next : Except Error (Option UInt16) → Script} {s t : Emission}
      (performed : op.perform s = .error .overflow t) : Breaks (.perform op next) s t
  | later {op : Operation} {next : Except Error (Option UInt16) → Script}
      {answer : Option UInt16} {s t u : Emission} (performed : op.perform s = .ok answer t)
      (rest : Breaks (next (.ok answer)) t u) : Breaks (.perform op next) s u

section Scripts
variable {script : Script} {s t : Emission} {most : Nat}

theorem run_of_climbs (climbs : script.Climbs s t most) : script.run s = .ok () t := by
  induction climbs with
  | done => rfl
  | perform performed _ ih =>
    unfold Script.run
    rw [performed]
    exact ih

theorem low_of_climbs (climbs : script.Climbs s t most) : slotsOf id s.emitter.stack ≤ most := by
  cases climbs with
  | done => exact Nat.le_refl _
  | perform => exact Nat.le_max_left _ _

theorem counts_of_climbs (climbs : script.Climbs s t most) {before : Nat}
    (counts : s.Counts before) : t.Counts (max before most) := by
  induction climbs generalizing before with
  | done =>
    rw [Nat.max_eq_left counts.low]
    exact counts
  | @perform op next answer s t u most performed rest ih =>
    have after := raises_perform op s before counts
    rw [performed] at after
    -- The heights before and behind the operation are both among those that are climbed to.
    have later := ih after
    have low := counts.low
    have climbed := low_of_climbs rest
    rw [Nat.max_assoc, Nat.max_eq_right climbed] at later
    rw [← Nat.max_assoc, Nat.max_eq_left low]
    exact later

theorem run_of_breaks (breaks : script.Breaks s t) : script.run s = .error .overflow t := by
  induction breaks with
  | here performed =>
    unfold Script.run
    rw [performed]
    rfl
  | later performed _ ih =>
    unfold Script.run
    rw [performed]
    exact ih

theorem full_of_breaks (breaks : script.Breaks s t) {before : Nat} (counts : s.Counts before) :
    t.Full := by
  induction breaks generalizing before with
  | @here op next s t performed =>
    have after := raises_perform op s before counts
    rw [performed] at after
    exact (after.resolve_left nofun).2
  | @later op next answer s t u performed _ ih =>
    have after := raises_perform op s before counts
    rw [performed] at after
    exact ih after

end Scripts

/-- The policies contribute to a site one after the other. The values of one of them take `most` slots
at some time, and those of none take more. -/
inductive Site.Climbs (site : Site) : List Policy → Pool → Pool → Nat → Prop where
  | none {pool : Pool} : Climbs site [] pool pool 0
  | policy {p : Policy} {ps : List Policy} {pool pool' : Pool} {s : Emission} {own most : Nat}
      (emits : (p.script site).Climbs ⟨pool, Emitter.start p.name site⟩ s own)
      (rest : Climbs site ps s.pool pool' most) :
      Climbs site (p :: ps) pool pool' (max own most)

/-- Policies go on with what those before them have emitted. -/
theorem foldlM_of_climbs {site : Site} {ps : List Policy} {pool after : Pool} {most : Nat}
    (climbs : site.Climbs ps pool after most) {done hook : Hook} {pool' : Pool}
    (run : (ps.foldlM (fun hook p => return hook.append (← p.emit site)) done : PoolM Hook) pool =
      .ok hook pool') :
    pool' = after ∧ hook.maxStack.toNat = max done.maxStack.toNat most := by
  induction climbs generalizing done with
  | none =>
    obtain ⟨rfl, rfl⟩ := state_pure_ok_iff.mp run
    exact ⟨rfl, (Nat.max_zero _).symm⟩
  | @policy p ps pool _ s own most emits _ ih =>
    rw [List.foldlM_cons] at run
    obtain ⟨joined, q, here, rest⟩ := state_bind_ok_iff.mp run
    obtain ⟨part, q', emitted, same⟩ := state_bind_ok_iff.mp here
    obtain ⟨rfl, rfl⟩ := state_pure_ok_iff.mp same
    obtain ⟨u, ran, rfl, finished⟩ := emit_ok emitted
    rw [run_of_climbs emits] at ran
    cases ran
    obtain ⟨ends, told⟩ := ih rest
    refine ⟨ends, ?_⟩
    obtain ⟨_, rfl⟩ := finish_ok finished
    have counts := counts_of_climbs emits (counts_start pool p.name site)
    rw [told]
    change max (max done.maxStack s.emitter.maxDepth).toNat most = _
    rw [toNat_max, counts.peak, Nat.zero_max, Nat.max_assoc]

theorem emit_of_climbs {chain : Chain} {site : Site} {pool pool' after : Pool} {most : Nat}
    (climbs : site.Climbs chain.policies pool after most) {hook : Hook}
    (run : chain.emit site pool = .ok hook pool') :
    pool' = after ∧ hook.maxStack.toNat = most := by
  obtain ⟨ends, told⟩ := foldlM_of_climbs climbs run
  exact ⟨ends, told.trans (Nat.zero_max most)⟩

/-- A policy breaks off at the site, where those before it have emitted their hooks. -/
inductive Site.Breaks (site : Site) : List Policy → Pool → Prop where
  | here {p : Policy} {ps : List Policy} {pool : Pool} {s : Emission}
      (breaks : (p.script site).Breaks ⟨pool, Emitter.start p.name site⟩ s) :
      Breaks site (p :: ps) pool
  | later {p : Policy} {ps : List Policy} {pool pool' : Pool} {hook : Hook}
      (emits : p.emit site pool = .ok hook pool') (rest : Breaks site ps pool') :
      Breaks site (p :: ps) pool

theorem policy_emit_of_breaks {p : Policy} {site : Site} {pool : Pool} {s : Emission}
    (breaks : (p.script site).Breaks ⟨pool, Emitter.start p.name site⟩ s) :
    p.emit site pool = .error .overflow s.pool := by
  unfold Policy.emit
  rw [run_of_breaks breaks]

theorem foldlM_of_breaks {site : Site} {ps : List Policy} {pool : Pool}
    (breaks : site.Breaks ps pool) (done : Hook) : ∃ pool',
      (ps.foldlM (fun hook p => return hook.append (← p.emit site)) done : PoolM Hook) pool =
        .error .overflow pool' := by
  induction breaks generalizing done with
  | @here p ps pool s breaks =>
    rw [List.foldlM_cons]
    exact ⟨_, state_bind_of_error (state_bind_of_error (policy_emit_of_breaks breaks))⟩
  | @later p ps pool q hook emits _ ih =>
    have joined : (p.emit site >>= fun own => pure (done.append own) : PoolM Hook) pool =
        .ok (done.append hook) q := state_bind_of_ok emits
    rw [List.foldlM_cons, state_bind_of_ok joined]
    exact ih _

theorem emit_of_breaks {chain : Chain} {site : Site} {pool : Pool}
    (breaks : site.Breaks chain.policies pool) :
    ∃ pool', chain.emit site pool = .error .overflow pool' :=
  foldlM_of_breaks breaks Hook.empty

end ClassHooks
