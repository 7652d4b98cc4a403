import ClassHooks.Proofs.Instruction.Shapes
import ClassHooks.Proofs.Pool.Replay
import ClassHooks.Hook.Callback

/-!
What emitter operations keep, and so every script. Hook code goes straight on: none of its opcodes
ends the method, returns or jumps.
-/
namespace ClassHooks

theorem toNat_max (a b : UInt16) : (max a b).toNat = max a.toNat b.toNat := by
  change (if a ≤ b then b else a).toNat = _
  split
  · rename_i le
    rw [UInt16.le_iff_toNat_le] at le
    omega
  · rename_i gt
    rw [UInt16.le_iff_toNat_le] at gt
    omega

namespace Script

/-- Every operation that the script may come to has the property. -/
def Performs (Q : Operation → Prop) : Script → Prop
  | .done => True
  | .fail _ => True
  | .perform operation next => Q operation ∧ ∀ answer, (next answer).Performs Q

theorem performs_of_forall {Q : Operation → Prop} (each : ∀ operation, Q operation)
    (script : Script) : script.Performs Q := by
  induction script with
  | done | fail => trivial
  | perform operation next ih => exact ⟨each operation, ih⟩

theorem performs_ofOperations {Q : Operation → Prop} {operations : List Operation}
    (each : ∀ operation ∈ operations, Q operation) : (ofOperations operations).Performs Q := by
  induction operations with
  | nil => trivial
  | cons operation operations ih =>
    rw [List.forall_mem_cons] at each
    refine ⟨each.1, fun answer => ?_⟩
    cases answer with
    | ok _ => exact ih each.2
    | error _ => trivial

/-- A script keeps what its operations keep. -/
theorem keeps_run {I : Emission → Prop} {Q : Operation → Prop}
    (each : ∀ operation, Q operation → Keeps I operation.perform) {script : Script}
    (performs : script.Performs Q) : Keeps I script.run := by
  induction script with
  | done => exact keeps_pure _
  | fail error => exact keeps_throw error
  | perform operation next ih =>
    intro s holds
    have middle := each operation performs.1 s holds
    unfold run
    cases step : operation.perform s with
    | ok answer s' =>
      rw [step] at middle
      exact ih _ (performs.2 _) s' middle
    | error e s' =>
      rw [step] at middle
      dsimp only
      by_cases told : e.isReported = true
      · rw [if_pos told]
        exact ih _ (performs.2 _) s' middle
      · rw [if_neg told]
        exact middle

end Script

def Emitter.raised (e : Emitter) (kind : ValueKind) : Emitter :=
  let depth := UInt16.ofNat (e.depth.toNat + kind.slots)
  { e with stack := kind :: e.stack, depth, maxDepth := max e.maxDepth depth }

/-- What every operation emits but a raw one: it goes straight on and names no place. -/
def Instruction.Tame (i : Instruction Label) : Prop := i.Straight ∧ i.targets = []

/-- The property is about the pool and the instructions, and neither more constants nor more
instructions break it. -/
structure Emission.Stable (I : Emission → Prop) : Prop where
  silent : ∀ s s', s.pool = s'.pool → s.emitter.instructions = s'.emitter.instructions →
    I s → I s'
  append : ∀ i : Instruction Label, i.Tame → Keeps I (EmitM.append i)
  inPool : ∀ {α} (operation : PoolM α), operation.AddsUsable → Keeps I (EmitM.inPool operation)

def Operation.Allowed (I : Emission → Prop) : Operation → Prop
  | .raw i _ _ => i.Straight → Keeps I (EmitM.append i)
  | _ => True

namespace EmitM
open Emission

theorem tame_small {value : Int32} (low : -1 ≤ value.toInt) (high : value.toInt ≤ 5) :
    (Instruction.plain (Opcode.iconst0 + value.toInt8.toUInt8) : Instruction Label).Tame := by
  have exact32 : value = Int32.ofInt value.toInt := (Int32.ofInt_toInt value).symm
  have cases : value.toInt = -1 ∨ value.toInt = 0 ∨ value.toInt = 1 ∨ value.toInt = 2 ∨
      value.toInt = 3 ∨ value.toInt = 4 ∨ value.toInt = 5 := by omega
  rcases cases with same | same | same | same | same | same | same <;>
    (rw [same] at exact32; subst exact32; exact ⟨.inl rfl, rfl⟩)

theorem push_eq (kind : ValueKind) (s : Emission) : push kind s =
    if s.emitter.depth.toNat + kind.slots ≤ 65535 then .ok () ⟨s.pool, s.emitter.raised kind⟩
    else .error .overflow s := by
  obtain ⟨pool, e⟩ := s
  by_cases room : e.depth.toNat + kind.slots ≤ 65535
  · have counts : counted UInt16.ofNat UInt16.size (e.depth.toNat + kind.slots) =
        .ok (UInt16.ofNat (e.depth.toNat + kind.slots)) :=
      counted_ok_iff.mpr ⟨Nat.lt_succ_of_le room, rfl⟩
    rw [if_pos room, push, Emitter.push, counts]
    rfl
  · have overflows : counted UInt16.ofNat UInt16.size (e.depth.toNat + kind.slots) =
        .error .overflow :=
      counted_error_iff.mpr ⟨Nat.lt_of_not_le room, rfl⟩
    rw [if_neg room, push, Emitter.push, overflows]
    rfl

theorem push_ok_iff {kind : ValueKind} {s t : Emission} : push kind s = .ok () t ↔
    s.emitter.depth.toNat + kind.slots ≤ 65535 ∧ t = ⟨s.pool, s.emitter.raised kind⟩ := by
  rw [push_eq]
  split
  · simp [*, eq_comm]
  · simp [*]

theorem push_error_iff {kind : ValueKind} {s t : Emission} {error : Error} :
    push kind s = .error error t ↔
      65535 < s.emitter.depth.toNat + kind.slots ∧ error = .overflow ∧ t = s := by
  rw [push_eq]
  split
  · simp [Nat.not_lt.mpr, *]
  · rename_i full
    simp [Nat.lt_of_not_le full, eq_comm]

/-- A property that goes from the steps of an emitter to whatever is made of them. -/
structure Closed (K : ∀ {α : Type}, EmitM α → Prop) : Prop where
  pure : ∀ {α : Type} (a : α), K (pure a)
  bind : ∀ {α β : Type} {x : EmitM α} {f : α → EmitM β}, K x → (∀ a, K (f a)) → K (x >>= f)
  fail : ∀ {α : Type} (fault : HookFault), K (fail fault : EmitM α)
  emitter : K emitter
  push : ∀ kind, K (push kind)
  dropTop : K dropTop
  lower : ∀ slots, K (lower slots)
  swap : K swap
  append : ∀ i : Instruction Label, i.Tame → K (append i)
  constant : ∀ use {operation : PoolM UInt16}, operation.AddsUsable → operation.Repeats →
    K (constant use operation)

namespace Closed
variable {K : ∀ {α : Type}, EmitM α → Prop} (closed : Closed K)
include closed

theorem stop {α β : Type} (fault : HookFault) (f : α → EmitM β) : K (EmitM.fail fault >>= f) :=
  closed.fail fault

theorem pop (expected : ValueKind) : K (EmitM.pop expected) := by
  refine closed.bind closed.dropTop fun taken => ?_
  cases taken with
  | none => exact closed.fail _
  | some kind =>
    dsimp only
    split
    · exact closed.lower _
    · exact closed.fail _

theorem forM {f : ValueKind → EmitM PUnit} (each : ∀ kind, K (f kind)) (kinds : List ValueKind) :
    K (kinds.forM f) := by
  induction kinds with
  | nil => exact closed.pure _
  | cons kind kinds ih => exact closed.bind (each kind) fun _ => ih

theorem raw {i : Instruction Label} (allowed : i.Straight → K (EmitM.append i))
    (pops pushes : List ValueKind) : K (EmitM.raw i pops pushes) := by
  unfold EmitM.raw
  dsimp only
  by_cases unassigned : (!Opcode.isAssigned i.opcode) = true
  · rw [if_pos unassigned]
    exact closed.stop _ _
  rw [if_neg unassigned]
  by_cases bends : (!decide (i.flow = .sequential ∨ i.flow = .call)) = true
  · rw [if_pos bends]
    exact closed.stop _ _
  rw [if_neg bends]
  by_cases accesses : Opcode.accessesLocals i.opcode = true
  · rw [if_pos accesses]
    exact closed.stop _ _
  rw [if_neg accesses]
  have straight : i.Straight := by
    simpa [Instruction.Straight, or_iff_not_imp_left] using bends
  exact closed.bind (closed.forM closed.pop _) fun _ =>
    closed.bind (allowed straight) fun _ => closed.forM closed.push _

theorem pushInt (value : Int32) : K (EmitM.pushInt value) := by
  unfold EmitM.pushInt
  dsimp only
  split
  · rename_i small
    exact closed.bind (closed.append _ (tame_small small.1 small.2)) fun _ => closed.push _
  · split
    · exact closed.bind (closed.append _ ⟨.inl rfl, rfl⟩) fun _ => closed.push _
    · split
      · exact closed.bind (closed.append _ ⟨.inl rfl, rfl⟩) fun _ => closed.push _
      · refine closed.bind (closed.constant _ (Pool.usable_addInteger _) (Pool.repeats_addInteger _))
          fun index => ?_
        exact closed.bind (closed.append _ ⟨.inl rfl, rfl⟩) fun _ => closed.push _

theorem pushString (text : String) : K (EmitM.pushString text) :=
  closed.bind (closed.constant _ (Pool.usable_addString _) (Pool.repeats_addString _)) fun _ =>
    closed.bind (closed.append _ ⟨.inl rfl, rfl⟩) fun _ => closed.push _

theorem copyBase (kind : ValueKind) : K (EmitM.copyBase kind) := by
  refine closed.bind closed.emitter fun e => ?_
  have copy : (Instruction.plain (if kind.slots = 2 then Opcode.dup2 else Opcode.dup) :
      Instruction Label).Tame := by
    split <;> exact ⟨.inl rfl, rfl⟩
  dsimp only
  split
  · exact closed.stop _ _
  · exact closed.bind (closed.append _ copy) fun _ => closed.push _

theorem copyReturnValue : K EmitM.copyReturnValue := by
  refine closed.bind closed.emitter fun e => ?_
  dsimp only
  split
  · exact closed.stop _ _
  · cases e.base with
    | none => exact closed.fail _
    | some kind => exact closed.copyBase kind

theorem copyException : K EmitM.copyException := by
  refine closed.bind closed.emitter fun e => ?_
  dsimp only
  split
  · exact closed.stop _ _
  · exact closed.copyBase _

theorem invokeStatic (owner name descriptor : String) :
    K (EmitM.invokeStatic owner name descriptor) := by
  unfold EmitM.invokeStatic
  split
  · exact closed.fail _
  · refine closed.bind (closed.forM closed.pop _) fun _ => ?_
    refine closed.bind (closed.constant _ (Pool.usable_addMethodRef _ _ _)
      (Pool.repeats_addMethodRef _ _ _)) fun index => ?_
    refine closed.bind (closed.append _ ⟨.inr rfl, rfl⟩) fun _ => ?_
    split
    · exact closed.push _
    · exact closed.pure _

theorem box (type : FieldType) : K (EmitM.box type) := by
  unfold EmitM.box
  split
  · exact closed.invokeStatic _ _ _
  · refine closed.bind closed.emitter fun e => ?_
    split
    · exact closed.fail _
    · exact closed.pure _

theorem checkcast (className : String) : K (EmitM.checkcast className) :=
  closed.bind (closed.pop _) fun _ =>
    closed.bind (closed.constant _ (Pool.usable_addClass _) (Pool.repeats_addClass _)) fun _ =>
      closed.bind (closed.append _ ⟨.inl rfl, rfl⟩) fun _ => closed.push _

theorem discard : K EmitM.discard := by
  refine closed.bind closed.emitter fun e => ?_
  split
  · exact closed.fail _
  · rename_i kind _
    refine closed.bind (closed.pop _) fun _ => closed.append _ ?_
    split <;> exact ⟨.inl rfl, rfl⟩

theorem perform {operation : Operation}
    (appends : ∀ i pops pushes, operation = .raw i pops pushes → i.Straight → K (EmitM.append i))
    (admits : ∀ value, operation = .constant value → K (inPool (Pool.add value))) :
    K operation.perform := by
  cases operation with
  | pushInt value => exact closed.bind (closed.pushInt value) fun _ => closed.pure _
  | pushString text => exact closed.bind (closed.pushString text) fun _ => closed.pure _
  | pushNull =>
    refine closed.bind (closed.bind (closed.append _ ⟨.inl rfl, rfl⟩) fun _ => ?_) fun _ =>
      closed.pure _
    exact closed.push _
  | copyReturnValue => exact closed.bind closed.copyReturnValue fun _ => closed.pure _
  | copyException => exact closed.bind closed.copyException fun _ => closed.pure _
  | box type => exact closed.bind (closed.box type) fun _ => closed.pure _
  | invokeStatic owner name descriptor =>
    exact closed.bind (closed.invokeStatic owner name descriptor) fun _ => closed.pure _
  | checkcast className => exact closed.bind (closed.checkcast className) fun _ => closed.pure _
  | discard => exact closed.bind closed.discard fun _ => closed.pure _
  | swap => exact closed.bind closed.swap fun _ => closed.pure _
  | raw i pops pushes =>
    exact closed.bind (closed.raw (appends i pops pushes rfl) pops pushes) fun _ => closed.pure _
  | constant value => exact closed.bind (admits value rfl) fun _ => closed.pure _

end Closed

section Keeping
variable {I : Emission → Prop} (stable : Stable I)
include stable

theorem keeps_constant (use : ConstantUse) {operation : PoolM UInt16}
    (adds : operation.AddsUsable) :
    Keeps I (constant use operation) := by
  intro s holds
  have kept := stable.inPool operation adds s holds
  obtain ⟨pool, e⟩ := s
  unfold inPool at kept
  unfold constant
  dsimp only at kept ⊢
  cases run : operation pool with
  | ok a pool =>
    rw [run] at kept
    exact kept
  | error fault pool =>
    rw [run] at kept
    exact kept

theorem keeps_push (kind : ValueKind) : Keeps I (push kind) := by
  intro s holds
  rw [push_eq]
  by_cases room : s.emitter.depth.toNat + kind.slots ≤ 65535
  · rw [if_pos room]
    exact stable.silent s _ rfl rfl holds
  · rw [if_neg room]
    exact holds

theorem keeps_swap : Keeps I swap := by
  rintro ⟨pool, e⟩ holds
  unfold swap
  dsimp only
  rcases e.stack with _ | ⟨a, _ | ⟨b, rest⟩⟩
  · exact holds
  · exact holds
  · dsimp only
    by_cases single : a.slots = 1 ∧ b.slots = 1
    · rw [if_pos single]
      have changed : I ⟨pool, { e with stack := b :: a :: rest }⟩ :=
        stable.silent ⟨pool, e⟩ _ rfl rfl holds
      exact stable.append _ ⟨.inl rfl, rfl⟩ _ changed
    · rw [if_neg single]
      exact holds

theorem closed_keeps : Closed fun x => Keeps I x where
  pure := keeps_pure
  bind := keeps_bind
  fail _ := fun _ holds => holds
  emitter := fun _ holds => holds
  push := keeps_push stable
  dropTop := fun s holds => stable.silent s _ rfl rfl holds
  lower _ := fun s holds => stable.silent s _ rfl rfl holds
  swap := keeps_swap stable
  append := stable.append
  constant use _ adds _ := keeps_constant stable use adds

theorem keeps_perform {operation : Operation} (allowed : operation.Allowed I)
    (admits : ∀ value, operation = .constant value → Keeps I (inPool (Pool.add value))) :
    Keeps I operation.perform := by
  refine (closed_keeps stable).perform ?_ admits
  rintro i pops pushes rfl
  exact allowed

end Keeping
end EmitM

theorem finish_ok {e : Emitter} {hook : Hook} (finished : e.finish = .ok hook) :
    e.stack = [] ∧ hook = ⟨e.instructions.toList, e.maxDepth⟩ := by
  unfold Emitter.finish at finished
  split at finished
  · rename_i none
    cases finished
    exact ⟨none, rfl⟩
  · cases finished

theorem emit_ok {p : Policy} {site : Site} {pool pool' : Pool} {hook : Hook}
    (run : p.emit site pool = .ok hook pool') :
    ∃ s, (p.script site).run ⟨pool, Emitter.start p.name site⟩ = .ok () s ∧ s.pool = pool' ∧
      s.emitter.finish = .ok hook := by
  unfold Policy.emit at run
  cases emitted : (p.script site).run ⟨pool, Emitter.start p.name site⟩ with
  | error e s =>
    rw [emitted] at run
    cases run
  | ok _ s =>
    rw [emitted] at run
    refine ⟨s, rfl, ?_⟩
    dsimp only at run
    split at run
    · rename_i finished
      cases run
      exact ⟨rfl, finished⟩
    · cases run

def Emission.All (P : Instruction Label → Prop) (s : Emission) : Prop :=
  ∀ i ∈ s.emitter.instructions, P i

theorem append_all {P : Instruction Label → Prop} {i : Instruction Label} (here : P i) :
    Keeps (Emission.All P) (EmitM.append i) := by
  intro s holds j member
  rcases Array.mem_push.mp member with before | rfl
  · exact holds j before
  · exact here

theorem inPool_all {P : Instruction Label → Prop} (operation : PoolM α) :
    Keeps (Emission.All P) (EmitM.inPool operation) := by
  rintro ⟨pool, e⟩ holds
  unfold EmitM.inPool
  dsimp only
  cases operation pool with
  | ok a pool => exact holds
  | error e pool => exact holds

theorem stable_all {P : Instruction Label → Prop} (tame : ∀ i : Instruction Label, i.Tame → P i) :
    Emission.Stable (Emission.All P) := by
  refine ⟨fun s s' _ same holds => ?_, fun i easy => append_all (tame i easy),
    fun operation _ => inPool_all operation⟩
  unfold Emission.All
  rw [← same]
  exact holds

section InPool
variable {J : Pool → Prop}

theorem keeps_inPool {operation : PoolM α} (keeps : Keeps J operation) :
    Keeps (fun s => J s.pool) (EmitM.inPool operation) := by
  rintro ⟨pool, e⟩ holds
  have kept := keeps pool holds
  unfold EmitM.inPool
  dsimp only
  cases run : operation pool with
  | ok a pool =>
    rw [run] at kept
    exact kept
  | error fault pool =>
    rw [run] at kept
    exact kept

/-- What the pool keeps when usable constants are added, every operation keeps but a request for
the unusable one. -/
theorem stable_pool (each : ∀ c, c ≠ .unusable → Keeps J (Pool.add c)) :
    Emission.Stable fun s => J s.pool :=
  ⟨fun _ _ same _ holds => same ▸ holds, fun _ _ _ holds => holds,
    fun _ adds => keeps_inPool (adds J each)⟩

theorem allowed_pool (operation : Operation) : operation.Allowed fun s => J s.pool := by
  cases operation with
  | raw i _ _ => exact fun _ s holds => holds
  | _ => trivial

theorem perform_keeps_pool (each : ∀ c, Keeps J (Pool.add c)) (operation : Operation) :
    Keeps (fun s => J s.pool) operation.perform :=
  EmitM.keeps_perform (stable_pool fun c _ => each c) (allowed_pool operation)
    fun value _ => keeps_inPool (each value)

theorem run_keeps_pool (each : ∀ c, Keeps J (Pool.add c)) (script : Script) :
    Keeps (fun s => J s.pool) script.run :=
  Script.keeps_run (Q := fun _ => True) (fun operation _ => perform_keeps_pool each operation)
    (Script.performs_of_forall (fun _ => trivial) script)

end InPool

/-- What every addition keeps, a policy keeps. -/
theorem emit_keeps {J : Pool → Prop} (each : ∀ c, Keeps J (Pool.add c)) {p : Policy} {site : Site}
    {pool pool' : Pool} {hook : Hook} (before : J pool) (run : p.emit site pool = .ok hook pool') :
    J pool' := by
  obtain ⟨s, emitted, rfl, _⟩ := emit_ok run
  exact holds_of_keeps (I := fun s => J s.pool) (run_keeps_pool each _) before emitted

/-- What the empty hook has and every policy keeps, the hook of the chain has. -/
theorem chain_emit_induction {J : Pool → Hook → Prop} {chain : Chain} {site : Site}
    {pool pool' : Pool} {hook : Hook} (start : J pool Hook.empty)
    (each : ∀ p ∈ chain.policies, ∀ before after done own, J before done →
      p.emit site before = .ok own after → J after (done.append own))
    (run : chain.emit site pool = .ok hook pool') : J pool' hook := by
  obtain ⟨policies, distinct⟩ := chain
  unfold Chain.emit at run
  dsimp only at run each
  generalize Hook.empty = done at run start
  clear distinct
  induction policies generalizing done pool with
  | nil =>
    cases run
    exact start
  | cons p policies ih =>
    rw [List.foldlM_cons] at run
    rw [List.forall_mem_cons] at each
    obtain ⟨joined, middle, here, rest⟩ := state_bind_ok_iff.mp run
    obtain ⟨own, after, emitted, same⟩ := state_bind_ok_iff.mp here
    obtain ⟨rfl, rfl⟩ := state_pure_ok_iff.mp same
    exact ih each.2 _ rest (each.1 _ _ _ _ start emitted)

theorem chain_emit_keeps {J : Pool → Prop} (each : ∀ c, Keeps J (Pool.add c)) {chain : Chain}
    {site : Site} {pool pool' : Pool} {hook : Hook} (before : J pool)
    (run : chain.emit site pool = .ok hook pool') : J pool' :=
  chain_emit_induction (J := fun pool _ => J pool) before
    (fun _ _ _ _ _ _ holds emitted => emit_keeps each holds emitted) run

section Hooks
variable {P : Instruction Label → Prop} (tame : ∀ i : Instruction Label, i.Tame → P i)
include tame

theorem emit_all {p : Policy} {site : Site}
    (allowed : (p.script site).Performs (·.Allowed (Emission.All P)))
    {pool pool' : Pool} {hook : Hook} (run : p.emit site pool = .ok hook pool') :
    ∀ i ∈ hook.instructions, P i := by
  obtain ⟨s, emitted, _, finished⟩ := emit_ok run
  obtain ⟨_, rfl⟩ := finish_ok finished
  have kept := holds_of_keeps (I := Emission.All P)
    (Script.keeps_run (fun _ fine => EmitM.keeps_perform (stable_all tame) fine fun value _ =>
      inPool_all (Pool.add value)) allowed)
    (fun i member => by simp [Emitter.start] at member) emitted
  intro i member
  exact kept i (Array.mem_toList_iff.mp member)

theorem chain_emit_all {chain : Chain} {site : Site}
    (allowed : ∀ p ∈ chain.policies, (p.script site).Performs (·.Allowed (Emission.All P)))
    {pool pool' : Pool} {hook : Hook} (run : chain.emit site pool = .ok hook pool') :
    ∀ i ∈ hook.instructions, P i := by
  refine chain_emit_induction (J := fun _ hook => ∀ i ∈ hook.instructions, P i) ?_ ?_ run
  · intro i member
    simp [Hook.empty] at member
  · intro p member _ _ done own before emitted i inside
    rcases List.mem_append.mp inside with old | new
    · exact before i old
    · exact emit_all tame (allowed p member) emitted i new

end Hooks

/-- Hook code goes straight on, whatever the policies do. -/
theorem chain_emit_straight {chain : Chain} {site : Site} {pool pool' : Pool} {hook : Hook}
    (run : chain.emit site pool = .ok hook pool') : ∀ i ∈ hook.instructions, i.Straight := by
  refine chain_emit_all (fun _ tame => tame.1) (fun p _ => ?_) run
  refine Script.performs_of_forall (fun operation => ?_) _
  cases operation with
  | raw i _ _ => exact append_all
  | _ => trivial

/-- A chain whose policies emit no raw instruction that names a place. -/
def Chain.NamesNothing (chain : Chain) : Prop :=
  ∀ p ∈ chain.policies, ∀ site, (p.script site).Performs fun operation =>
    operation.Allowed (Emission.All fun i => i.targets = [])

theorem callbacks_name_nothing {chain : Chain}
    (callbacks : ∀ p ∈ chain.policies, ∃ c : Callback, p = c.policy) : chain.NamesNothing := by
  intro p member site
  obtain ⟨c, rfl⟩ := callbacks p member
  refine Script.performs_ofOperations fun operation performed => ?_
  cases operation with
  | raw i pops pushes =>
    exfalso
    revert performed
    unfold Callback.operations Callback.pushValue Callback.pushNames Callback.pushNamesUnder
    repeat' split
    all_goals simp
  | _ => trivial

theorem chain_emit_names_nothing {chain : Chain} (names : chain.NamesNothing) {site : Site}
    {pool pool' : Pool} {hook : Hook} (run : chain.emit site pool = .ok hook pool') :
    ∀ i ∈ hook.instructions, i.targets = [] :=
  chain_emit_all (fun _ tame => tame.2) (fun p member => names p member site) run

end ClassHooks
