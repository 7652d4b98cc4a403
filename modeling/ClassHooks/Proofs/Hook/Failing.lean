import ClassHooks.Proofs.Hook.Soundness

/-!
What operations that fail leave behind. They emit nothing, but an operation that takes values off the
stack looks at them as it takes them: those that it has taken are gone, with the one that it did not
expect. A policy that goes on after such a failure may leave values of which its emitter knows
nothing.
-/
namespace ClassHooks

/-- What is left when kinds are taken off a stack up to the first that is not there. The value found
in the place of that one is gone too. -/
def afterTaking : (kinds stack : List ValueKind) → List ValueKind
  | [], stack => stack
  | _ :: _, [] => []
  | k :: ks, own :: stack => if own = k then afterTaking ks stack else stack

def slotsTaken : (kinds stack : List ValueKind) → Nat
  | k :: ks, own :: stack => if own = k then k.slots + slotsTaken ks stack else 0
  | _, _ => 0

theorem afterTaking_suffix (kinds stack : List ValueKind) : afterTaking kinds stack <:+ stack := by
  induction kinds generalizing stack with
  | nil => exact List.suffix_refl stack
  | cons k ks ih =>
    cases stack with
    | nil => exact List.suffix_refl []
    | cons own stack =>
      rw [afterTaking]
      split
      · exact (ih stack).trans (List.suffix_cons own stack)
      · exact List.suffix_cons own stack

theorem afterTaking_eq_iff {kinds stack : List ValueKind} :
    afterTaking kinds stack = stack ↔ kinds = [] ∨ stack = [] := by
  cases kinds with
  | nil => simp [afterTaking]
  | cons k ks =>
    cases stack with
    | nil => simp [afterTaking]
    | cons own stack =>
      have lost : (afterTaking (k :: ks) (own :: stack)).length ≤ stack.length := by
        rw [afterTaking]
        split
        · exact (afterTaking_suffix ks stack).length_le
        · exact Nat.le_refl _
      constructor
      · intro same
        rw [same, List.length_cons] at lost
        omega
      · intro none
        simp at none

namespace Emitter

def without (e : Emitter) (kinds : List ValueKind) : Emitter :=
  { e with
    stack := afterTaking kinds e.stack
    depth := e.depth - UInt16.ofNat (slotsTaken kinds e.stack) }

theorem without_eq_self {e : Emitter} {kinds : List ValueKind} (spared : kinds = [] ∨ e.stack = []) :
    e.without kinds = e := by
  obtain ⟨policy, event, base, stack, depth, peak, is⟩ := e
  change kinds = [] ∨ stack = [] at spared
  have none : slotsTaken kinds stack = 0 := by
    rcases spared with rfl | rfl
    · rfl
    · cases kinds <;> rfl
  simp [without, afterTaking_eq_iff.mpr spared, none]

theorem without_eq_iff {e : Emitter} {kinds : List ValueKind} :
    e.without kinds = e ↔ kinds = [] ∨ e.stack = [] := by
  constructor
  · intro same
    exact afterTaking_eq_iff.mp (congrArg Emitter.stack same)
  · exact without_eq_self

theorem without_cons {e : Emitter} {k : ValueKind} {ks : List ValueKind}
    (here : e.stack.head? = some k) : (e.without [k]).without ks = e.without (k :: ks) := by
  obtain ⟨policy, event, base, stack, depth, peak, is⟩ := e
  cases stack with
  | nil => cases here
  | cons own stack =>
    obtain rfl : own = k := by simpa using here
    simp [without, afterTaking, slotsTaken, sub_sub]

theorem without_cons_of_ne {e : Emitter} {k : ValueKind} {ks : List ValueKind}
    (other : e.stack.head? ≠ some k) : e.without (k :: ks) = e.without [k] := by
  obtain ⟨policy, event, base, stack, depth, peak, is⟩ := e
  cases stack with
  | nil => rfl
  | cons own stack =>
    have differs : own ≠ k := by simpa using other
    simp [without, afterTaking, slotsTaken, differs]

end Emitter

namespace Operation

def arguments (descriptor : String) : List ValueKind :=
  match MethodDescriptor.parse descriptor with
  | .ok d => (d.parameters.map FieldType.kind).reverse
  | .error _ => []

def unboxed (type : FieldType) : List ValueKind :=
  match type.boxing? with
  | some (_, descriptor) => arguments descriptor
  | none => []

def declared (i : Instruction Label) (pops : List ValueKind) : List ValueKind :=
  if Opcode.isAssigned i.opcode ∧ (i.flow = .sequential ∨ i.flow = .call) ∧
      ¬ Opcode.accessesLocals i.opcode then pops.reverse
  else []

/-- What the operation takes off the stack before it can still fail, the top first. -/
def taken : Operation → List ValueKind
  | .box type => unboxed type
  | .invokeStatic _ _ descriptor => arguments descriptor
  | .checkcast _ => [.reference]
  | .raw i pops _ => declared i pops
  | _ => []

end Operation

namespace EmitM
variable {s t : Emission} {error : Error}

theorem pop_runs {k : ValueKind} (here : s.emitter.stack.head? = some k) :
    pop k s = .ok () ⟨s.pool, s.emitter.without [k]⟩ := by
  obtain ⟨pool, policy, event, base, stack, depth, peak, is⟩ := s
  cases stack with
  | nil => cases here
  | cons own rest =>
    obtain rfl : own = k := by simpa using here
    refine state_bind_ok_iff.mpr ⟨some own, _, rfl, ?_⟩
    simp only [if_pos, Emitter.without, afterTaking, slotsTaken, Nat.add_zero]
    rfl

theorem pop_fails {k : ValueKind} (other : s.emitter.stack.head? ≠ some k) :
    ∃ fault, pop k s =
      .error (.hook s.emitter.policy fault) ⟨s.pool, s.emitter.without [k]⟩ := by
  obtain ⟨pool, policy, event, base, stack, depth, peak, is⟩ := s
  cases stack with
  | nil =>
    refine ⟨.belowOwnValues k, ?_⟩
    rw [Emitter.without_eq_self (.inr rfl)]
    rfl
  | cons own rest =>
    have differs : own ≠ k := by simpa using other
    refine ⟨.unexpectedKind k own,
      state_bind_error_iff.mpr (.inr ⟨some own, _, rfl, ?_⟩)⟩
    have untouched : depth - UInt16.ofNat 0 = depth := UInt16.sub_zero depth
    simp only [if_neg differs, Emitter.without, afterTaking, slotsTaken, untouched]
    rfl

theorem pop_ok {k : ValueKind} (run : pop k s = .ok () t) :
    s.emitter.stack.head? = some k ∧ t.emitter = s.emitter.without [k] := by
  by_cases here : s.emitter.stack.head? = some k
  · rw [pop_runs here] at run
    cases run
    exact ⟨here, rfl⟩
  · obtain ⟨error, fails⟩ := pop_fails here
    rw [fails] at run
    cases run

theorem pop_error {k : ValueKind} (run : pop k s = .error error t) :
    s.emitter.stack.head? ≠ some k ∧ t.emitter = s.emitter.without [k] := by
  by_cases here : s.emitter.stack.head? = some k
  · rw [pop_runs here] at run
    cases run
  · obtain ⟨_, fails⟩ := pop_fails here
    rw [fails] at run
    cases run
    exact ⟨here, rfl⟩

theorem forM_pop_ok {ks : List ValueKind} (run : ks.forM pop s = .ok () t) :
    t.emitter = s.emitter.without ks := by
  induction ks generalizing s with
  | nil =>
    cases run
    exact (Emitter.without_eq_self (.inl rfl)).symm
  | cons k ks ih =>
    obtain ⟨_, u, first, rest⟩ := state_bind_ok_iff.mp run
    obtain ⟨here, left⟩ := pop_ok first
    rw [ih rest, left, Emitter.without_cons here]

theorem forM_pop_error {ks : List ValueKind} (run : ks.forM pop s = .error error t) :
    t.emitter = s.emitter.without ks := by
  induction ks generalizing s with
  | nil => cases run
  | cons k ks ih =>
    rcases state_bind_error_iff.mp run with first | ⟨_, u, first, rest⟩
    · obtain ⟨other, left⟩ := pop_error first
      rw [left]
      exact (Emitter.without_cons_of_ne other).symm
    · obtain ⟨here, left⟩ := pop_ok first
      rw [ih rest, left, Emitter.without_cons here]

theorem constant_error {use : ConstantUse} {operation : PoolM UInt16}
    (run : constant use operation s = .error error t) : t.emitter = s.emitter := by
  unfold constant at run
  cases added : operation s.pool with
  | ok index q =>
    simp only [added] at run
    cases run
  | error e q =>
    simp only [added] at run
    cases run
    rfl

theorem push_reports_nothing (told : error.isReported = true) {k : ValueKind} :
    push k s ≠ .error error t := by
  intro run
  obtain ⟨_, rfl, _⟩ := push_error_iff.mp run
  cases told

theorem forM_push_reports_nothing (told : error.isReported = true) {ks : List ValueKind} :
    ks.forM push s ≠ .error error t := by
  induction ks generalizing s with
  | nil => nofun
  | cons k ks ih =>
    intro run
    rcases state_bind_error_iff.mp run with first | ⟨_, u, _, rest⟩
    · exact push_reports_nothing told first
    · exact ih rest

theorem append_bind_error {i : Instruction Label} {next : EmitM Unit}
    (run : (append i >>= fun _ => next) s = .error error t) :
    ∃ u, next u = .error error t := by
  rcases state_bind_error_iff.mp run with first | ⟨_, u, _, rest⟩
  · cases first
  · exact ⟨u, rest⟩

theorem constant_bind_error {use : ConstantUse} {operation : PoolM UInt16}
    {next : UInt16 → EmitM Unit} (silent : ∀ index u, next index u ≠ .error error t)
    (run : (constant use operation >>= next) s = .error error t) : t.emitter = s.emitter := by
  rcases state_bind_error_iff.mp run with first | ⟨index, u, _, rest⟩
  · exact constant_error first
  · exact absurd rest (silent index u)

section Reported
variable (told : error.isReported = true)
include told

theorem emit_reports_nothing {i : Instruction Label} {k : ValueKind} :
    (append i >>= fun _ => push k) s ≠ .error error t := by
  intro run
  obtain ⟨u, rest⟩ := append_bind_error run
  exact push_reports_nothing told rest

theorem pushInt_error {value : Int32} (run : pushInt value s = .error error t) :
    t.emitter = s.emitter := by
  unfold pushInt at run
  dsimp only at run
  split at run
  · exact absurd run (emit_reports_nothing told)
  split at run
  · exact absurd run (emit_reports_nothing told)
  split at run
  · exact absurd run (emit_reports_nothing told)
  · exact constant_bind_error (fun _ _ => emit_reports_nothing told) run

theorem copyBase_error {k : ValueKind} (run : copyBase k s = .error error t) :
    t.emitter = s.emitter := by
  rcases state_bind_error_iff.mp run with looked | ⟨e, u, looked, run⟩
  · cases looked
  cases looked
  dsimp only at run
  split at run
  · cases run
    rfl
  · exact absurd run (emit_reports_nothing told)

theorem copyReturnValue_error (run : copyReturnValue s = .error error t) :
    t.emitter = s.emitter := by
  rcases state_bind_error_iff.mp run with looked | ⟨e, u, looked, run⟩
  · cases looked
  cases looked
  dsimp only at run
  split at run
  · cases run
    rfl
  · cases base : s.emitter.base with
    | none =>
      rw [base] at run
      cases run
      rfl
    | some k =>
      rw [base] at run
      exact copyBase_error told run

theorem copyException_error (run : copyException s = .error error t) : t.emitter = s.emitter := by
  rcases state_bind_error_iff.mp run with looked | ⟨e, u, looked, run⟩
  · cases looked
  cases looked
  dsimp only at run
  split at run
  · cases run
    rfl
  · exact copyBase_error told run

theorem invokeStatic_error {owner name descriptor : String}
    (run : invokeStatic owner name descriptor s = .error error t) :
    t.emitter = s.emitter.without (Operation.arguments descriptor) := by
  unfold invokeStatic at run
  unfold Operation.arguments
  cases parsed : MethodDescriptor.parse descriptor with
  | error cause =>
    rw [parsed] at run
    cases run
    exact (Emitter.without_eq_self (.inl rfl)).symm
  | ok d =>
    rw [parsed] at run
    rcases state_bind_error_iff.mp run with first | ⟨_, u, first, rest⟩
    · exact forM_pop_error first
    · rw [← forM_pop_ok first]
      refine constant_bind_error (fun index v failed => ?_) rest
      obtain ⟨w, last⟩ := append_bind_error failed
      cases given : d.returnKind with
      | none =>
        rw [given] at last
        cases last
      | some k =>
        rw [given] at last
        exact push_reports_nothing told last

theorem box_error {type : FieldType} (run : box type s = .error error t) :
    t.emitter = s.emitter.without (Operation.unboxed type) := by
  unfold box at run
  unfold Operation.unboxed
  cases boxed : type.boxing? with
  | some wrapper =>
    rw [boxed] at run
    exact invokeStatic_error told run
  | none =>
    rw [boxed] at run
    rcases state_bind_error_iff.mp run with looked | ⟨e, u, looked, run⟩
    · cases looked
    cases looked
    split at run
    · cases run
      exact (Emitter.without_eq_self (.inl rfl)).symm
    · cases run

theorem checkcast_error {className : String} (run : checkcast className s = .error error t) :
    t.emitter = s.emitter.without [.reference] := by
  rcases state_bind_error_iff.mp run with first | ⟨_, u, first, rest⟩
  · exact (pop_error first).2
  · rw [← (pop_ok first).2]
    exact constant_bind_error (fun _ _ => emit_reports_nothing told) rest

omit told in
theorem discard_error (run : discard s = .error error t) : t.emitter = s.emitter := by
  rcases state_bind_error_iff.mp run with looked | ⟨e, u, looked, run⟩
  · cases looked
  cases looked
  cases top : s.emitter.top with
  | none =>
    rw [top] at run
    cases run
    rfl
  | some k =>
    rw [top] at run
    rcases state_bind_error_iff.mp run with first | ⟨_, u, _, rest⟩
    · exact absurd top (pop_error first).1
    · cases rest

omit told in
theorem swap_error (run : swap s = .error error t) : t.emitter = s.emitter := by
  unfold swap at run
  dsimp only at run
  split at run
  · split at run
    · cases run
    · cases run
      rfl
  · cases run
    rfl

theorem raw_error {i : Instruction Label} {pops pushes : List ValueKind}
    (run : raw i pops pushes s = .error error t) :
    t.emitter = s.emitter.without (Operation.declared i pops) := by
  unfold raw at run
  unfold Operation.declared
  have refused : ∀ {fault : HookFault} {f : Unit → EmitM Unit},
      (fail fault >>= f) s = .error error t → t.emitter = s.emitter.without [] := by
    intro fault f run
    cases run
    exact (Emitter.without_eq_self (.inl rfl)).symm
  by_cases assigned : Opcode.isAssigned i.opcode = true
  · by_cases straight : i.flow = .sequential ∨ i.flow = .call
    · by_cases accesses : Opcode.accessesLocals i.opcode = true
      · rw [if_neg (fun passes => passes.2.2 accesses)]
        simp only [assigned, straight, accesses] at run
        exact refused run
      · rw [if_pos ⟨assigned, straight, accesses⟩]
        simp only [assigned, straight, accesses] at run
        rcases state_bind_error_iff.mp run with first | ⟨_, u, first, rest⟩
        · exact forM_pop_error first
        · obtain ⟨v, last⟩ := append_bind_error rest
          exact absurd last (forM_push_reports_nothing told)
    · rw [if_neg (fun passes => straight passes.2.1)]
      simp only [assigned, straight] at run
      exact refused run
  · rw [if_neg (fun passes => assigned passes.1)]
    simp only [assigned] at run
    exact refused run

end Reported

theorem inPool_error {α : Type} {operation : PoolM α} (run : inPool operation s = .error error t) :
    t.emitter = s.emitter := by
  unfold inPool at run
  cases added : operation s.pool with
  | ok a q =>
    simp only [added] at run
    cases run
  | error e q =>
    simp only [added] at run
    cases run
    rfl

end EmitM

section Operations
variable {s t : Emission} {error : Error} (told : error.isReported = true)
include told

/-- An operation that fails has attempted to take what it takes, and nothing more. -/
theorem perform_error {op : Operation} (run : op.perform s = .error error t) :
    t.emitter = s.emitter.without op.taken := by
  have silent : t.emitter = s.emitter → t.emitter = s.emitter.without [] := fun same =>
    same.trans (Emitter.without_eq_self (.inl rfl)).symm
  cases op <;> rcases state_bind_error_iff.mp run with here | ⟨_, _, _, done⟩ <;> try cases done
  case pushInt => exact silent (EmitM.pushInt_error told here)
  case pushString =>
    exact silent (EmitM.constant_bind_error (fun _ _ => EmitM.emit_reports_nothing told) here)
  case pushNull => exact absurd here (EmitM.emit_reports_nothing told)
  case copyReturnValue => exact silent (EmitM.copyReturnValue_error told here)
  case copyException => exact silent (EmitM.copyException_error told here)
  case box => exact EmitM.box_error told here
  case invokeStatic => exact EmitM.invokeStatic_error told here
  case checkcast => exact EmitM.checkcast_error told here
  case discard => exact silent (EmitM.discard_error here)
  case swap => exact silent (EmitM.swap_error here)
  case raw => exact EmitM.raw_error told here
  case constant => exact silent (EmitM.inPool_error here)

/-- A failure leaves the emitter as it was if there was nothing to take, or nothing to take it
from. -/
theorem unchanged_iff {op : Operation} (run : op.perform s = .error error t) :
    t.emitter = s.emitter ↔ op.taken = [] ∨ s.emitter.stack = [] := by
  rw [perform_error told run, Emitter.without_eq_iff]

end Operations

/-- The property holds of every operation that the script comes to from this state, with the state
in which it is performed. A script that is not told of a failure does not go on. -/
def Script.Along (P : Emission → Operation → Prop) : Script → Emission → Prop
  | .done, _ => True
  | .fail _, _ => True
  | .perform operation next, s => P s operation ∧
    match operation.perform s with
    | .ok answer t => (next (.ok answer)).Along P t
    | .error error t => error.isReported = true → (next (.error error)).Along P t

/-- In this state the operation does what the account of the emitter says, also when it fails. -/
structure Operation.Kept (final : Pool) (s : Emission) (op : Operation) : Prop where
  fair : op.Fair final
  spares : ∀ error t, op.perform s = .error error t → op.taken = [] ∨ s.emitter.stack = []

section Scripts
variable {final : Pool} {site : Site}

theorem grows_of_script {script : Script} {s t : Emission} (run : script.run s = .ok () t) :
    s.pool.Grows t.pool :=
  holds_of_keeps (I := fun u => s.pool.Grows u.pool) (run_keeps_pool Pool.keeps_grows script)
    (Pool.grows_refl s.pool) run

theorem tracked_failure {s t : Emission} (tracked : s.Tracked final site) {op : Operation}
    {error : Error} (told : error.isReported = true) (run : op.perform s = .error error t)
    (spares : op.taken = [] ∨ s.emitter.stack = []) : t.Tracked final site := by
  have same : t.emitter = s.emitter := (unchanged_iff told run).mpr spares
  have beyond : s.pool.Beyond t.pool := by
    have after := perform_keeps_pool Pool.keeps_add op s (Pool.beyond_self tracked.sound)
    rw [run] at after
    exact after
  obtain ⟨pool, emitter⟩ := t
  cases same
  exact tracked_pool tracked beyond.sound

theorem tracked_script {script : Script} {s t : Emission} (tracked : s.Tracked final site)
    (run : script.run s = .ok () t) (later : t.pool.Grows final)
    (kept : script.Along (Operation.Kept final) s) : t.Tracked final site := by
  induction script generalizing s with
  | done =>
    cases run
    exact tracked
  | fail error => cases run
  | perform op next ih =>
    unfold Script.Along at kept
    obtain ⟨here, rest⟩ := kept
    unfold Script.run at run
    cases performed : op.perform s with
    | ok answer u =>
      rw [performed] at run rest
      have grows : u.pool.Grows final := Pool.grows_trans (grows_of_script run) later
      exact ih _ (tracked_perform tracked here.fair grows performed) run rest
    | error error u =>
      rw [performed] at run rest
      dsimp only at run
      split at run
      · rename_i told
        exact ih _ (tracked_failure tracked told performed (here.spares error u performed)) run
          (rest told)
      · cases run

end Scripts

/-- A failing operation attempts to take what it takes; it has no effect exactly if it takes nothing
or the hook has nothing on the stack. A policy all of whose failures are so is sound, also if it goes
on after them. -/
theorem failures_without_effect (p : Policy) (site : Site) :
    (∀ (op : Operation) (s t : Emission) (error : Error),
      op.perform s = .error error t → error.isReported = true →
      t.emitter = s.emitter.without op.taken ∧
        (t.emitter = s.emitter ↔ op.taken = [] ∨ s.emitter.stack = [])) ∧
      ∀ (pool pool' final : Pool) (hook : Hook), pool.Reached →
        p.emit site pool = .ok hook pool' → pool'.Grows final →
        (p.script site).Along (Operation.Kept final) ⟨pool, Emitter.start p.name site⟩ →
        ∃ own, ∀ (ν : Type) (kind : ν → ValueKind), (∀ k, ∃ v, kind v = k) →
          hook.Safe kind final site.base own := by
  constructor
  · intro op s t error run told
    exact ⟨perform_error told run, unchanged_iff told run⟩
  · intro pool pool' final hook reached run later kept
    obtain ⟨s, emitted, rfl, finished⟩ := emit_ok run
    have start : Emission.Tracked final site ⟨pool, Emitter.start p.name site⟩ :=
      tracked_start (Pool.sound_of_reached reached) p.name
    have tracked := tracked_script start emitted later kept
    exact safe_of_tracked tracked finished

def Policy.hook? (p : Policy) (site : Site) (pool : Pool) : Option Hook :=
  match p.emit site pool with
  | .ok hook _ => some hook
  | .error _ _ => none

theorem emit_of_hook {p : Policy} {site : Site} {pool : Pool} {hook : Hook}
    (emits : p.hook? site pool = some hook) : ∃ pool', p.emit site pool = .ok hook pool' := by
  unfold Policy.hook? at emits
  cases run : p.emit site pool with
  | error error pool' =>
    rw [run] at emits
    cases emits
  | ok own pool' =>
    rw [run] at emits
    cases emits
    exact ⟨pool', rfl⟩

def atStart : Site := ⟨⟨"a/B", "m", "()V"⟩, .enter, none⟩

def clumsy : Policy :=
  ⟨"p", fun _ => .perform (.checkcast "a/B") fun _ => .perform (.pushInt 1) fun _ =>
    .perform .swap fun _ => .perform .discard fun _ => .done⟩

theorem clumsy_without_effect : ∃ pool own,
    clumsy.emit atStart Pool.empty = .ok ⟨[.plain 4, .plain Opcode.pop], 1⟩ pool ∧
      (clumsy.script atStart).Along (Operation.Kept pool)
        ⟨Pool.empty, Emitter.start clumsy.name atStart⟩ ∧
      ∀ (ν : Type) (kind : ν → ValueKind), (∀ k, ∃ v, kind v = k) →
        Hook.Safe kind pool none ⟨[.plain 4, .plain Opcode.pop], 1⟩ own := by
  have emits : clumsy.hook? atStart Pool.empty =
      some ⟨[.plain 4, .plain Opcode.pop], 1⟩ := by decide +kernel
  obtain ⟨pool, run⟩ := emit_of_hook emits
  have kept : (clumsy.script atStart).Along (Operation.Kept pool)
      ⟨Pool.empty, Emitter.start clumsy.name atStart⟩ := by
    exact ⟨⟨trivial, fun _ _ _ => .inr rfl⟩, fun _ => ⟨⟨trivial, nofun⟩,
      ⟨trivial, fun _ _ _ => .inl rfl⟩, fun _ => ⟨⟨trivial, nofun⟩, trivial⟩⟩⟩
  obtain ⟨own, safe⟩ := (failures_without_effect clumsy atStart).2 _ _ _ _ .empty run
    (Pool.grows_refl pool) kept
  exact ⟨pool, own, run, kept, safe⟩

def careless : Policy :=
  ⟨"p", fun _ => .perform (.pushInt 1) fun _ => .perform (.checkcast "a/B") fun _ => .done⟩

/-- The failed cast has taken the number from the account, and so it stays on the stack unnoticed. -/
theorem careless_unbalanced : (∃ (s t : Emission) (error : Error),
    (Operation.pushInt 1).perform ⟨Pool.empty, Emitter.start "p" atStart⟩ = .ok none s ∧
      (Operation.checkcast "a/B").perform s = .error error t ∧
      s.emitter.top = some .int ∧ t.emitter.top = none ∧ t.emitter.depth = 1 ∧
      s.emitter.finish = .error (.hook "p" (.leftover 1))) ∧
    ∃ pool, careless.emit atStart Pool.empty = .ok ⟨[.plain 4], 1⟩ pool ∧
      Executes id pool [] [.plain 4] [.int] := by
  constructor
  · exact ⟨_, _, _, rfl, rfl, rfl, rfl, rfl, rfl⟩
  · have emits : careless.hook? atStart Pool.empty = some ⟨[.plain 4], 1⟩ := by decide +kernel
    obtain ⟨pool, run⟩ := emit_of_hook emits
    have pushes : Takes id pool (.plain 4) [] [.int] := .computes ⟨.nothing, rfl, rfl⟩ rfl rfl rfl
    exact ⟨pool, run, .next .none ⟨[], [.int], [], pushes, rfl, rfl⟩⟩

end ClassHooks
