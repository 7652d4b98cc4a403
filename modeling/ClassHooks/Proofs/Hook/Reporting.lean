import ClassHooks.Proofs.Descriptor.Grammar
import ClassHooks.Proofs.Hook.Failing
import ClassHooks.Proofs.Hook.Symbolic
import ClassHooks.Proofs.Pool.Slots

/-!
What callbacks report. Each operation of a callback has a meaning for the values of its hook, and the
instructions that it emits do what it means. So the code of a callback makes the call for its event,
with the arguments in their order, and leaves the stack as it was.
-/
namespace ClassHooks

section Meaning
variable {ν : Type}

def Machine.copyFound? (found : List ν) (m : Machine ν) : Option (Machine ν) :=
  match found, m.stack with
  | [v], [] => some (m.push (.found v))
  | _, _ => none

/-- What an operation does to the values of its hook, for the operations that callbacks perform. -/
def Operation.means? (site : Site) (kind : ν → ValueKind) (found : List ν) (m : Machine ν) :
    Operation → Option (Machine ν)
  | .pushString text => some (m.push (.text text))
  | .pushNull => some (m.push .null)
  | .copyReturnValue => if site.event = .return then m.copyFound? found else none
  | .copyException => if site.event = .error then m.copyFound? found else none
  | .box type =>
    match type.boxing? with
    | some (wrapper, descriptor) => m.call? kind wrapper "valueOf" descriptor
    | none => if (m.stack.map (Symbol.kind kind)).head? = some .reference then some m else none
  | .invokeStatic owner name descriptor => m.call? kind owner name descriptor
  | .swap => m.swap? kind
  | _ => none

def Operation.slots : Operation → Nat
  | .pushString _ => 2
  | .box type => if type.isPrimitive then 6 else 0
  | .invokeStatic _ _ _ => 6
  | _ => 0

/-- Operations one after the other, with values that take a limited number of slots at any time. -/
inductive Meaning (site : Site) (kind : ν → ValueKind) (found : List ν) (most : Nat) :
    Machine ν → List Operation → Machine ν → Prop where
  | none {m : Machine ν} : Meaning site kind found most m [] m
  | next {op : Operation} {ops : List Operation} {m m' last : Machine ν}
      (means : op.means? site kind found m = some m')
      (small : slotsOf (Symbol.kind kind) m'.stack ≤ most)
      (rest : Meaning site kind found most m' ops last) :
      Meaning site kind found most m (op :: ops) last

/-- The code emitted so far, run above what was found and anything below it, leads to the machine. -/
structure Emission.Reports (site : Site) (kind : ν → ValueKind) (found : List ν) (most : Nat)
    (s : Emission) (m : Machine ν) : Prop where
  sound : s.pool.Sound
  event : s.emitter.event = site.event
  base : s.emitter.base = site.base
  stack : s.emitter.stack = m.stack.map (Symbol.kind kind)
  depth : s.emitter.depth.toNat = slotsOf id s.emitter.stack
  high : slotsOf id s.emitter.stack ≤ s.emitter.maxDepth.toNat
  low : s.emitter.maxDepth.toNat ≤ most
  run : ∀ final, s.pool.Grows final → ∀ below,
    (Machine.start (found ++ below)).run? kind final s.emitter.instructions.toList =
      some (m.above (found ++ below))

end Meaning

def Emission.size (s : Emission) : Nat := s.pool.size

namespace EmitM
open Emission
variable {s : Emission}

theorem proceeds_constant (use : ConstantUse) {operation : PoolM UInt16} {n : Nat}
    {P : UInt16 → Pool → Prop} (run : Proceeds Pool.size n operation s.pool P) :
    Proceeds Emission.size n (constant use operation) s fun i t =>
      ∃ q, operation s.pool = .ok i q ∧ t = ⟨q, s.emitter⟩ := by
  obtain ⟨pool, e⟩ := s
  unfold Proceeds at run ⊢
  unfold constant
  dsimp only at run ⊢
  cases added : operation pool with
  | ok i q =>
    rw [added] at run
    exact ⟨⟨q, rfl, rfl⟩, run.2⟩
  | error fault q =>
    rw [added] at run
    exact run

theorem forM_pop_runs {ks rest : List ValueKind} (stack : s.emitter.stack = ks ++ rest) :
    ∃ t, ks.forM pop s = .ok () t ∧ Popped s t ks := by
  induction ks generalizing s with
  | nil => exact ⟨s, rfl, popped_nothing s⟩
  | cons k ks ih =>
    have first := pop_runs (s := s) (k := k) (by rw [stack]; rfl)
    have popped := popped_of_pop first
    have left : (s.emitter.without [k]).stack = ks ++ rest := by
      have split := popped.stack
      rw [stack] at split
      simpa using split.symm
    obtain ⟨t, others, popped'⟩ := ih (s := ⟨s.pool, s.emitter.without [k]⟩) left
    exact ⟨t, forM_cons_ok_iff.mpr ⟨_, first, others⟩, popped_append popped popped'⟩

end EmitM

section Operations
open Emission EmitM
variable {ν : Type} {site : Site} {kind : ν → ValueKind} {found : List ν} {most : Nat}
  {s t : Emission} {m m' : Machine ν}

theorem reports_emit (reports : s.Reports site kind found most m) {u : Emission} {q : Pool}
    {i : Instruction Label} {taken given : List ValueKind}
    (popped : Popped s u taken) (beyond : s.pool.Beyond q)
    (pushed : Pushed ⟨q, u.emitter.append i⟩ t given)
    (stack : t.emitter.stack = m'.stack.map (Symbol.kind kind))
    (small : slotsOf (Symbol.kind kind) m'.stack ≤ most)
    (steps : ∀ final, q.Grows final → ∀ below,
      (m.above (found ++ below)).step? kind final i = some (m'.above (found ++ below))) :
    t.Reports site kind found most m' := by
  have size : slotsOf id t.emitter.stack ≤ most := by rwa [stack, slotsOf_map]
  have less : slotsOf id u.emitter.stack ≤ u.emitter.maxDepth.toNat := by
    have high := reports.high
    rw [popped.stack, slotsOf_append] at high
    rw [popped.peak]
    omega
  obtain ⟨depth, peak⟩ := pushed.depths (popped.depth reports.depth) less
  have peak : t.emitter.maxDepth.toNat =
      max s.emitter.maxDepth.toNat (slotsOf id t.emitter.stack) := by
    rw [peak, ← popped.peak]
    rfl
  have low := reports.low
  refine ⟨?_, pushed.event.trans (popped.event.trans reports.event),
    pushed.base.trans (popped.base.trans reports.base), stack, depth, by omega, by omega, ?_⟩
  · rw [pushed.pool]
    exact beyond.sound
  · intro final later below
    rw [pushed.pool] at later
    have code : t.emitter.instructions.toList = s.emitter.instructions.toList ++ [i] := by
      rw [pushed.instructions, ← popped.instructions]
      exact Array.toList_push
    rw [code, Machine.run?_append, reports.run final (Pool.grows_trans beyond.grows later) below,
      Option.bind_some]
    simpa [Machine.run?] using steps final later below

theorem room_for_push (few : most ≤ 65535) {own : List (Symbol ν)} {v : Symbol ν}
    (depth : s.emitter.depth.toNat = slotsOf (Symbol.kind kind) own)
    (small : slotsOf (Symbol.kind kind) (v :: own) ≤ most) :
    s.emitter.depth.toNat + (v.kind kind).slots ≤ 65535 := by
  have total : slotsOf (Symbol.kind kind) (v :: own) =
      (v.kind kind).slots + slotsOf (Symbol.kind kind) own := by simp [slotsOf]
  omega

theorem reports_push (reports : s.Reports site kind found most m) (few : most ≤ 65535) {q : Pool}
    (beyond : s.pool.Beyond q) {i : Instruction Label} {v : Symbol ν}
    (small : slotsOf (Symbol.kind kind) (m.push v).stack ≤ most)
    (steps : ∀ final, q.Grows final → ∀ below,
      (m.above (found ++ below)).step? kind final i = some ((m.push v).above (found ++ below))) :
    ∃ t, push (v.kind kind) ⟨q, s.emitter.append i⟩ = .ok () t ∧ t.pool = q ∧
      t.Reports site kind found most (m.push v) := by
  have depth : s.emitter.depth.toNat = slotsOf (Symbol.kind kind) m.stack := by
    rw [reports.depth, reports.stack, slotsOf_map]
  have pushes : push (v.kind kind) ⟨q, s.emitter.append i⟩ =
      .ok () ⟨q, (s.emitter.append i).raised (v.kind kind)⟩ :=
    push_ok_iff.mpr ⟨room_for_push few depth small, rfl⟩
  have pushed := pushed_of_push pushes
  refine ⟨_, pushes, rfl, reports_emit reports (popped_nothing s) beyond pushed ?_ small steps⟩
  rw [pushed.stack]
  exact congrArg (v.kind kind :: ·) reports.stack

theorem reports_pushString (reports : s.Reports site kind found most m) (few : most ≤ 65535)
    {text : String} (small : slotsOf (Symbol.kind kind) (m.push (.text text)).stack ≤ most) :
    Proceeds Emission.size 2 (pushString text) s fun _ t =>
      t.Reports site kind found most (m.push (.text text)) := by
  refine proceeds_bind (m := 0)
    (proceeds_constant .string (Pool.proceeds_addString reports.sound text)) ?_
  rintro index _ ⟨q, added, rfl⟩
  obtain ⟨beyond, n, here, holds⟩ := Pool.addString_ok reports.sound added
  have steps : ∀ final, q.Grows final → ∀ below,
      (m.above (found ++ below)).step? kind final ⟨Opcode.ldc, .constant index⟩ =
        some ((m.push (.text text)).above (found ++ below)) := by
    intro final later below
    have held : final.stringAt? index = some text :=
      Pool.stringAt?_of_holdsText (later _ _ here) (Pool.holdsText_of_grows later holds)
    change (final.stringAt? index).map _ = _
    rw [held]
    rfl
  obtain ⟨t, pushes, same, after⟩ := reports_push reports few beyond small steps
  exact proceeds_of_ok (n := 0) pushes after (Nat.le_of_eq (congrArg Pool.size same))

theorem reports_pushNull (reports : s.Reports site kind found most m) (few : most ≤ 65535)
    (small : slotsOf (Symbol.kind kind) (m.push .null).stack ≤ most) :
    Proceeds Emission.size 0 pushNull s fun _ t =>
      t.Reports site kind found most (m.push .null) := by
  obtain ⟨t, pushes, same, after⟩ := reports_push reports few (Pool.beyond_self reports.sound)
    small (i := .plain Opcode.aconstNull) fun _ _ _ => rfl
  exact proceeds_of_ok pushes after (Nat.le_of_eq (congrArg Pool.size same))

theorem reports_copyBase (reports : s.Reports site kind found most m) (few : most ≤ 65535)
    {k : ValueKind} (copies : m.copyFound? found = some m') (kinds : found.map kind = [k])
    (small : slotsOf (Symbol.kind kind) m'.stack ≤ most) :
    Proceeds Emission.size 0 (copyBase k) s fun _ t => t.Reports site kind found most m' := by
  obtain ⟨v, rfl, rfl⟩ := List.map_eq_singleton_iff.mp kinds
  obtain ⟨stack, calls⟩ := m
  cases stack with
  | cons own rest => cases copies
  | nil =>
    cases copies
    have bare : s.emitter.stack.isEmpty = true := by
      rw [reports.stack]
      rfl
    have steps : ∀ final, s.pool.Grows final → ∀ below,
        ((⟨[], calls⟩ : Machine ν).above ([v] ++ below)).step? kind final
            (.plain (if (kind v).slots = 2 then Opcode.dup2 else Opcode.dup)) =
          some (((⟨[], calls⟩ : Machine ν).push (.found v)).above ([v] ++ below)) := by
      intro final _ below
      cases known : kind v <;>
        simp [Machine.step?, Machine.copy?, Machine.above, Machine.push, Instruction.plain,
          Symbol.kind, known, ValueKind.slots, Opcode.dup, Opcode.dup2, Opcode.aconstNull]
    obtain ⟨t, pushes, same, after⟩ := reports_push reports few (Pool.beyond_self reports.sound)
      small steps
    have run : copyBase (kind v) s = .ok () t := by
      unfold copyBase
      refine state_bind_ok_iff.mpr ⟨s.emitter, s, rfl, ?_⟩
      rw [bare]
      exact pushes
    exact proceeds_of_ok run after (Nat.le_of_eq (congrArg Pool.size same))

theorem reports_invokeStatic (reports : s.Reports site kind found most m) (few : most ≤ 65535)
    {owner name descriptor : String} (calls : m.call? kind owner name descriptor = some m')
    (small : slotsOf (Symbol.kind kind) m'.stack ≤ most) :
    Proceeds Emission.size 6 (invokeStatic owner name descriptor) s fun _ t =>
      t.Reports site kind found most m' := by
  have above := fun below => Machine.call?_above calls (found ++ below)
  obtain ⟨d, taken, rest, parsed, stack, kinds, rfl⟩ := Machine.call?_some calls
  have own : s.emitter.stack =
      (d.parameters.map FieldType.kind).reverse ++ rest.map (Symbol.kind kind) := by
    rw [reports.stack, stack, List.map_append, kinds]
  obtain ⟨u, pops, popped⟩ := forM_pop_runs own
  have left : u.emitter.stack = rest.map (Symbol.kind kind) := by
    have split := popped.stack
    rw [own] at split
    exact (List.append_cancel_left split).symm
  have sound := reports.sound
  rw [← popped.pool] at sound
  unfold invokeStatic
  rw [parsed]
  refine proceeds_bind (n := 0) (m := 6) (P := fun _ t => u = t)
    (proceeds_of_ok pops rfl (Nat.le_of_eq (congrArg Pool.size popped.pool))) ?_
  rintro _ _ rfl
  refine proceeds_bind (m := 0) (proceeds_constant .methodReference
    (Pool.proceeds_addMethodRef sound owner name descriptor)) ?_
  rintro index _ ⟨q, added, rfl⟩
  obtain ⟨beyond, here⟩ := Pool.addMethodRef_ok sound added
  have settled : ∀ t answer, d.returnKind.toList = answer →
      Pushed ⟨q, u.emitter.append ⟨Opcode.invokestatic, .constant index⟩⟩ t answer →
      t.Reports site kind found most ⟨d.returnKind.toList.map (.answer m.calls.length) ++ rest,
        m.calls ++ [⟨owner, name, descriptor, taken.reverse⟩]⟩ := by
    rintro t _ rfl pushed
    refine reports_emit reports popped (popped.pool ▸ beyond) pushed ?_ small ?_
    · rw [pushed.stack]
      cases d.returnKind <;> simp [Emitter.append, left, Symbol.kind]
    · intro final later below
      have called := Pool.calledAt?_of_holdsMethod (Pool.holdsMethod_of_grows later here)
      rw [Machine.step?_call called]
      exact above below
  cases given : d.returnKind with
  | none =>
    rw [given] at settled
    exact proceeds_of_ok rfl (settled _ _ rfl (pushed_nothing _)) (Nat.le_refl _)
  | some k =>
    rw [given] at settled small
    have depth : u.emitter.depth.toNat = slotsOf (Symbol.kind kind) rest := by
      rw [popped.depth reports.depth, left, slotsOf_map]
    have pushes := push_ok_iff.mpr ⟨room_for_push few
      (s := ⟨q, u.emitter.append ⟨Opcode.invokestatic, .constant index⟩⟩) depth small, rfl⟩
    exact proceeds_of_ok pushes (settled _ _ rfl (pushed_of_push pushes)) (Nat.le_refl _)

theorem reports_swap (reports : s.Reports site kind found most m)
    (swaps : m.swap? kind = some m') :
    Proceeds Emission.size 0 swap s fun _ t => t.Reports site kind found most m' := by
  have above := fun below => Machine.swap?_above swaps (found ++ below)
  obtain ⟨stack, calls⟩ := m
  obtain ⟨pool, policy, event, base, own, depth, peak, is⟩ := s
  unfold Machine.swap? at swaps
  dsimp only at swaps
  split at swaps
  · rename_i v w rest
    split at swaps
    · rename_i single
      cases swaps
      obtain rfl : own = v.kind kind :: w.kind kind :: rest.map (Symbol.kind kind) := reports.stack
      have same : slotsOf id (w.kind kind :: v.kind kind :: rest.map (Symbol.kind kind)) =
          slotsOf id (v.kind kind :: w.kind kind :: rest.map (Symbol.kind kind)) := by
        simp only [slotsOf_cons]
        omega
      refine proceeds_of_ok (if_pos single) ⟨reports.sound, reports.event, reports.base, rfl,
        reports.depth.trans same.symm, same.trans_le reports.high, reports.low, ?_⟩ (Nat.le_refl _)
      intro final later below
      have sofar := reports.run final later below
      have last : ((⟨v :: w :: rest, calls⟩ : Machine ν).above (found ++ below)).step? kind final
          (.plain Opcode.swap) = _ := Machine.step?_swap.trans (above below)
      have code : (is.push (.plain Opcode.swap)).toList = is.toList ++ [.plain Opcode.swap] :=
        Array.toList_push
      change Machine.run? kind final _ (is.push (.plain Opcode.swap)).toList = _
      rw [code, Machine.run?_append]
      refine Option.bind_eq_some_iff.mpr ⟨_, sofar, ?_⟩
      simpa [Machine.run?] using last
    · cases swaps
  · cases swaps

theorem reports_box (reports : s.Reports site kind found most m) (few : most ≤ 65535)
    {type : FieldType} (means : (Operation.box type).means? site kind found m = some m')
    (small : slotsOf (Symbol.kind kind) m'.stack ≤ most) :
    Proceeds Emission.size (Operation.box type).slots (box type) s fun _ t =>
      t.Reports site kind found most m' := by
  unfold Operation.means? at means
  unfold box
  cases type with
  | base b => exact reports_invokeStatic reports few means small
  | _ =>
    dsimp only [FieldType.boxing?] at means ⊢
    split at means
    · rename_i top
      cases means
      have run : (emitter >>= fun e => if e.top ≠ some .reference then fail .noReference
          else pure ()) s = .ok () s := by
        refine state_bind_ok_iff.mpr ⟨s.emitter, s, rfl, ?_⟩
        rw [if_neg]
        · rfl
        · rw [Emitter.top, reports.stack, top]
          simp
      exact proceeds_of_ok run reports (Nat.le_add_right _ _)
    · cases means

theorem reports_copy (reports : s.Reports site kind found most m) (few : most ≤ 65535)
    (value : found.map kind = site.base.toList) {k : ValueKind} (base : s.emitter.base = some k)
    (copies : m.copyFound? found = some m')
    (small : slotsOf (Symbol.kind kind) m'.stack ≤ most) :
    Proceeds Emission.size 0 (copyBase k) s fun _ t => t.Reports site kind found most m' := by
  rw [← reports.base, base] at value
  exact reports_copyBase reports few copies value small

theorem reports_copyReturnValue (reports : s.Reports site kind found most m) (few : most ≤ 65535)
    (value : found.map kind = site.base.toList) (event : site.event = .return)
    (copies : m.copyFound? found = some m')
    (small : slotsOf (Symbol.kind kind) m'.stack ≤ most) :
    Proceeds Emission.size 0 copyReturnValue s fun _ t =>
      t.Reports site kind found most m' := by
  unfold copyReturnValue
  refine proceeds_bind (n := 0) (m := 0) (P := fun e t => s.emitter = e ∧ s = t)
    (proceeds_of_ok rfl ⟨rfl, rfl⟩ (Nat.le_refl _)) ?_
  rintro _ _ ⟨rfl, rfl⟩
  rw [if_neg (by rw [reports.event, event]; simp)]
  cases base : s.emitter.base with
  | some k => exact reports_copy reports few value base copies small
  | none =>
    rw [← reports.base, base] at value
    obtain rfl := List.map_eq_nil_iff.mp value
    cases copies

theorem reports_copyException (reports : s.Reports site kind found most m) (few : most ≤ 65535)
    (value : found.map kind = site.base.toList) (event : site.event = .error)
    (copies : m.copyFound? found = some m')
    (small : slotsOf (Symbol.kind kind) m'.stack ≤ most) :
    Proceeds Emission.size 0 copyException s fun _ t =>
      t.Reports site kind found most m' := by
  unfold copyException
  refine proceeds_bind (n := 0) (m := 0) (P := fun e t => s.emitter = e ∧ s = t)
    (proceeds_of_ok rfl ⟨rfl, rfl⟩ (Nat.le_refl _)) ?_
  rintro _ _ ⟨rfl, rfl⟩
  rw [if_neg (by rw [reports.event, event]; simp)]
  have base : s.emitter.base = some .reference := by
    rw [reports.base, Site.base, event]
  exact reports_copy reports few value base copies small

/-- What an operation emits does what the operation means. -/
theorem reports_perform (reports : s.Reports site kind found most m) (few : most ≤ 65535)
    (value : found.map kind = site.base.toList) {op : Operation}
    (means : op.means? site kind found m = some m')
    (small : slotsOf (Symbol.kind kind) m'.stack ≤ most) :
    Proceeds Emission.size op.slots op.perform s fun _ t =>
      t.Reports site kind found most m' := by
  have answered : ∀ {n : Nat} {x : EmitM Unit},
      Proceeds Emission.size n x s (fun _ t => t.Reports site kind found most m') →
      Proceeds Emission.size n (x >>= fun _ => pure (none : Option UInt16)) s
        fun _ t => t.Reports site kind found most m' :=
    fun run => proceeds_bind (m := 0) run fun _ _ reports =>
      proceeds_of_ok rfl reports (Nat.le_refl _)
  cases op with
  | pushString text =>
    cases means
    exact answered (reports_pushString reports few small)
  | pushNull =>
    cases means
    exact answered (reports_pushNull reports few small)
  | copyReturnValue =>
    dsimp only [Operation.means?] at means
    split at means
    · rename_i event
      exact answered (reports_copyReturnValue reports few value event means small)
    · cases means
  | copyException =>
    dsimp only [Operation.means?] at means
    split at means
    · rename_i event
      exact answered (reports_copyException reports few value event means small)
    · cases means
  | box type => exact answered (reports_box reports few means small)
  | invokeStatic owner name descriptor =>
    exact answered (reports_invokeStatic reports few means small)
  | swap => exact answered (reports_swap reports means)
  | _ => cases means

theorem reports_run {ops : List Operation} (meaning : Meaning site kind found most m ops m')
    (reports : s.Reports site kind found most m) (few : most ≤ 65535)
    (value : found.map kind = site.base.toList) :
    Proceeds Emission.size (ops.map Operation.slots).sum (Script.ofOperations ops).run s
      fun _ t => t.Reports site kind found most m' := by
  induction meaning generalizing s with
  | none => exact proceeds_of_ok rfl reports (Nat.le_refl _)
  | @next op ops m m' last means small _ ih =>
    have first := reports_perform reports few value means small
    unfold Proceeds at first ⊢
    rw [List.map_cons, List.sum_cons]
    cases performed : op.perform s with
    | error error t =>
      rw [performed] at first
      have stops : (Script.ofOperations (op :: ops)).run s = .error error t := by
        simp only [Script.ofOperations, List.foldr_cons, Script.andThen, Script.run, performed]
        split <;> rfl
      rw [stops]
      exact ⟨first.1, by omega⟩
    | ok answer t =>
      rw [performed] at first
      rw [run_cons_of_ok performed]
      have rest := ih first.1
      unfold Proceeds at rest
      cases run : (Script.ofOperations ops).run t with
      | error error u =>
        rw [run] at rest
        exact ⟨rest.1, by omega⟩
      | ok _ u =>
        rw [run] at rest
        exact ⟨rest.1, by omega⟩

theorem proceeds_emit {p : Policy} {pool : Pool} {n : Nat} {P : Emission → Prop}
    (run : Proceeds Emission.size n (p.script site).run ⟨pool, Emitter.start p.name site⟩
      fun _ t => P t)
    (finished : ∀ t, P t → t.emitter.stack = []) :
    Proceeds Pool.size n (p.emit site) pool fun hook q =>
      ∃ t, P t ∧ t.pool = q ∧ hook = ⟨t.emitter.instructions.toList, t.emitter.maxDepth⟩ := by
  unfold Proceeds at run ⊢
  unfold Policy.emit
  cases emitted : (p.script site).run ⟨pool, Emitter.start p.name site⟩ with
  | error error t =>
    rw [emitted] at run
    exact run
  | ok _ t =>
    rw [emitted] at run
    dsimp only at run ⊢
    rw [Emitter.finish, finished t run.1]
    exact ⟨⟨t, run.1, rfl, rfl⟩, run.2⟩

end Operations

namespace Callback
variable {ν : Type}

def method? (c : Callback) : Event → Option String
  | .enter => c.onEnter
  | .return => c.onReturn
  | .error => c.onError

def descriptor (c : Callback) : Event → String
  | .enter => namesDescriptor
  | .return => if c.reportsValue then valueDescriptor else namesDescriptor
  | .error => exceptionDescriptor

def wrapping (c : Callback) (site : Site) (found : List ν) : List (Call ν) :=
  if site.event = .return ∧ c.reportsValue then
    match site.returnType.bind FieldType.boxing? with
    | some (wrapper, descriptor) => [⟨wrapper, "valueOf", descriptor, found.map .found⟩]
    | none => []
  else []

def passed (c : Callback) (site : Site) (found : List ν) : List (Symbol ν) :=
  match site.event with
  | .enter => []
  | .return =>
    if c.reportsValue then
      match site.returnType with
      | none => [.null]
      | some type => if type.isPrimitive then [.answer 0 .reference] else found.map .found
    else []
  | .error => found.map .found

def calls (c : Callback) (site : Site) (found : List ν) : List (Call ν) :=
  match c.method? site.event with
  | none => []
  | some method =>
    c.wrapping site found ++ [⟨c.runtimeClass, method, c.descriptor site.event,
      .text site.method.className :: .text site.method.method :: c.passed site found⟩]

theorem parse_descriptors :
    MethodDescriptor.parse namesDescriptor = .ok
      ⟨[.object "java/lang/String", .object "java/lang/String"], none⟩ ∧
    MethodDescriptor.parse valueDescriptor = .ok
      ⟨[.object "java/lang/String", .object "java/lang/String", .object "java/lang/Object"], none⟩ ∧
    MethodDescriptor.parse exceptionDescriptor = .ok
      ⟨[.object "java/lang/String", .object "java/lang/String", .object "java/lang/Throwable"],
        none⟩ := by
  have proper : ∀ name, name ≠ "" ∧ ';' ∉ name.toList → (FieldType.object name).Proper :=
    fun _ named => ⟨named, Nat.zero_le _⟩
  have string := proper "java/lang/String" (by decide)
  refine ⟨MethodDescriptor.parse_ok_iff.mpr ⟨⟨?_, nofun⟩, by decide⟩,
    MethodDescriptor.parse_ok_iff.mpr ⟨⟨?_, nofun⟩, by decide⟩,
    MethodDescriptor.parse_ok_iff.mpr ⟨⟨?_, nofun⟩, by decide⟩⟩
  · simp [string]
  · simp [string, proper "java/lang/Object" (by decide)]
  · simp [string, proper "java/lang/Throwable" (by decide)]

theorem parse_boxing (b : BaseType) :
    MethodDescriptor.parse ("(" ++ String.singleton b.letter ++ ")L" ++ b.wrapper ++ ";") =
      .ok ⟨[.base b], some (.object b.wrapper)⟩ := by
  have named : (FieldType.object b.wrapper).Proper := by
    refine ⟨?_, Nat.zero_le _⟩
    cases b <;> exact ⟨by decide, by decide⟩
  have type : (FieldType.base b).Proper := ⟨trivial, Nat.zero_le _⟩
  refine MethodDescriptor.parse_ok_iff.mpr ⟨⟨?_, ?_⟩, ?_⟩
  · simp [type]
  · intro t same
    exact Option.some.inj same ▸ named
  · cases b <;> decide

section Meaning
variable {site : Site} {kind : ν → ValueKind} {found : List ν} {made : List (Call ν)}

theorem meaning_append {most : Nat} {m m' m'' : Machine ν} {ops ops' : List Operation}
    (first : Meaning site kind found most m ops m')
    (second : Meaning site kind found most m' ops' m'') :
    Meaning site kind found most m (ops ++ ops') m'' := by
  induction first with
  | none => exact second
  | next means small _ ih => exact .next means small (ih second)

theorem slotsOf_references {vs : List (Symbol ν)}
    (references : ∀ v ∈ vs, v.kind kind = .reference) :
    slotsOf (Symbol.kind kind) vs = vs.length := by
  induction vs with
  | nil => rfl
  | cons v vs ih =>
    obtain ⟨first, others⟩ := List.forall_mem_cons.mp references
    have rest := ih others
    simp only [slotsOf] at rest
    simp only [slotsOf, List.map_cons, List.sum_cons, first, rest, List.length_cons]
    exact Nat.add_comm _ _

theorem slotsOf_one (v : Symbol ν) : slotsOf (Symbol.kind kind) [v] ≤ 3 := by
  change (v.kind kind).slots + 0 ≤ 3
  cases v.kind kind <;> decide

theorem meaning_pushNames (method : MethodName) :
    Meaning site kind found 3 ⟨[], made⟩ (pushNames method)
      ⟨[.text method.method, .text method.className], made⟩ :=
  .next rfl (Nat.le_of_ble_eq_true rfl) (.next rfl (Nat.le_of_ble_eq_true rfl) .none)

theorem meaning_pushNamesUnder (method : MethodName) {v : Symbol ν}
    (reference : v.kind kind = .reference) :
    Meaning site kind found 3 ⟨[v], made⟩ (pushNamesUnder method)
      ⟨[v, .text method.method, .text method.className], made⟩ := by
  have one : (v.kind kind).slots = 1 := by
    rw [reference]
    rfl
  have few : ∀ vs : List (Symbol ν), vs.length ≤ 3 →
      (∀ w ∈ vs, w = v ∨ ∃ text, w = .text text) → slotsOf (Symbol.kind kind) vs ≤ 3 := by
    intro vs short known
    rw [slotsOf_references]
    · exact short
    · intro w member
      rcases known w member with rfl | ⟨text, rfl⟩
      · exact reference
      · rfl
  refine .next rfl (few _ ?_ ?_) (.next (if_pos ⟨rfl, one⟩) (few _ ?_ ?_)
    (.next rfl (few _ ?_ ?_) (.next (if_pos ⟨rfl, one⟩) (few _ ?_ ?_) .none)))
  all_goals simp [Machine.push]

theorem meaning_report {owner name descriptor : String} {parameters : List FieldType}
    {taken : List (Symbol ν)} (parsed : MethodDescriptor.parse descriptor = .ok ⟨parameters, none⟩)
    (kinds : taken.map (Symbol.kind kind) = (parameters.map FieldType.kind).reverse) :
    Meaning site kind found 3 ⟨taken, made⟩ [.invokeStatic owner name descriptor]
      ⟨[], made ++ [⟨owner, name, descriptor, taken.reverse⟩]⟩ :=
  .next (Machine.call?_of_stack parsed (List.append_nil _).symm kinds) (Nat.zero_le _) .none

theorem means_kept {type : FieldType} {v : ν} {stack : List (Symbol ν)}
    (unboxed : type.boxing? = none) (reference : kind v = .reference) :
    (Operation.box type).means? site kind found ⟨.found v :: stack, made⟩ =
      some ⟨.found v :: stack, made⟩ := by
  dsimp only [Operation.means?]
  rw [unboxed]
  exact if_pos (congrArg some reference)

theorem meaning_wrapped (c : Callback) (reports : c.reportsValue = true)
    (event : site.event = .return) {type : FieldType} (returns : site.returnType = some type)
    (value : found.map kind = site.base.toList) : ∃ v : Symbol ν, v.kind kind = .reference ∧
      c.passed site found = [v] ∧
      Meaning site kind found 3 ⟨[], []⟩ [.copyReturnValue, .box type]
        ⟨[v], c.wrapping site found⟩ := by
  have base : site.base = some type.kind := by
    rw [Site.base, event, returns]
    rfl
  rw [base] at value
  obtain ⟨v, rfl, known⟩ := List.map_eq_singleton_iff.mp value
  have copies : (Operation.copyReturnValue).means? site kind [v] ⟨[], []⟩ =
      some ⟨[.found v], []⟩ := if_pos event
  cases type with
  | base b =>
    have kinds : [Symbol.found v].map (Symbol.kind kind) =
        ([FieldType.base b].map FieldType.kind).reverse := congrArg (fun k => [k]) known
    have boxes : (Operation.box (.base b)).means? site kind [v] ⟨[.found v], []⟩ =
        some ⟨[.answer 0 .reference], [⟨b.wrapper, "valueOf", _, [.found v]⟩]⟩ :=
      Machine.call?_of_stack (parse_boxing b) (List.append_nil [Symbol.found v]).symm kinds
    refine ⟨.answer 0 .reference, rfl, ?_,
      .next copies (slotsOf_one _) (.next boxes (slotsOf_one _) ?_)⟩
    · simp [passed, event, reports, returns, FieldType.isPrimitive]
    · simp only [wrapping, event, reports, returns]
      exact .none
  | _ =>
    have reference : kind v = .reference := known
    refine ⟨.found v, reference, ?_,
      .next copies (slotsOf_one _) (.next (means_kept rfl reference) (slotsOf_one _) ?_)⟩
    · simp [passed, event, reports, returns, FieldType.isPrimitive]
    · simp only [wrapping, event, reports, returns]
      exact .none

theorem meaning_operations (c : Callback) (value : found.map kind = site.base.toList) :
    Meaning site kind found 3 ⟨[], []⟩ (c.operations site) ⟨[], c.calls site found⟩ := by
  obtain ⟨names, values, exceptions⟩ := parse_descriptors
  unfold operations
  cases event : site.event with
  | enter =>
    cases called : c.onEnter with
    | none =>
      simp only [calls, event, method?, called]
      exact .none
    | some method =>
      simp only [calls, event, method?, called, wrapping, descriptor, passed]
      exact meaning_append (meaning_pushNames site.method) (meaning_report names rfl)
  | error =>
    cases called : c.onError with
    | none =>
      simp only [calls, event, method?, called]
      exact .none
    | some method =>
      rw [Site.base, event] at value
      obtain ⟨v, rfl, reference⟩ := List.map_eq_singleton_iff.mp value
      simp only [calls, event, method?, called, wrapping, descriptor, passed]
      refine meaning_append (.next (if_pos event) (slotsOf_one _)
        (meaning_pushNamesUnder site.method reference)) (meaning_report exceptions ?_)
      exact congrArg (· :: _) reference
  | «return» =>
    cases called : c.onReturn with
    | none =>
      simp only [calls, event, method?, called]
      exact .none
    | some method =>
      cases reports : c.reportsValue with
      | false =>
        simp only [calls, event, method?, called, wrapping, descriptor, passed, reports]
        exact meaning_append (meaning_pushNames site.method) (meaning_report names rfl)
      | true =>
        cases returns : site.returnType with
        | none =>
          simp only [calls, event, method?, called, wrapping, descriptor, passed, reports, returns,
            pushValue]
          refine meaning_append (meaning_append (meaning_pushNames site.method)
            (.next rfl (Nat.le_of_ble_eq_true rfl) .none)) (meaning_report values rfl)
        | some type =>
          obtain ⟨v, reference, argument, wrapped⟩ :=
            meaning_wrapped c reports event returns value
          simp only [calls, event, method?, called, descriptor, reports, argument, pushValue,
            returns]
          refine meaning_append (meaning_append wrapped
            (meaning_pushNamesUnder site.method reference)) (meaning_report values ?_)
          exact congrArg (· :: _) reference

end Meaning

theorem slots_operations (c : Callback) (site : Site) :
    ((c.operations site).map Operation.slots).sum ≤ 16 := by
  have boxes : ∀ type : FieldType, (Operation.box type).slots ≤ 6 := by
    intro type
    change (if type.isPrimitive then 6 else 0) ≤ 6
    split <;> omega
  have names : ((pushNames site.method).map Operation.slots).sum = 4 ∧
      ((pushNamesUnder site.method).map Operation.slots).sum = 4 := ⟨rfl, rfl⟩
  have pushes : ((pushValue site).map Operation.slots).sum ≤ 10 := by
    unfold pushValue
    cases site.returnType with
    | none => exact Nat.le_of_ble_eq_true rfl
    | some type =>
      have := boxes type
      simp only [List.map_append, List.map_cons, List.map_nil, List.sum_append, List.sum_cons,
        List.sum_nil, names.2]
      change 0 + _ + 4 ≤ 10
      omega
  unfold operations
  repeat' split
  all_goals simp only [List.map_append, List.sum_append, List.map_cons, List.map_nil,
    List.sum_cons, List.sum_nil, names.1, names.2, Operation.slots]
  all_goals omega

/-- A wrapping call is none to the method that reports are sent to: their descriptors differ. -/
theorem calls_once (c : Callback) (site : Site) (found : List ν) {method : String}
    (called : c.method? site.event = some method) :
    (c.calls site found).countP (fun call => call.owner = c.runtimeClass ∧ call.name = method ∧
      call.descriptor = c.descriptor site.event) = 1 := by
  have others : ∀ b : BaseType,
      "(" ++ String.singleton b.letter ++ ")L" ++ b.wrapper ++ ";" ≠ valueDescriptor := by
    intro b
    cases b <;> decide
  have wrapped : (c.wrapping site found).countP (fun call => call.owner = c.runtimeClass ∧
      call.name = method ∧ call.descriptor = c.descriptor site.event) = 0 := by
    unfold wrapping
    split
    · rename_i returned
      split
      · rename_i wrapper descriptor boxed
        obtain ⟨type, _, boxed⟩ := Option.bind_eq_some_iff.mp boxed
        cases type with
        | base b =>
          cases boxed
          refine List.countP_eq_zero.mpr fun call member => ?_
          obtain rfl := List.mem_singleton.mp member
          rw [decide_eq_true_iff]
          rintro ⟨_, _, same⟩
          simp only [Callback.descriptor, returned.1, returned.2] at same
          exact others b same
        | _ => cases boxed
      · rfl
    · rfl
  simp only [calls, called, List.countP_append, wrapped, List.countP_singleton]
  simp

section Emitting
variable {c : Callback} {site : Site} {pool : Pool} {kind : ν → ValueKind} {found : List ν}

/-- The hook makes the calls of the event, and leaves the stack as it found it. -/
theorem emit_proceeds (sound : pool.Sound) (value : found.map kind = site.base.toList) :
    Proceeds Pool.size 16 (c.policy.emit site) pool fun hook q =>
      hook.maxStack.toNat ≤ 3 ∧ ∀ final, q.Grows final → ∀ below,
        (Machine.start (found ++ below)).run? kind final hook.instructions =
          some { Machine.start (found ++ below) with calls := c.calls site found } := by
  have start : Emission.Reports site kind found 3 ⟨pool, Emitter.start c.policy.name site⟩
      ⟨[], []⟩ :=
    ⟨sound, rfl, rfl, rfl, rfl, Nat.zero_le _, Nat.zero_le _, fun _ _ _ => rfl⟩
  have run := reports_run (meaning_operations c value) start (by decide) value
  refine proceeds_mono (proceeds_emit run fun _ reports => reports.stack)
    (slots_operations c site) ?_
  rintro hook _ ⟨t, reports, rfl, rfl⟩
  exact ⟨reports.low, reports.run⟩

end Emitting
end Callback

theorem chain_emit_alone {chain : Chain} {p : Policy} (alone : chain.policies = [p]) (site : Site)
    (pool : Pool) : chain.emit site pool =
      match p.emit site pool with
      | .ok own q => .ok (Hook.empty.append own) q
      | .error error q => .error error q := by
  obtain ⟨policies, distinct⟩ := chain
  change policies = [p] at alone
  subst alone
  change ((p.emit site >>= fun own => pure (Hook.empty.append own)) >>= pure) pool = _
  cases run : p.emit site pool with
  | ok own q =>
    have joined : (p.emit site >>= fun own => pure (Hook.empty.append own)) pool =
        .ok (Hook.empty.append own) q := state_bind_of_ok run
    exact state_bind_of_ok joined
  | error error q =>
    have joined : (p.emit site >>= fun own => pure (Hook.empty.append own)) pool =
        .error error q := state_bind_of_error run
    exact state_bind_of_error joined

theorem emit_silent {c : Callback} {site : Site} (silent : c.method? site.event = none)
    (pool : Pool) : c.policy.emit site pool = .ok Hook.empty pool := by
  have nothing : c.operations site = [] := by
    unfold Callback.operations
    unfold Callback.method? at silent
    cases event : site.event <;> simp only [event] at silent ⊢ <;> rw [silent]
  have script : c.policy.script site = .done := congrArg Script.ofOperations nothing
  unfold Policy.emit
  rw [script]
  rfl

/-- A callback reports every event that it names a method for. Its chain fails only where the pool
has no slot left, and needs sixteen at most. The code makes the call to that method, once, and no
other but the one that wraps a primitive value; it runs above anything, and leaves what was there. -/
theorem callback_reports (c : Callback) (site : Site) (chain : Chain)
    (alone : chain.policies = [c.policy]) (pool : Pool) (reached : pool.Reached) :
    (pool.size + 16 ≤ 65535 → ∃ hook pool', chain.emit site pool = .ok hook pool') ∧
    (∀ error pool', chain.emit site pool = .error error pool' → pool'.size = 65535) ∧
    ∀ hook pool', chain.emit site pool = .ok hook pool' →
      hook.maxStack ≤ 3 ∧ (c.method? site.event = none → hook.instructions = []) ∧
      ∀ final, pool'.Grows final → ∀ (ν : Type) (kind : ν → ValueKind) (found below : List ν),
        found.map kind = site.base.toList →
          (Machine.start (found ++ below)).run? kind final hook.instructions =
            some { Machine.start (found ++ below) with calls := c.calls site found } ∧
          ∀ method, c.method? site.event = some method →
            (c.calls site found).countP (fun call => call.owner = c.runtimeClass ∧
              call.name = method ∧ call.descriptor = c.descriptor site.event) = 1 := by
  have sound := Pool.sound_of_reached reached
  have kinds : site.base.toList.map id = site.base.toList := List.map_id _
  have proceeds := Callback.emit_proceeds (c := c) sound kinds
  rw [chain_emit_alone alone]
  unfold Proceeds at proceeds
  cases emitted : c.policy.emit site pool with
  | error error q =>
    rw [emitted] at proceeds
    obtain ⟨full, need⟩ := proceeds
    refine ⟨fun room => absurd need (Nat.not_lt.mpr room), ?_, nofun⟩
    intro error' pool' same
    cases same
    exact full
  | ok own q =>
    rw [emitted] at proceeds
    refine ⟨fun _ => ⟨_, _, rfl⟩, nofun, ?_⟩
    intro hook pool' same
    cases same
    refine ⟨?_, ?_, ?_⟩
    · have low := proceeds.1.1
      have peak : (Hook.empty.append own).maxStack.toNat = max 0 own.maxStack.toNat :=
        toNat_max _ _
      rw [UInt16.le_iff_toNat_le, peak]
      exact Nat.max_le.mpr ⟨Nat.zero_le _, low⟩
    · intro silent
      rw [emit_silent silent] at emitted
      cases emitted
      rfl
    · intro final later ν kind found below value
      have here := Callback.emit_proceeds (c := c) sound value
      unfold Proceeds at here
      rw [emitted] at here
      exact ⟨here.1.2 final later below, fun method called => c.calls_once site found called⟩

def tracing : Callback := { Callback.ofClass "rt/Trace" with onEnter := none, reportsValue := true }

def tracingChain : Chain := ⟨[tracing.policy], List.nodup_singleton _⟩

def countsTo : MethodName := ⟨"a/B", "count", "(I)J"⟩

theorem longReturn_reported : (∃ hook pool,
      tracingChain.emit ⟨countsTo, .return, some (.base .long)⟩ Pool.empty = .ok hook pool ∧
        hook.maxStack ≤ 3 ∧
        (Machine.start [ValueKind.long, .int]).run? id pool hook.instructions =
          some ⟨[.found .long, .found .int],
            [⟨"java/lang/Long", "valueOf", "(J)Ljava/lang/Long;", [.found .long]⟩,
              ⟨"rt/Trace", "onMethodReturn", Callback.valueDescriptor,
                [.text "a/B", .text "count", .answer 0 .reference]⟩]⟩) ∧
    ∃ hook pool, tracingChain.emit ⟨countsTo, .enter, some (.base .long)⟩ Pool.empty =
      .ok hook pool ∧ hook.instructions = [] := by
  constructor
  · obtain ⟨succeeds, _, reports⟩ := callback_reports tracing ⟨countsTo, .return,
      some (.base .long)⟩ tracingChain rfl Pool.empty .empty
    obtain ⟨hook, pool, run⟩ := succeeds (by decide)
    obtain ⟨low, _, runs⟩ := reports hook pool run
    obtain ⟨ran, _⟩ := runs pool (Pool.grows_refl pool) ValueKind id [.long] [.int] rfl
    exact ⟨hook, pool, run, low, ran⟩
  · obtain ⟨succeeds, _, reports⟩ := callback_reports tracing ⟨countsTo, .enter,
      some (.base .long)⟩ tracingChain rfl Pool.empty .empty
    obtain ⟨hook, pool, run⟩ := succeeds (by decide)
    exact ⟨hook, pool, run, (reports hook pool run).2.1 rfl⟩

end ClassHooks
