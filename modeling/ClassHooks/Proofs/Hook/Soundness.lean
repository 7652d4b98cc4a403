import ClassHooks.Proofs.Hook.Account

/-!
Hooks are sound. A hook that an emitter finishes goes straight on and uses no local variable; run
above any values, it takes only values that it has put there itself, finds operands of the right
kinds, leaves the stack as it was, and needs exactly the slots that it reports.
-/
namespace ClassHooks

namespace Operation

/-- What a raw operation says that its instruction takes and gives is true. -/
def Fair (final : Pool) : Operation → Prop
  | .raw i pops pushes => Takes id final i pops.reverse pushes.reverse
  | _ => True

theorem grows_of_perform {op : Operation} {answer : Option UInt16} {s t : Emission}
    (run : op.perform s = .ok answer t) : s.pool.Grows t.pool := by
  have keeps : Keeps (fun u => s.pool.Grows u.pool) op.perform :=
    perform_keeps_pool Pool.keeps_grows op
  exact holds_of_keeps (I := fun u => s.pool.Grows u.pool) keeps (Pool.grows_refl s.pool) run

end Operation

section Instructions
variable {pool : Pool} {index : UInt16}

theorem harmless_plain {op : Opcode}
    (checks : Opcode.isAssigned op = true ∧ Opcode.accessesLocals op = false ∧
      Opcode.flow op = .sequential) : (Instruction.plain op : Instruction Label).Harmless :=
  Instruction.harmless_of_checks checks.1 (.inl checks.2.2) checks.2.1 rfl

theorem harmless_constant {op : Opcode}
    (checks : Opcode.isAssigned op = true ∧ Opcode.accessesLocals op = false ∧
      (Opcode.flow op = .sequential ∨ Opcode.flow op = .call)) :
    (⟨op, .constant index⟩ : Instruction Label).Harmless :=
  Instruction.harmless_of_checks checks.1 checks.2.2 checks.2.1 rfl

theorem takes_ldc {k : ValueKind} (loaded : pool.loadedKind? index = some k)
    (single : k.slots = 1) : Takes id pool ⟨Opcode.ldc, .constant index⟩ [] [k] := by
  have signature : (⟨Opcode.ldc, .constant index⟩ : Instruction Label).signature? pool =
      some ⟨[], [k]⟩ := by
    change (pool.loadedKind? index).bind
      (fun k => if k.slots = 1 then some (Signature.mk [] [k]) else none) = _
    rw [loaded, Option.bind_some, if_pos single]
  exact .computes ⟨.constant8, rfl, rfl⟩ signature rfl rfl

theorem methodAt?_of_holdsMethod {owner name descriptor : String} {d : MethodDescriptor}
    (holds : pool.HoldsMethod index owner name descriptor)
    (parsed : MethodDescriptor.parse descriptor = .ok d) : pool.methodAt? index = some d := by
  have member := Pool.member_of_holdsMethod holds
  obtain ⟨o, n, here, _⟩ := holds
  have known : pool.referred? Constant.isMethodRef index = some descriptor := by
    unfold Pool.referred?
    rw [Pool.get_of_entry here nofun, member]
    rfl
  unfold Pool.methodAt?
  rw [known, Option.bind_some, parsed]
  rfl

theorem fits_of_takes {i : Instruction Label} {taken given : List ValueKind}
    (takes : Takes id pool i taken given) : i.Fits := by
  cases takes with
  | computes fits => exact fits
  | shuffles fits => exact fits

theorem takes_invokestatic {d : MethodDescriptor} (method : pool.methodAt? index = some d) :
    Takes id pool ⟨Opcode.invokestatic, .constant index⟩ (d.parameters.map FieldType.kind).reverse
      d.returnKind.toList := by
  have signature : (⟨Opcode.invokestatic, .constant index⟩ : Instruction Label).signature? pool =
      some (.ofMethod [] d) := by
    change (pool.methodAt? index).map (Signature.ofMethod []) = _
    rw [method, Option.map_some]
  refine .computes ⟨.constant16, rfl, rfl⟩ signature ?_ ?_
  · simp [Signature.ofMethod]
  · cases given : d.returnKind <;> simp [Signature.ofMethod, given]

end Instructions

section Operations
variable {final : Pool} {site : Site} {s t : Emission} (tracked : s.Tracked final site)
include tracked

theorem tracked_plain {op : Opcode} {k : ValueKind}
    (run : (EmitM.append (.plain op) >>= fun _ => EmitM.push k) s = .ok () t)
    (checks : Opcode.isAssigned op = true ∧ Opcode.accessesLocals op = false ∧
      Opcode.flow op = .sequential)
    (takes : Takes id final (.plain op) [] [k]) : t.Tracked final site := by
  obtain ⟨_, u, appended, pushes⟩ := state_bind_ok_iff.mp run
  cases appended
  exact tracked_takes tracked (EmitM.popped_nothing s) tracked.sound (EmitM.pushed_of_push pushes)
    takes (harmless_plain checks)

theorem tracked_pushInt {value : Int32} (later : t.pool.Grows final)
    (run : EmitM.pushInt value s = .ok () t) : t.Tracked final site := by
  unfold EmitM.pushInt at run
  dsimp only at run
  split at run
  · rename_i tiny
    have exact32 : value = Int32.ofInt value.toInt := (Int32.ofInt_toInt value).symm
    have cases : value.toInt = -1 ∨ value.toInt = 0 ∨ value.toInt = 1 ∨ value.toInt = 2 ∨
        value.toInt = 3 ∨ value.toInt = 4 ∨ value.toInt = 5 := by omega
    rcases cases with same | same | same | same | same | same | same <;>
      (rw [same] at exact32
       subst exact32
       exact tracked_plain tracked run ⟨rfl, rfl, rfl⟩
         (.computes ⟨.nothing, rfl, rfl⟩ rfl rfl rfl))
  split at run
  · obtain ⟨_, u, appended, pushes⟩ := state_bind_ok_iff.mp run
    cases appended
    exact tracked_takes tracked (EmitM.popped_nothing s) tracked.sound
      (EmitM.pushed_of_push pushes) (.computes ⟨.byte, rfl, rfl⟩ rfl rfl rfl)
      (Instruction.harmless_of_checks rfl (.inl rfl) rfl rfl)
  split at run
  · obtain ⟨_, u, appended, pushes⟩ := state_bind_ok_iff.mp run
    cases appended
    exact tracked_takes tracked (EmitM.popped_nothing s) tracked.sound
      (EmitM.pushed_of_push pushes) (.computes ⟨.short, rfl, rfl⟩ rfl rfl rfl)
      (Instruction.harmless_of_checks rfl (.inl rfl) rfl rfl)
  · obtain ⟨index, u, added, run⟩ := state_bind_ok_iff.mp run
    obtain ⟨q, number, rfl⟩ := EmitM.constant_ok added
    obtain ⟨_, v, appended, pushes⟩ := state_bind_ok_iff.mp run
    cases appended
    have pushed := EmitM.pushed_of_push pushes
    obtain ⟨beyond, here⟩ := Pool.add_ok tracked.sound number
    rw [pushed.pool] at later
    have loaded : final.loadedKind? index = some .int := by
      unfold Pool.loadedKind?
      rw [Pool.get_of_entry (later _ _ here) nofun]
    exact tracked_takes tracked (EmitM.popped_nothing s) beyond.sound pushed
      (takes_ldc loaded rfl) (harmless_constant ⟨rfl, rfl, .inl rfl⟩)

theorem tracked_pushString {text : String} (later : t.pool.Grows final)
    (run : EmitM.pushString text s = .ok () t) : t.Tracked final site := by
  obtain ⟨index, u, added, run⟩ := state_bind_ok_iff.mp run
  obtain ⟨q, string, rfl⟩ := EmitM.constant_ok added
  obtain ⟨_, v, appended, pushes⟩ := state_bind_ok_iff.mp run
  cases appended
  have pushed := EmitM.pushed_of_push pushes
  obtain ⟨beyond, n, here, _⟩ := Pool.addString_ok tracked.sound string
  rw [pushed.pool] at later
  have loaded : final.loadedKind? index = some .reference := by
    unfold Pool.loadedKind?
    rw [Pool.get_of_entry (later _ _ here) nofun]
  exact tracked_takes tracked (EmitM.popped_nothing s) beyond.sound pushed
    (takes_ldc loaded rfl) (harmless_constant ⟨rfl, rfl, .inl rfl⟩)

theorem tracked_copyBase {k : ValueKind} (found : site.base = some k)
    (run : EmitM.copyBase k s = .ok () t) : t.Tracked final site := by
  obtain ⟨e, u, looked, run⟩ := state_bind_ok_iff.mp run
  cases looked
  by_cases covered : (!s.emitter.stack.isEmpty) = true
  · rw [if_pos covered] at run
    cases run
  rw [if_neg covered] at run
  obtain ⟨_, v, appended, pushes⟩ := state_bind_ok_iff.mp run
  cases appended
  have pushed := EmitM.pushed_of_push pushes
  have none : s.emitter.stack = [] := by simpa using covered
  have one : t.emitter.stack = [k] := by
    have := pushed.stack
    change t.emitter.stack = [k] ++ s.emitter.stack at this
    rw [this, none, List.append_nil]
  have copy : (Instruction.plain (if k.slots = 2 then Opcode.dup2 else Opcode.dup) :
      Instruction Label).Harmless := by
    split <;> exact harmless_plain ⟨rfl, rfl, rfl⟩
  refine tracked_emit tracked (EmitM.popped_nothing s) tracked.sound pushed ?_ copy
  rw [none, one]
  exact .copies found rfl

theorem tracked_copyReturnValue (run : EmitM.copyReturnValue s = .ok () t) :
    t.Tracked final site := by
  obtain ⟨e, u, looked, run⟩ := state_bind_ok_iff.mp run
  cases looked
  dsimp only at run
  split at run
  · cases run
  · have base := tracked.base
    cases kind : s.emitter.base with
    | none =>
      rw [kind] at run
      cases run
    | some k =>
      rw [kind] at run base
      exact tracked_copyBase tracked base.symm run

theorem tracked_copyException (run : EmitM.copyException s = .ok () t) : t.Tracked final site := by
  obtain ⟨e, u, looked, run⟩ := state_bind_ok_iff.mp run
  cases looked
  dsimp only at run
  split at run
  · cases run
  · rename_i error
    have event : site.event = .error := by
      rw [← tracked.event]
      simpa using error
    have found : site.base = some .reference := by
      unfold Site.base
      rw [event]
    exact tracked_copyBase tracked found run

theorem tracked_invokeStatic {owner name descriptor : String}
    (later : t.pool.Grows final) (run : EmitM.invokeStatic owner name descriptor s = .ok () t) :
    t.Tracked final site := by
  unfold EmitM.invokeStatic at run
  cases parsed : MethodDescriptor.parse descriptor with
  | error cause =>
    rw [parsed] at run
    cases run
  | ok d =>
    rw [parsed] at run
    obtain ⟨_, u, pops, run⟩ := state_bind_ok_iff.mp run
    obtain ⟨index, v, added, run⟩ := state_bind_ok_iff.mp run
    obtain ⟨q, method, rfl⟩ := EmitM.constant_ok added
    obtain ⟨_, w, appended, gives⟩ := state_bind_ok_iff.mp run
    cases appended
    have popped := EmitM.popped_of_forM pops
    have sound := tracked.sound
    rw [← popped.pool] at sound
    obtain ⟨beyond, here⟩ := Pool.addMethodRef_ok sound method
    have pushed : Emission.Pushed ⟨q, u.emitter.append ⟨Opcode.invokestatic, .constant index⟩⟩ t
        d.returnKind.toList := by
      cases result : d.returnKind with
      | none =>
        rw [result] at gives
        cases gives
        exact EmitM.pushed_nothing _
      | some k =>
        rw [result] at gives
        exact EmitM.pushed_of_push gives
    rw [pushed.pool] at later
    exact tracked_takes tracked popped beyond.sound pushed
      (takes_invokestatic (methodAt?_of_holdsMethod (Pool.holdsMethod_of_grows later here) parsed))
      (harmless_constant ⟨rfl, rfl, .inr rfl⟩)

theorem tracked_box {type : FieldType} (later : t.pool.Grows final)
    (run : EmitM.box type s = .ok () t) : t.Tracked final site := by
  unfold EmitM.box at run
  cases boxed : type.boxing? with
  | some boxing =>
    rw [boxed] at run
    exact tracked_invokeStatic tracked later run
  | none =>
    rw [boxed] at run
    obtain ⟨e, u, looked, run⟩ := state_bind_ok_iff.mp run
    cases looked
    split at run
    · cases run
    · cases run
      exact tracked

theorem tracked_checkcast {name : String} (run : EmitM.checkcast name s = .ok () t) :
    t.Tracked final site := by
  obtain ⟨_, u, pops, run⟩ := state_bind_ok_iff.mp run
  obtain ⟨index, v, added, run⟩ := state_bind_ok_iff.mp run
  obtain ⟨q, named, rfl⟩ := EmitM.constant_ok added
  obtain ⟨_, w, appended, pushes⟩ := state_bind_ok_iff.mp run
  cases appended
  have popped := EmitM.popped_of_pop pops
  have sound := tracked.sound
  rw [← popped.pool] at sound
  obtain ⟨beyond, _⟩ := Pool.addClass_ok sound named
  exact tracked_takes tracked popped beyond.sound (EmitM.pushed_of_push pushes)
    (.computes ⟨.constant16, rfl, rfl⟩ rfl rfl rfl) (harmless_constant ⟨rfl, rfl, .inl rfl⟩)

theorem tracked_discard (run : EmitM.discard s = .ok () t) : t.Tracked final site := by
  obtain ⟨e, u, looked, run⟩ := state_bind_ok_iff.mp run
  cases looked
  cases top : s.emitter.top with
  | none =>
    rw [top] at run
    cases run
  | some k =>
    rw [top] at run
    obtain ⟨_, u, pops, appended⟩ := state_bind_ok_iff.mp run
    cases appended
    have popped := EmitM.popped_of_pop pops
    have sound := tracked.sound
    rw [← popped.pool] at sound
    have drops : Shuffles id (if k.slots = 2 then Opcode.pop2 else Opcode.pop) [k] [] := by
      refine .drop ?_
      cases k <;> rfl
    have fits : (Instruction.plain (if k.slots = 2 then Opcode.pop2 else Opcode.pop) :
        Instruction Label).Fits := by
      split <;> exact ⟨.nothing, rfl, rfl⟩
    have harmless : (Instruction.plain (if k.slots = 2 then Opcode.pop2 else Opcode.pop) :
        Instruction Label).Harmless := by
      split <;> exact harmless_plain ⟨rfl, rfl, rfl⟩
    exact tracked_takes tracked popped sound (EmitM.pushed_nothing _)
      (.shuffles fits drops) harmless

theorem tracked_swap (run : EmitM.swap s = .ok () t) : t.Tracked final site := by
  obtain ⟨pool, policy, event, base, stack, depth, peak, is⟩ := s
  unfold EmitM.swap at run
  dsimp only at run
  rcases stack with _ | ⟨a, _ | ⟨b, rest⟩⟩
  · cases run
  · cases run
  · dsimp only at run
    by_cases single : a.slots = 1 ∧ b.slots = 1
    · rw [if_pos single] at run
      cases run
      have slots : slotsOf id (b :: a :: rest) = slotsOf id (a :: b :: rest) := by
        simp only [EmitM.slotsOf_cons]
        omega
      have low : slotsOf id (a :: b :: rest) ≤ peak.toNat := low_of_tracks tracked.tracks
      have exchange : Takes id final (.plain Opcode.swap) [a, b] [b, a] :=
        .shuffles ⟨.nothing, rfl, rfl⟩ (.swap single.1 single.2)
      have harmless : (Instruction.plain Opcode.swap : Instruction Label).Harmless :=
        harmless_plain ⟨rfl, rfl, rfl⟩
      refine tracked_append tracked tracked.sound rfl rfl rfl ?_ ?_ (.acts exchange) harmless
      · exact tracked.depth.trans slots.symm
      · change peak.toNat = max peak.toNat (slotsOf id (b :: a :: rest))
        omega
    · rw [if_neg single] at run
      cases run

theorem tracked_raw {i : Instruction Label} {pops pushes : List ValueKind}
    (fair : Takes id final i pops.reverse pushes.reverse)
    (run : EmitM.raw i pops pushes s = .ok () t) : t.Tracked final site := by
  unfold EmitM.raw at run
  dsimp only at run
  by_cases unassigned : (!Opcode.isAssigned i.opcode) = true
  · rw [if_pos unassigned] at run
    cases run
  rw [if_neg unassigned] at run
  by_cases bends : (!decide (i.flow = .sequential ∨ i.flow = .call)) = true
  · rw [if_pos bends] at run
    cases run
  rw [if_neg bends] at run
  by_cases accesses : Opcode.accessesLocals i.opcode = true
  · rw [if_pos accesses] at run
    cases run
  rw [if_neg accesses] at run
  obtain ⟨_, u, popped, run⟩ := state_bind_ok_iff.mp run
  obtain ⟨_, v, appended, pushed⟩ := state_bind_ok_iff.mp run
  cases appended
  have popped := EmitM.popped_of_forM popped
  have sound := tracked.sound
  rw [← popped.pool] at sound
  have straight : i.Straight := by
    simpa [Instruction.Straight, or_iff_not_imp_left] using bends
  have harmless : i.Harmless :=
    Instruction.harmless_of_checks (by simpa using unassigned) straight (by simpa using accesses)
      (Instruction.targets_of_straight straight (fits_of_takes fair))
  exact tracked_takes tracked popped sound (EmitM.pushed_of_forM pushed) fair harmless

theorem tracked_constant {value : Constant} {index : UInt16}
    (run : EmitM.inPool (Pool.add value) s = .ok index t) : t.Tracked final site := by
  obtain ⟨pool, e⟩ := s
  unfold EmitM.inPool at run
  dsimp only at run
  split at run
  · rename_i added
    cases run
    exact tracked_pool tracked (Pool.add_ok tracked.sound added).1.sound
  · cases run

theorem tracked_perform {op : Operation} (fair : op.Fair final) {answer : Option UInt16}
    (later : t.pool.Grows final) (run : op.perform s = .ok answer t) : t.Tracked final site := by
  cases op <;> obtain ⟨a, u, here, last⟩ := state_bind_ok_iff.mp run <;> cases last
  case pushInt => exact tracked_pushInt tracked later here
  case pushString => exact tracked_pushString tracked later here
  case pushNull =>
    exact tracked_plain tracked here ⟨rfl, rfl, rfl⟩
      (.computes ⟨.nothing, rfl, rfl⟩ rfl rfl rfl)
  case copyReturnValue => exact tracked_copyReturnValue tracked here
  case copyException => exact tracked_copyException tracked here
  case box => exact tracked_box tracked later here
  case invokeStatic => exact tracked_invokeStatic tracked later here
  case checkcast => exact tracked_checkcast tracked here
  case discard => exact tracked_discard tracked here
  case swap => exact tracked_swap tracked here
  case raw => exact tracked_raw tracked fair here
  case constant => exact tracked_constant tracked here

end Operations

section Scripts
variable {final : Pool} {site : Site}

theorem run_cons_ok {op : Operation} {ops : List Operation} {s u : Emission}
    (run : (Script.ofOperations (op :: ops)).run s = .ok () u) :
    ∃ answer t, op.perform s = .ok answer t ∧ (Script.ofOperations ops).run t = .ok () u := by
  simp only [Script.ofOperations, List.foldr_cons, Script.andThen, Script.run] at run
  cases performed : op.perform s with
  | ok answer t =>
    rw [performed] at run
    exact ⟨answer, t, rfl, run⟩
  | error error t =>
    rw [performed] at run
    dsimp only at run
    split at run <;> cases run

theorem run_cons_of_ok {op : Operation} {ops : List Operation} {s t : Emission}
    {answer : Option UInt16} (run : op.perform s = .ok answer t) :
    (Script.ofOperations (op :: ops)).run s = (Script.ofOperations ops).run t := by
  simp only [Script.ofOperations, List.foldr_cons, Script.andThen, Script.run, run]

theorem grows_of_run {ops : List Operation} {s t : Emission}
    (run : (Script.ofOperations ops).run s = .ok () t) : s.pool.Grows t.pool := by
  induction ops generalizing s with
  | nil =>
    cases run
    exact Pool.grows_refl _
  | cons op ops ih =>
    obtain ⟨answer, u, performed, rest⟩ := run_cons_ok run
    exact Pool.grows_trans (Operation.grows_of_perform performed) (ih rest)

theorem tracked_run {ops : List Operation} {s t : Emission} (tracked : s.Tracked final site)
    (run : (Script.ofOperations ops).run s = .ok () t) (later : t.pool.Grows final)
    (fair : ∀ op ∈ ops, op.Fair final) : t.Tracked final site := by
  induction ops generalizing s with
  | nil =>
    cases run
    exact tracked
  | cons op ops ih =>
    obtain ⟨answer, u, performed, rest⟩ := run_cons_ok run
    have grows : u.pool.Grows final := Pool.grows_trans (grows_of_run rest) later
    have next : u.Tracked final site := tracked_perform tracked (fair op (by simp)) grows performed
    exact ih next rest fun op member => fair op (by simp [member])

end Scripts

theorem call_of_takes {pool : Pool} {i : Instruction Label} {taken given : List ValueKind}
    (takes : Takes id pool i taken given) (call : i.opcode = Opcode.invokestatic) :
    ∃ index c owner name descriptor d, i.operand = .constant index ∧ pool.get index = .ok c ∧
      c.isMethodRef = true ∧ pool.member index = .ok (owner, name, descriptor) ∧
      MethodDescriptor.parse descriptor = .ok d ∧
      taken = (d.parameters.map FieldType.kind).reverse := by
  cases takes with
  | shuffles fits shuffles =>
    rw [call] at shuffles
    cases shuffles with
    | drop amount => cases amount
    | copy amount => cases amount
  | computes fits signature operands _ =>
    obtain ⟨op, operand⟩ := i
    change op = Opcode.invokestatic at call
    subst call
    obtain ⟨shape, known, fits⟩ := fits
    cases known
    cases operand with
    | constant index =>
      change (pool.methodAt? index).map (Signature.ofMethod []) = some _ at signature
      obtain ⟨d, method, rfl⟩ := Option.map_eq_some_iff.mp signature
      obtain ⟨descriptor, referred, parsed⟩ := Option.bind_eq_some_iff.mp method
      unfold Pool.referred? at referred
      split at referred
      · rename_i c owner name text found member
        split at referred
        · rename_i sort
          cases referred
          refine ⟨index, c, owner, name, descriptor, d, rfl, found, sort, member, ?_, ?_⟩
          · cases read : MethodDescriptor.parse descriptor with
            | error e =>
              rw [read] at parsed
              cases parsed
            | ok d' =>
              rw [read] at parsed
              cases parsed
              rfl
          · simpa [Signature.ofMethod] using operands
        · cases referred
      · cases referred
    | _ => cases fits

/-- A hook above any values. Before its instruction `n` it has values of the kinds `own n` on the
stack, above the value that the event has left (if it leaves one) and those below. -/
structure Hook.Safe {ν : Type} (kind : ν → ValueKind) (pool : Pool) (base : Option ValueKind)
    (hook : Hook) (own : Nat → List ValueKind) : Prop where
  harmless : ∀ i ∈ hook.instructions, i.Harmless
  /-- What is on the stack before was there at the start, or is the hook's own. -/
  kept : ∀ found below, found.map kind = base.toList → ∀ n ≤ hook.instructions.length, ∀ stack,
    Executes kind pool (found ++ below) (hook.instructions.take n) stack →
      ∃ mine, stack = mine ++ (found ++ below) ∧ mine.map kind = own n
  /-- Every instruction finds the operands that it needs. -/
  continues : ∀ found below, found.map kind = base.toList → ∀ n i,
    hook.instructions[n]? = some i → ∀ stack,
    Executes kind pool (found ++ below) (hook.instructions.take n) stack →
      ∃ after, Acts kind pool i stack after
  /-- They are the hook's own, or the value that the event has left is copied. -/
  takesOwn : ∀ found below, found.map kind = base.toList → ∀ n i,
    hook.instructions[n]? = some i → ∀ stack,
    Executes kind pool (found ++ below) (hook.instructions.take n) stack →
      ∀ taken given rest, Takes kind pool i taken given → stack = taken ++ rest →
        ∃ mine, stack = mine ++ (found ++ below) ∧
          (taken <+: mine ∨ (mine = [] ∧ taken = found ∧ given = found ++ found))
  /-- Calls go to methods of the pool with the operands on the stack as their arguments. -/
  calls : ∀ n i, hook.instructions[n]? = some i → i.opcode = Opcode.invokestatic →
    ∃ index c owner name descriptor d, i.operand = .constant index ∧ pool.get index = .ok c ∧
      c.isMethodRef = true ∧ pool.member index = .ok (owner, name, descriptor) ∧
      MethodDescriptor.parse descriptor = .ok d ∧
      (d.parameters.map FieldType.kind).reverse <+: own n
  /-- It runs to its end, and leaves the stack as it was. -/
  completes : ∀ found below, found.map kind = base.toList →
    Executes kind pool (found ++ below) hook.instructions (found ++ below)
  restores : ∀ found below, found.map kind = base.toList → ∀ stack,
    Executes kind pool (found ++ below) hook.instructions stack → stack = found ++ below
  /-- The slots reported are the most that its values have taken. -/
  bounded : ∀ n ≤ hook.instructions.length, slotsOf id (own n) ≤ hook.maxStack.toNat
  reached : ∃ n ≤ hook.instructions.length, slotsOf id (own n) = hook.maxStack.toNat

section Safety
variable {ν : Type} {kind : ν → ValueKind} {pool : Pool} {base : Option ValueKind}
  {found below : List ν} {own : Nat → List ValueKind}

/-- Whatever was done of it, a hook can go on to any instruction of its own. -/
theorem executes_of_growth (inhabited : ∀ k, ∃ v, kind v = k) {is : List (Instruction Label)}
    {peak : Nat} (growth : Growth pool base is peak own) (value : found.map kind = base.toList)
    (n : Nat) (bound : n ≤ is.length) :
    ∃ stack, Executes kind pool (found ++ below) (is.take n) stack := by
  induction n with
  | zero => exact ⟨_, .none⟩
  | succ n ih =>
    have here : is[n]? = some is[n] := List.getElem?_eq_getElem bound
    obtain ⟨stack, sofar⟩ := ih (Nat.le_of_lt bound)
    obtain ⟨mine, rfl, kinds⟩ := kept_of_growth growth value n (Nat.le_of_lt bound) sofar
    obtain ⟨after, acts⟩ :
        ∃ after, Acts kind pool is[n] (mine ++ (found ++ below)) after :=
      acts_exists inhabited (growth.moves n _ here) value kinds
    rw [← List.take_append_getElem bound]
    exact ⟨after, .next sofar acts⟩

theorem safe_of_growth (inhabited : ∀ k, ∃ v, kind v = k) {hook : Hook}
    (growth : Growth pool base hook.instructions hook.maxStack.toNat own)
    (finish : own hook.instructions.length = []) : hook.Safe kind pool base own := by
  have whole : hook.instructions.take hook.instructions.length = hook.instructions :=
    List.take_length
  have restores : ∀ found below, found.map kind = base.toList → ∀ stack,
      Executes kind pool (found ++ below) hook.instructions stack → stack = found ++ below := by
    intro found below value stack run
    rw [← whole] at run
    obtain ⟨mine, rfl, kinds⟩ := kept_of_growth growth value _ (Nat.le_refl _) run
    rw [finish, List.map_eq_nil_iff] at kinds
    rw [kinds, List.nil_append]
  refine ⟨growth.harmless, ?_, ?_, ?_, ?_, ?_, restores, growth.bounded, growth.reached⟩
  · intro found below value n bound stack run
    exact kept_of_growth growth value n bound run
  · intro found below value n i here stack run
    have bound : n ≤ hook.instructions.length :=
      Nat.le_of_lt (List.getElem?_eq_some_iff.mp here).1
    obtain ⟨mine, rfl, kinds⟩ := kept_of_growth growth value n bound run
    exact acts_exists inhabited (growth.moves n i here) value kinds
  · intro found below value n i here stack run taken given rest takes split
    have bound : n ≤ hook.instructions.length :=
      Nat.le_of_lt (List.getElem?_eq_some_iff.mp here).1
    obtain ⟨mine, same, kinds⟩ := kept_of_growth growth value n bound run
    rw [split] at same
    obtain ⟨_, _, _, which⟩ := acts_of_moves (growth.moves n i here) value kinds takes same
    exact ⟨mine, split.trans same, which⟩
  · intro n i here call
    have moves := growth.moves n i here
    generalize own n = before, own (n + 1) = after at moves
    cases moves with
    | acts takes =>
      obtain ⟨index, c, owner, name, descriptor, d, operand, held, sort, member, parsed, rfl⟩ :=
        call_of_takes takes call
      exact ⟨index, c, owner, name, descriptor, d, operand, held, sort, member, parsed,
        List.prefix_append _ _⟩
    | @copies k _ copy =>
      subst copy
      cases k <;> cases call
  · intro found below value
    have goes : ∃ stack, Executes kind pool (found ++ below)
        (hook.instructions.take hook.instructions.length) stack :=
      executes_of_growth inhabited growth value hook.instructions.length (Nat.le_refl _)
    obtain ⟨stack, run⟩ := goes
    rw [whole] at run
    obtain rfl := restores found below value stack run
    exact run

end Safety

/-- Where the account is right and says that nothing is left, the hook is safe. -/
theorem safe_of_tracked {final : Pool} {site : Site} {s : Emission} (tracked : s.Tracked final site)
    {hook : Hook} (finished : s.emitter.finish = .ok hook) :
    ∃ own, ∀ (ν : Type) (kind : ν → ValueKind), (∀ k, ∃ v, kind v = k) →
      hook.Safe kind final site.base own := by
  obtain ⟨own, growth, last⟩ := growth_of_tracks tracked.tracks
  obtain ⟨done, rfl⟩ := finish_ok finished
  refine ⟨own, ?_⟩
  intro ν kind inhabited
  exact safe_of_growth inhabited growth (last.trans done)

/-- Hooks are sound: whatever operations a policy performs, if all succeed and what is said of raw
instructions is true. -/
theorem emit_safe {p : Policy} {site : Site} {ops : List Operation}
    (script : p.script site = Script.ofOperations ops) {pool pool' final : Pool} {hook : Hook}
    (reached : pool.Reached) (run : p.emit site pool = .ok hook pool') (later : pool'.Grows final)
    (fair : ∀ op ∈ ops, op.Fair final) :
    ∃ own, ∀ (ν : Type) (kind : ν → ValueKind), (∀ k, ∃ v, kind v = k) →
      hook.Safe kind final site.base own := by
  obtain ⟨s, emitted, rfl, finished⟩ := emit_ok run
  rw [script] at emitted
  have tracked := tracked_run (tracked_start (Pool.sound_of_reached reached) p.name) emitted later
    fair
  exact safe_of_tracked tracked finished

def countingUp : List Operation :=
  [.copyReturnValue, .pushInt 1, .raw (.plain 0x60) [.int, .int] [.int], .box (.base .int),
    .pushString "size", .swap,
    .invokeStatic "Probe" "seen" "(Ljava/lang/String;Ljava/lang/Object;)V"]

theorem countingUp_safe : ∃ (p : Policy) (site : Site) (hook : Hook) (pool : Pool),
    p.script site = Script.ofOperations countingUp ∧ p.emit site Pool.empty = .ok hook pool ∧
      (∀ op ∈ countingUp, op.Fair pool) ∧ hook.maxStack = 2 ∧
      ∃ own, ∀ (ν : Type) (kind : ν → ValueKind), (∀ k, ∃ v, kind v = k) →
        hook.Safe kind pool (some .int) own := by
  let p : Policy := ⟨"probe", fun _ => Script.ofOperations countingUp⟩
  let site : Site := ⟨⟨"A", "size", "()I"⟩, .return, some (.base .int)⟩
  have answer : (match p.emit site Pool.empty with
      | .ok hook _ => some hook.maxStack
      | .error _ _ => none) = some 2 := by decide +kernel
  cases run : p.emit site Pool.empty with
  | error e pool =>
    rw [run] at answer
    cases answer
  | ok hook pool =>
    rw [run] at answer
    have fair : ∀ op ∈ countingUp, op.Fair pool := by
      intro op member
      cases op with
      | raw i pops pushes =>
        simp only [countingUp, List.mem_cons, Operation.raw.injEq, reduceCtorEq, false_or,
          List.not_mem_nil, or_false] at member
        obtain ⟨rfl, rfl, rfl⟩ := member
        exact .computes ⟨.nothing, rfl, rfl⟩ rfl rfl rfl
      | _ => trivial
    exact ⟨p, site, hook, pool, rfl, run, fair, Option.some.inj answer,
      emit_safe rfl .empty run (Pool.grows_refl pool) fair⟩

end ClassHooks
