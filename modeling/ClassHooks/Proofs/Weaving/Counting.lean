import ClassHooks.Proofs.Hook.Counting
import ClassHooks.Proofs.Weaving.Resting

/-!
The stack that a woven method asks for, and the one that it needs. Hooks tell how many slots they
need, so a method asks for what it needs or is refused. An emitter whose values take more slots than
it can count breaks the weaving off, and nobody is told why.
-/
namespace ClassHooks.Weaving

/-- The most slots that the hooks of a chain take around a method, one hook emitted after the
other. -/
inductive Heights (chain : Chain) (method : MethodName) (returnType : Option FieldType)
    (returns : Nat) (p : Pool) : Nat → Nat → Nat → Prop where
  | mk {enter exit error : Nat} {p₁ p₂ p₃ : Pool}
      (enters : Site.Climbs ⟨method, .enter, returnType⟩ chain.policies p p₁ enter)
      (exits : if 0 < returns then
        Site.Climbs ⟨method, .return, returnType⟩ chain.policies p₁ p₂ exit
        else p₂ = p₁ ∧ exit = 0)
      (errors : Site.Climbs ⟨method, .error, returnType⟩ chain.policies p₂ p₃ error) :
      Heights chain method returnType returns p enter exit error

/-- The slots that the woven body needs, however many they are. -/
def neededSlots (maxStack : UInt16) (enter exit error : Nat) : Nat :=
  max (maxStack.toNat + max enter exit) (1 + error)

section Hooks
variable {chain : Chain} {method : MethodName} {returnType : Option FieldType} {returns : Nat}
  {p p' : Pool} {enter exit error : Nat}

theorem told_of_heights (heights : Heights chain method returnType returns p enter exit error)
    {first between last : Hook}
    (emits : Emits chain method returnType returns p first between last p') :
    first.maxStack.toNat = enter ∧ between.maxStack.toNat = exit ∧
      last.maxStack.toNat = error := by
  cases heights with
  | mk enters exits errors =>
    cases emits with
    | mk emits emits' emits'' =>
      obtain ⟨rfl, told⟩ := emit_of_climbs enters emits
      by_cases some : 0 < returns
      · rw [if_pos some] at exits emits'
        obtain ⟨rfl, told'⟩ := emit_of_climbs exits emits'
        exact ⟨told, told', (emit_of_climbs errors emits'').2⟩
      · rw [if_neg some] at exits emits'
        obtain ⟨rfl, rfl⟩ := exits
        obtain ⟨rfl, rfl⟩ := state_pure_ok_iff.mp emits'
        exact ⟨told, rfl, (emit_of_climbs errors emits'').2⟩

theorem needed_of_heights (heights : Heights chain method returnType returns p enter exit error)
    {first between last : Hook}
    (emits : Emits chain method returnType returns p first between last p') (maxStack : UInt16) :
    neededStack maxStack first between last = neededSlots maxStack enter exit error := by
  obtain ⟨told, told', told''⟩ := told_of_heights heights emits
  rw [neededStack, toNat_max, told, told', told'', neededSlots]

end Hooks

/-- A policy breaks off where the hooks of a chain are emitted around a method. -/
inductive Overruns (chain : Chain) (method : MethodName) (returnType : Option FieldType)
    (returns : Nat) (p : Pool) : Prop where
  | enter (breaks : Site.Breaks ⟨method, .enter, returnType⟩ chain.policies p)
  | exit {enter : Hook} {p₁ : Pool}
      (enters : chain.emit ⟨method, .enter, returnType⟩ p = .ok enter p₁) (some : 0 < returns)
      (breaks : Site.Breaks ⟨method, .return, returnType⟩ chain.policies p₁)
  | error {enter exit : Hook} {p₁ p₂ : Pool}
      (enters : chain.emit ⟨method, .enter, returnType⟩ p = .ok enter p₁)
      (exits : (if 0 < returns then chain.emit ⟨method, .return, returnType⟩
        else pure Hook.empty) p₁ = .ok exit p₂)
      (breaks : Site.Breaks ⟨method, .error, returnType⟩ chain.policies p₂)

theorem weave_of_overruns {b : Body} {chain : Chain} {method : MethodName} {p : Pool}
    {descriptor : MethodDescriptor}
    (parsed : MethodDescriptor.parse method.descriptor = .ok descriptor)
    (overruns : Overruns chain method descriptor.returnType b.returnCount p)
    (requireFrames : Bool) :
    ∃ q, b.weave chain requireFrames method p = .error .overflow q := by
  unfold Body.weave
  rw [state_bind_of_ok (PoolM.lift_ok_iff.mpr ⟨mapError_ok_iff.mpr parsed, rfl⟩)]
  dsimp only
  cases overruns with
  | enter breaks =>
    obtain ⟨q, broken⟩ := emit_of_breaks breaks
    exact ⟨q, state_bind_of_error broken⟩
  | exit enters some breaks =>
    obtain ⟨q, broken⟩ := emit_of_breaks breaks
    rw [state_bind_of_ok enters, if_pos some]
    exact ⟨q, state_bind_of_error broken⟩
  | error enters exits breaks =>
    obtain ⟨q, broken⟩ := emit_of_breaks breaks
    rw [state_bind_of_ok enters, state_ite_bind_of_ok exits]
    exact ⟨q, state_bind_of_error broken⟩

/-- While its operations succeed the counters of an emitter are exact, and a method asks for the slots
that it needs, or is refused because they are too many. Where the values of a hook would take more
slots than can be counted, neither the emitter nor the weaving reports an error: the run ends. -/
theorem weave_counts (b : Body) (chain : Chain) (requireFrames : Bool) (method : MethodName)
    (p : Pool) :
    (∀ (policy : Policy) (site : Site) (pool : Pool) (s : Emission) (most : Nat),
      (policy.script site).Climbs ⟨pool, Emitter.start policy.name site⟩ s most →
        s.emitter.depth.toNat = slotsOf id s.emitter.stack ∧ s.emitter.maxDepth.toNat = most) ∧
    (∀ (policy : Policy) (site : Site) (pool : Pool) (s : Emission),
      (policy.script site).Breaks ⟨pool, Emitter.start policy.name site⟩ s →
        s.Full ∧ policy.emit site pool = .error .overflow s.pool) ∧
    ∀ descriptor, MethodDescriptor.parse method.descriptor = .ok descriptor →
      (∀ enter exit error, Heights chain method descriptor.returnType b.returnCount p enter exit
          error →
        (∀ woven p', b.weave chain requireFrames method p = .ok woven p' →
          woven.body.maxStack.toNat = neededSlots b.maxStack enter exit error) ∧
        (65535 < neededSlots b.maxStack enter exit error → b.Sound →
          ∀ first between last p',
            Emits chain method descriptor.returnType b.returnCount p first between last p' →
            LabelRoom b between.instructions →
            b.weave chain requireFrames method p = .error (.notSupported (.operandStack
              method.className method.method method.descriptor
              (neededSlots b.maxStack enter exit error))) p')) ∧
      (Overruns chain method descriptor.returnType b.returnCount p →
        ∃ q, b.weave chain requireFrames method p = .error .overflow q) := by
  refine ⟨?_, ?_, ?_⟩
  · intro policy site pool s most climbs
    have counts := counts_of_climbs climbs (counts_start pool policy.name site)
    rw [Nat.zero_max] at counts
    exact ⟨counts.depth, counts.peak⟩
  · intro policy site pool s breaks
    exact ⟨full_of_breaks breaks (counts_start pool policy.name site), policy_emit_of_breaks breaks⟩
  · intro descriptor parsed
    refine ⟨?_, fun overruns => weave_of_overruns parsed overruns requireFrames⟩
    intro enter exit error heights
    constructor
    · intro woven p' run
      obtain ⟨first, between, last, made⟩ := made_of_weave run
      obtain ⟨descriptor', p₁, _, parsed', emits, _⟩ := made.emits
      rw [parsed] at parsed'
      cases parsed'
      rw [made.rest, ← needed_of_heights heights emits]
      exact UInt16.toNat_ofNat_of_lt' (Nat.lt_succ_of_le made.room)
    · intro deep sound first between last p' emits numbers
      rw [← needed_of_heights heights emits] at deep ⊢
      exact (weave_of_emits sound parsed emits numbers).1 deep

theorem pushing_counts : ∃ b woven p' descriptor, Body.ofCode returnsZero Pool.empty = .ok b ∧
    MethodDescriptor.parse "()I" = .ok descriptor ∧
    Heights pushing ⟨"A", "m", "()I"⟩ descriptor.returnType b.returnCount Pool.empty 1 1 1 ∧
    b.weave pushing false ⟨"A", "m", "()I"⟩ Pool.empty = .ok woven p' ∧
    woven.body.maxStack.toNat = neededSlots b.maxStack 1 1 1 := by
  have accepted : (Body.ofCode returnsZero Pool.empty).toOption.any (fun b =>
      b.returnCount = 1) = true := by decide +kernel
  have weaves : (Body.ofCode returnsZero Pool.empty).toOption.any (fun b =>
      succeeds (b.weave pushing false ⟨"A", "m", "()I"⟩) Pool.empty) = true := by decide +kernel
  have describes : (MethodDescriptor.parse "()I").toOption.isSome = true := by decide +kernel
  obtain ⟨b, read⟩ := ok_of_isSome (Option.isSome_of_any accepted)
  obtain ⟨descriptor, parsed⟩ := ok_of_isSome describes
  rw [read] at accepted weaves
  have returns : b.returnCount = 1 := of_decide_eq_true accepted
  obtain ⟨woven, p', run⟩ : ∃ woven p', b.weave pushing false ⟨"A", "m", "()I"⟩ Pool.empty =
      .ok woven p' := ok_of_succeeds weaves
  have climbs : ∀ site : Site, site.Climbs pushing.policies Pool.empty Pool.empty 1 := by
    intro site
    have own : ∃ s, (Script.ofOperations [.pushNull, .discard]).Climbs
        ⟨Pool.empty, Emitter.start "p" site⟩ s (max 0 (max 1 0)) ∧ s.pool = Pool.empty :=
      ⟨_, .perform rfl (.perform rfl .done), rfl⟩
    obtain ⟨s, own, same⟩ := own
    have whole : site.Climbs pushing.policies Pool.empty s.pool (max 1 0) := .policy own .none
    rw [same] at whole
    exact whole
  have heights : Heights pushing ⟨"A", "m", "()I"⟩ descriptor.returnType b.returnCount Pool.empty
      1 1 1 := by
    refine .mk (climbs _) ?_ (climbs _)
    rw [returns]
    exact climbs _
  exact ⟨b, woven, p', descriptor, read, parsed, heights, run,
    (((weave_counts b pushing false ⟨"A", "m", "()I"⟩ Pool.empty).2.2 descriptor parsed).1 1 1 1
      heights).1 woven p' run⟩

section Tower

def lift : Operation := .raw (.plain 9) [] [.long]

def tower (n : Nat) : List Operation := List.replicate n lift ++ List.replicate n .discard

def towerPolicy (n : Nat) : Policy :=
  ⟨"p", fun site => if site.event = .error then .ofOperations (tower n) else .done⟩

def towering (n : Nat) : Chain := ⟨[towerPolicy n], by simp⟩

theorem slotsOf_longs (n : Nat) : slotsOf id (List.replicate n ValueKind.long) = 2 * n := by
  simp only [slotsOf, List.map_replicate, List.sum_replicate, id, ValueKind.slots, smul_eq_mul]
  omega

theorem lift_performs (s : Emission) : lift.perform s =
    (EmitM.pushAll [.long] >>= fun _ => pure none) ⟨s.pool, s.emitter.append (.plain 9)⟩ := rfl

theorem lifts_break {n : Nat} {s : Emission} {most : Nat} (counts : s.Counts most)
    (tall : 65535 < slotsOf id s.emitter.stack + 2 * n) (rest : List Operation) :
    ∃ t, (Script.ofOperations (List.replicate n lift ++ rest)).Breaks s t := by
  induction n generalizing s most with
  | zero =>
    have := counts.low
    have := counts.bound
    omega
  | succ n ih =>
    -- This value is the one too many, or it is put on the stack and a later one is.
    by_cases room : slotsOf id s.emitter.stack + 2 ≤ 65535
    · have runs : lift.perform s = .ok none
          ⟨s.pool, (s.emitter.append (.plain 9)).raised .long⟩ := by
        rw [lift_performs]
        refine state_bind_of_ok (state_bind_of_ok (EmitM.push_ok_iff.mpr ⟨?_, rfl⟩))
        exact counts.depth ▸ room
      have more := raises_perform lift s most counts
      rw [runs] at more
      have taller : 65535 < 2 + slotsOf id s.emitter.stack + 2 * n := by omega
      obtain ⟨t, breaks⟩ := ih more taller
      exact ⟨t, .later runs breaks⟩
    · have full : lift.perform s = .error .overflow ⟨s.pool, s.emitter.append (.plain 9)⟩ := by
        rw [lift_performs]
        refine state_bind_of_error (state_bind_of_error (EmitM.push_error_iff.mpr ⟨?_, rfl, rfl⟩))
        exact counts.depth ▸ Nat.lt_of_not_le room
      exact ⟨_, .here full⟩

theorem towering_quiet (n : Nat) {site : Site} (other : site.event ≠ .error) (p : Pool) :
    (towering n).emit site p = .ok Hook.empty p := by
  have quiet : (towerPolicy n).emit site p = .ok Hook.empty p := by
    unfold Policy.emit
    rw [show (towerPolicy n).script site = .done from if_neg other]
    rfl
  exact state_bind_ok_iff.mpr ⟨_, _, state_bind_ok_iff.mpr ⟨_, _, quiet, rfl⟩, rfl⟩

theorem towering_breaks {n : Nat} (tall : 65535 < 2 * n) {site : Site}
    (thrown : site.event = .error) (p : Pool) : site.Breaks (towering n).policies p := by
  obtain ⟨t, breaks⟩ := lifts_break (counts_start p "p" site)
    (tall.trans_le (Nat.le_add_left _ _)) (List.replicate n .discard)
  refine .here (s := t) ?_
  rw [show (towerPolicy n).script site = .ofOperations (tower n) from if_pos thrown]
  exact breaks

def returnsNothing : CodeAttribute := ⟨0, 1, [0xB1], [], []⟩

/-- With 32768 values of two slots above the exception, 65537 slots are needed, and nobody is told
so. -/
theorem towering_uncounted : ∃ b descriptor q, Body.ofCode returnsNothing Pool.empty = .ok b ∧
    MethodDescriptor.parse "()V" = .ok descriptor ∧
    neededSlots b.maxStack 0 0 (slotsOf id (List.replicate 32768 ValueKind.long)) = 65537 ∧
    Overruns (towering 32768) ⟨"A", "m", "()V"⟩ descriptor.returnType b.returnCount Pool.empty ∧
    b.weave (towering 32768) false ⟨"A", "m", "()V"⟩ Pool.empty = .error .overflow q ∧
    Error.overflow.isReported = false := by
  have accepted : (Body.ofCode returnsNothing Pool.empty).toOption.any (fun b =>
      b.returnCount = 1 ∧ b.maxStack = 0) = true := by decide +kernel
  have describes : (MethodDescriptor.parse "()V").toOption.isSome = true := by decide +kernel
  obtain ⟨b, read⟩ := ok_of_isSome (Option.isSome_of_any accepted)
  obtain ⟨descriptor, parsed⟩ := ok_of_isSome describes
  rw [read] at accepted
  obtain ⟨returns, shallow⟩ := of_decide_eq_true accepted
  have needed : neededSlots b.maxStack 0 0
      (slotsOf id (List.replicate 32768 ValueKind.long)) = 65537 := by
    rw [shallow, slotsOf_longs]
    decide
  have overruns : Overruns (towering 32768) ⟨"A", "m", "()V"⟩ descriptor.returnType b.returnCount
      Pool.empty := by
    have entering : Event.enter ≠ .error := nofun
    have returning : Event.return ≠ .error := nofun
    have exits : (if 0 < b.returnCount then
        (towering 32768).emit ⟨⟨"A", "m", "()V"⟩, .return, descriptor.returnType⟩
        else pure Hook.empty) Pool.empty = .ok Hook.empty Pool.empty := by
      rw [returns]
      exact towering_quiet 32768 returning Pool.empty
    exact .error (towering_quiet 32768 entering Pool.empty) exits
      (towering_breaks (by decide) rfl Pool.empty)
  obtain ⟨q, run⟩ := weave_of_overruns (b := b) parsed overruns false
  exact ⟨b, descriptor, q, read, parsed, needed, overruns, run, rfl⟩

end Tower

end ClassHooks.Weaving
