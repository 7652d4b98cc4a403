import ClassHooks.Proofs.Instruction.Targets

/-!
What the shape of an operand says of its opcode, and the other way round. The facts are about the
256 codes and are settled by looking at all of them.
-/
namespace ClassHooks
namespace Opcode

theorem forall_of_fin {P : Opcode → Prop} (each : ∀ n : Fin 256, P (UInt8.ofNat n)) (op : Opcode) :
    P op := by
  have here := each ⟨op.toNat, op.toNat_lt⟩
  simpa using here

theorem table_facts : ∀ op : Opcode,
    ((shape? op).isSome → op ≠ wide) ∧
    (takesWideSlot op ↔ shape? op = some .slot) ∧
    (shape? op = some .increment → op = iinc) ∧
    (op = ldc ↔ shape? op = some .constant8) ∧
    (isLongJump op ↔ shape? op = some .branch32) ∧
    (isReturn op → isTerminal op ∧ shape? op = some .nothing) ∧
    ((flow op = .sequential ∨ flow op = .call) →
      isTerminal op = false ∧ shape? op ≠ some .branch16 ∧ shape? op ≠ some .branch32 ∧
        shape? op ≠ some .tableSwitch ∧ shape? op ≠ some .lookupSwitch) :=
  forall_of_fin (by decide +kernel)

theorem ne_wide_of_shape (op : Opcode) : (shape? op).isSome → op ≠ wide := (table_facts op).1

theorem takesWideSlot_iff_shape (op : Opcode) : takesWideSlot op ↔ shape? op = some .slot :=
  (table_facts op).2.1

theorem eq_iinc_of_shape (op : Opcode) : shape? op = some .increment → op = iinc :=
  (table_facts op).2.2.1

theorem eq_ldc_iff_shape (op : Opcode) : op = ldc ↔ shape? op = some .constant8 :=
  (table_facts op).2.2.2.1

theorem isLongJump_iff_shape (op : Opcode) : isLongJump op ↔ shape? op = some .branch32 :=
  (table_facts op).2.2.2.2.1

theorem isTerminal_of_isReturn (op : Opcode) (ends : isReturn op) : isTerminal op :=
  ((table_facts op).2.2.2.2.2.1 ends).1

theorem shape_of_isReturn (op : Opcode) (ends : isReturn op) : shape? op = some .nothing :=
  ((table_facts op).2.2.2.2.2.1 ends).2

theorem shape_of_straight (op : Opcode) (straight : flow op = .sequential ∨ flow op = .call) :
    isTerminal op = false ∧ shape? op ≠ some .branch16 ∧ shape? op ≠ some .branch32 ∧
      shape? op ≠ some .tableSwitch ∧ shape? op ≠ some .lookupSwitch :=
  (table_facts op).2.2.2.2.2.2 straight

theorem shape_of_longForm : ∀ op long : Opcode, longForm? op = some long →
    shape? op = some .branch16 ∧ shape? long = some .branch32 := by
  intro op long form
  unfold longForm? at form
  split at form
  · rename_i jump
    subst jump
    cases form
    exact ⟨rfl, rfl⟩
  · split at form
    · rename_i call
      subst call
      cases form
      exact ⟨rfl, rfl⟩
    · cases form

theorem longForm_of_isLongJump (op : Opcode) (far : isLongJump op = true) : longForm? op = none := by
  cases form : longForm? op with
  | none => rfl
  | some long =>
    have short := (shape_of_longForm op long form).1
    rw [(isLongJump_iff_shape op).mp far] at short
    cases short

end Opcode

namespace Operand

def KeysRise : Operand τ → Prop
  | .lookupSwitch _ pairs => (pairs.map (·.1)).Pairwise (· < ·)
  | _ => True

theorem keysRise_map {f : τ → σ} {o : Operand τ} : (o.map f).KeysRise ↔ o.KeysRise := by
  cases o <;> simp [map, KeysRise, List.map_map, Function.comp_def]

theorem keysRise_of_targets {o : Operand τ} (none : o.targets = []) : o.KeysRise := by
  cases o with
  | lookupSwitch => cases none
  | _ => trivial

theorem targets_of_fits {o : Operand τ} {shape : Shape} (fits : o.fits shape)
    (short : shape ≠ .branch16) (long : shape ≠ .branch32) (table : shape ≠ .tableSwitch)
    (lookup : shape ≠ .lookupSwitch) : o.targets = [] := by
  cases o <;> cases shape <;> simp_all [Operand.fits, targets]

end Operand

namespace Instruction

def Fits (i : Instruction τ) : Prop :=
  ∃ shape, i.opcode.shape? = some shape ∧ i.operand.fits shape = true

def Straight (i : Instruction τ) : Prop := i.flow = .sequential ∨ i.flow = .call

theorem not_terminal_of_straight {i : Instruction τ} (straight : i.Straight) :
    i.isTerminal = false := (Opcode.shape_of_straight i.opcode straight).1

theorem not_return_of_straight {i : Instruction τ} (straight : i.Straight) :
    i.isReturn = false := by
  have open_end := not_terminal_of_straight straight
  have closed := Opcode.isTerminal_of_isReturn i.opcode
  simp only [isTerminal, isReturn] at open_end ⊢
  grind

theorem targets_of_straight {i : Instruction τ} (straight : i.Straight) (fits : i.Fits) :
    i.targets = [] := by
  obtain ⟨shape, assigned, fits⟩ := fits
  obtain ⟨_, short, long, table, lookup⟩ := Opcode.shape_of_straight i.opcode straight
  apply Operand.targets_of_fits fits <;> intro same <;> simp_all

theorem targets_of_return {i : Instruction τ} (ends : i.isReturn) (fits : i.Fits) :
    i.targets = [] := by
  obtain ⟨shape, assigned, fits⟩ := fits
  have plain := Opcode.shape_of_isReturn i.opcode ends
  rw [assigned, Option.some.injEq] at plain
  subst plain
  exact Operand.targets_of_fits fits (by simp) (by simp) (by simp) (by simp)

end Instruction
end ClassHooks
