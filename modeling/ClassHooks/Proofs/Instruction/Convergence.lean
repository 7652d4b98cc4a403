import ClassHooks.Proofs.Instruction.Widening

/-!
How the layout of an assembly ends. The rounds are few, each grows out of the one before, and the
last one writes no branch that does not reach. A jump over a large table shows that code that grows
may still lose padding.
-/
namespace ClassHooks
namespace Layout
open Slot

def PaddingShrinks (slots slots' : List Slot) : Prop :=
  ∃ (k p p' : Nat) (s s' : Slot) (i : Instruction Label),
    (starts 0 slots)[k]? = some (p, s) ∧ (starts 0 slots')[k]? = some (p', s') ∧
      s.item = .op i ∧ i.isSwitch = true ∧
        Instruction.switchPadding p' < Instruction.switchPadding p

end Layout

namespace Instruction

def table (l : Label) (high : Nat) : Instruction Label :=
  ⟨0xAA, .tableSwitch l 0 (Int32.ofNat high) (List.replicate (high + 1) l)⟩

@[simp] theorem encodedSize_nothing (op : Opcode) (p : Nat) (long : Bool) :
    (⟨op, .nothing⟩ : Instruction τ).encodedSize p long = 1 := rfl

@[simp] theorem encodedSize_goto (t : τ) (p : Nat) (long : Bool) :
    (⟨Opcode.goto, .branch t⟩ : Instruction τ).encodedSize p long = if long then 5 else 3 := by
  cases long <;> rfl

@[simp] theorem encodedSize_table (l : Label) (high p : Nat) (long : Bool) :
    (table l high).encodedSize p long = 17 + switchPadding p + 4 * high := by
  simp only [table, encodedSize, List.length_replicate]
  omega

theorem targets_table {l t : Label} {high : Nat} (target : t ∈ (table l high).targets) : t = l := by
  simpa [table, targets, Operand.targets] using target

theorem fits_table (l : Label) {high : Nat} (small : high < 65536) : (table l high).Fits := by
  refine ⟨.tableSwitch, rfl, ?_⟩
  have value : (Int32.ofNat high).toInt = high := Int32.toInt_ofNat_of_lt (by omega)
  have zero : (0 : Int32).toInt = 0 := rfl
  simp only [table, Operand.fits, List.length_replicate, Int32.le_iff_toInt_le, value, zero,
    Bool.and_eq_true, decide_eq_true_eq, beq_iff_eq]
  omega

end Instruction

namespace Layout
open Slot

def jumpOverTable : List Item :=
  [.op ⟨Opcode.goto, .branch ⟨0⟩⟩, .op ⟨0x00, .nothing⟩, .op ⟨0x00, .nothing⟩,
    .op (Instruction.table ⟨0⟩ 8191), .mark ⟨0⟩, .op ⟨Opcode.vreturn, .nothing⟩]

theorem acceptable_jumpOverTable : Assembly.Acceptable jumpOverTable := by
  refine ⟨by decide, ?_⟩
  simp only [jumpOverTable, Item.code_op, Item.code_mark, Item.code_nil, List.forall_mem_cons]
  exact ⟨⟨.branch16, rfl, rfl⟩, ⟨.nothing, rfl, rfl⟩, ⟨.nothing, rfl, rfl⟩,
    Instruction.fits_table _ (by decide), ⟨.nothing, rfl, rfl⟩, by simp⟩

def tableSlots (long : Bool) : List Slot :=
  ⟨.op ⟨Opcode.goto, .branch ⟨0⟩⟩, long⟩ :: narrow jumpOverTable.tail

section Table
variable (long : Bool)

theorem starts_tableSlots : starts 0 (tableSlots long) =
    [(0, ⟨.op ⟨Opcode.goto, .branch ⟨0⟩⟩, long⟩),
      (if long then 5 else 3, ⟨.op ⟨0x00, .nothing⟩, false⟩),
      (if long then 6 else 4, ⟨.op ⟨0x00, .nothing⟩, false⟩),
      (if long then 7 else 5, ⟨.op (Instruction.table ⟨0⟩ 8191), false⟩),
      (32788, ⟨.mark ⟨0⟩, false⟩), (32788, ⟨.op ⟨Opcode.vreturn, .nothing⟩, false⟩)] := by
  cases long <;> simp [tableSlots, jumpOverTable, narrow, starts, Instruction.switchPadding]

theorem ofSlots_tableSlots : ∃ layout, ofSlots (tableSlots long) = .ok layout ∧
    layout.placed = starts 0 (tableSlots long) ∧ layout.distance 0 ⟨0⟩ = .ok 32788 := by
  have room : finish 0 (tableSlots long) = 32789 := by
    cases long <;> simp [tableSlots, jumpOverTable, narrow, finish, Instruction.switchPadding]
  have place : placeAfter 0 (tableSlots long) 4 = 32788 := by
    cases long <;> simp [tableSlots, jumpOverTable, narrow, placeAfter, Instruction.switchPadding]
  have marks : Item.LastMarks (items (tableSlots long)) ⟨0⟩ 4 :=
    .pastOp (.pastOp (.pastOp (.pastOp (.here (by decide)))))
  have made := ofSlots_ok_iff.mpr ⟨room.trans_le (by decide), rfl⟩
  refine ⟨_, made, rfl, ?_⟩
  rw [distance_of_marks made marks, place]
  rfl

end Table

theorem rounds_jumpOverTable : ∃ layout,
    Rounds (narrow jumpOverTable) [tableSlots false, tableSlots true] (.ok layout) := by
  obtain ⟨first, made, placed, far⟩ := ofSlots_tableSlots false
  obtain ⟨second, made', placed', far'⟩ := ofSlots_tableSlots true
  refine ⟨second, .again made (mapM_ok_iff.mpr ?_) ?_ (.settled made' (mapM_ok_iff.mpr ?_))⟩
  · rw [placed, starts_tableSlots]
    exact .cons (widenSlot_far far rfl rfl rfl) (.cons rfl (.cons rfl (.cons rfl
      (.cons rfl (.cons rfl .nil)))))
  · change tableSlots true ≠ tableSlots false
    simp [tableSlots]
  · rw [placed', starts_tableSlots]
    exact .cons rfl (.cons rfl (.cons rfl (.cons rfl (.cons rfl (.cons rfl .nil)))))

theorem paddingShrinks_jumpOverTable : PaddingShrinks (tableSlots false) (tableSlots true) := by
  refine ⟨3, 5, 7, ⟨.op (.table ⟨0⟩ 8191), false⟩, ⟨.op (.table ⟨0⟩ 8191), false⟩,
    .table ⟨0⟩ 8191, ?_, ?_, rfl, rfl, by decide⟩
  · rw [starts_tableSlots]
    rfl
  · rw [starts_tableSlots]
    rfl

end Layout

namespace Assembly
open Slot Layout

/-- The layouts that an assembly goes through are told by its items. There are at most as many as
there are jumps to widen, and one; each grows out of the one before, although a switch may need
less padding in it. In the last one every short branch reaches its target, and no instruction finds
a distance that its field cannot hold. -/
theorem finish_converges (a : Assembly) :
    (∃ rounds, (∀ rounds' result, Rounds (narrow a.items.toList) rounds' result ↔
        rounds' = rounds ∧ result = settle (narrow a.items.toList)) ∧
      rounds.length ≤ (Item.code a.items.toList).countP
        (fun i => i.opcode = Opcode.goto ∨ i.opcode = Opcode.jsr) + 1 ∧
      rounds.IsChain Grows ∧
      (∀ layout, settle (narrow a.items.toList) = .ok layout → ∃ last,
        rounds.getLast? = some last ∧ layout.placed = starts 0 last ∧
        (∀ p op l, (p, ⟨.op ⟨op, .branch l⟩, false⟩) ∈ layout.placed → op.isLongJump = false →
          ∃ d, layout.distance p l = .ok d ∧ fitsShort d = true) ∧
        ∀ p s, (p, s) ∈ layout.placed → ∀ fault,
          layout.slotBytes p s ≠ .error (.invalidBranch fault)) ∧
      ∀ fault, a.finish = .error (.invalidBranch fault) →
        settle (narrow a.items.toList) = .error (.invalidBranch fault)) ∧
    ∃ items slots slots' rest, Acceptable items ∧
      Rounds (narrow items) (slots :: slots' :: rest) (settle (narrow items)) ∧
        PaddingShrinks slots slots' := by
  constructor
  · obtain ⟨rounds, history⟩ := rounds_settle (narrow a.items.toList)
    have final : ∀ layout, settle (narrow a.items.toList) = .ok layout → ∃ last,
        rounds.getLast? = some last ∧ Settled last layout := fun layout done =>
      rounds_last history (grown_narrow _) done
    have written : ∀ layout, settle (narrow a.items.toList) = .ok layout →
        ∀ p s, (p, s) ∈ layout.placed → ∀ fault,
          layout.slotBytes p s ≠ .error (.invalidBranch fault) := by
      intro layout done p s there fault failed
      obtain ⟨last, _, settled⟩ := final layout done
      rw [placed_of_made settled.made] at there
      obtain ⟨l, same⟩ := slotBytes_error settled there failed
      cases same
    refine ⟨rounds, fun rounds' result => ⟨fun other => rounds_unique history other, ?_⟩,
      narrowCount_narrow a.items.toList ▸ rounds_length history, rounds_grow history, ?_, ?_⟩
    · rintro ⟨rfl, rfl⟩
      exact history
    · intro layout done
      obtain ⟨last, ends, settled⟩ := final layout done
      refine ⟨last, ends, placed_of_made settled.made, ?_, written layout done⟩
      intro p op l there short
      rw [placed_of_made settled.made] at there
      exact reach_of_settled settled there short
    · intro fault failed
      rcases bind_error_iff.mp failed with unsettled | ⟨layout, done, failed⟩
      · exact unsettled
      · rcases bind_error_iff.mp failed with lost | ⟨_, _, made⟩
        · rcases bind_error_iff.mp lost with lost | ⟨_, _, made⟩
          · obtain ⟨⟨p, s⟩, there, lost⟩ := error_of_mapM lost
            exact absurd lost (written layout done p s there fault)
          · cases made
        · cases made
  -- Padding does shrink: a switch behind a jump that is widened may need less of it.
  · obtain ⟨layout, history⟩ := rounds_jumpOverTable
    obtain ⟨rounds, settled⟩ := rounds_settle (narrow jumpOverTable)
    obtain ⟨rfl, same⟩ := rounds_unique history settled
    exact ⟨_, _, _, _, acceptable_jumpOverTable, settled, paddingShrinks_jumpOverTable⟩

theorem jumpOverTable_converges : ∃ layout,
    settle (narrow jumpOverTable) = .ok layout ∧ layout.placed = starts 0 (tableSlots true) ∧
      ∀ p s, (p, s) ∈ layout.placed → ∀ fault,
        layout.slotBytes p s ≠ .error (.invalidBranch fault) := by
  obtain ⟨layout, history⟩ := rounds_jumpOverTable
  obtain ⟨⟨rounds, only, _, _, final, _⟩, _⟩ := finish_converges ⟨jumpOverTable.toArray, ∅⟩
  obtain ⟨rfl, same⟩ := (only _ _).mp history
  obtain ⟨last, ends, placed, _, written⟩ := final layout same.symm
  cases ends
  exact ⟨layout, same.symm, placed, written⟩

end Assembly
end ClassHooks
