import ClassHooks.Proofs.Instruction.Acceptance
import ClassHooks.Proofs.Instruction.Convergence

/-!
Which code is not refused. If some choice of long jumps leaves room and lets every other branch reach
its target, with two bytes to spare where one of the long jumps moves a switch that is on the way,
then the layout is found. The two bytes are needed: a jump that reaches once another one is long may
not reach before, and a jump that has become long stays so.
-/
namespace ClassHooks
namespace Assembly
open Slot Layout

/-- Items that can be written with some of their jumps long are encoded. -/
theorem finish_complete {items : List Item} {a : Assembly} {slots : List Slot}
    (accepted : items.foldlM add empty = .ok a)
    (marked : ∀ i ∈ Item.code items, ∀ l ∈ i.targets, l ∈ Item.labels items)
    (chosen : Slot.items slots = items) (encodable : Encodable slots) (steady : Steady slots) :
    ∃ e, a.finish = .ok e := by
  obtain ⟨listed, acceptable⟩ := Assembly.accepted accepted
  have placed : Item.Placed (Slot.items (narrow items)) := by
    rw [items_narrow]
    exact ⟨acceptable, marked⟩
  have within := within_narrow slots
  rw [chosen] at within
  obtain ⟨last, layout, inside, settled, done⟩ := settle_within encodable steady placed within
    (grown_narrow items)
  have same : Slot.items last = items := (within_items inside).symm.trans chosen
  obtain ⟨bytes, coded⟩ := code_of_placed settled (by rwa [same, ← items_narrow items])
  refine ⟨⟨bytes, layout.labels⟩, ?_⟩
  rw [finish, listed]
  exact bind_ok_iff.mpr ⟨layout, done, bind_ok_iff.mpr ⟨bytes, coded, rfl⟩⟩

end Assembly

namespace Slot

/-- Two jumps over tables; the table that both jump over is moved by the one that stands first. -/
def jumpsOverTables (first second : Bool) (high high' : Nat) : List Slot :=
  [⟨.op ⟨0x00, .nothing⟩, false⟩, ⟨.op ⟨0x00, .nothing⟩, false⟩,
    ⟨.op ⟨Opcode.goto, .branch ⟨0⟩⟩, first⟩, ⟨.op ⟨Opcode.goto, .branch ⟨1⟩⟩, second⟩,
    ⟨.op (.table ⟨0⟩ high), false⟩, ⟨.op ⟨0x00, .nothing⟩, false⟩, ⟨.mark ⟨1⟩, false⟩,
    ⟨.op (.table ⟨0⟩ high'), false⟩, ⟨.mark ⟨0⟩, false⟩, ⟨.op ⟨Opcode.vreturn, .nothing⟩, false⟩]

section Tables
variable (high high' : Nat)

theorem finish_oneLong :
    finish 0 (jumpsOverTables true false high high') = 49 + 4 * (high + high') := by
  simp [jumpsOverTables, finish, Instruction.switchPadding]
  omega

theorem places_oneLong : placeAfter 0 (jumpsOverTables true false high high') 3 = 7 ∧
    placeAfter 0 (jumpsOverTables true false high high') 6 = 29 + 4 * high := by
  simp [jumpsOverTables, placeAfter, Instruction.switchPadding]
  omega

theorem short_oneLong {n m : Nat} {op : Opcode} {l : Label}
    (here : (ops (jumpsOverTables true false high high'))[n]? = some (⟨op, .branch l⟩, false))
    (marks : Item.Marks (items (jumpsOverTables true false high high')) l m) : n = 3 ∧ m = 6 := by
  match n with
  | 3 =>
    cases here
    simpa [jumpsOverTables, items] using marks
  | 0 | 1 | 2 | 4 | 5 | 6 | 7 => cases here
  | n + 8 => cases here

variable {high high'}

theorem encodable_oneLong (room : 49 + 4 * (high + high') ≤ 65535) (near : 22 + 4 * high ≤ 32767) :
    Encodable (jumpsOverTables true false high high') := by
  obtain ⟨jump, target⟩ := places_oneLong high high'
  refine ⟨?_, (finish_oneLong high high').trans_le room, fun n op l m here _ marks => ?_⟩
  · simp only [jumpsOverTables, List.forall_mem_cons]
    have first : Grown ⟨.op ⟨Opcode.goto, .branch ⟨0⟩⟩, true⟩ :=
      fun _ => ⟨_, ⟨0⟩, Opcode.gotoW, rfl, rfl, rfl⟩
    simp only [grown_of_short, first, List.not_mem_nil, false_implies, implies_true, and_self]
  · obtain ⟨rfl, rfl⟩ := short_oneLong high high' here marks
    rw [jump, target]
    simp only [fitsShort, Bool.and_eq_true, decide_eq_true_eq]
    omega

theorem steady_oneLong (near : 22 + 4 * high ≤ 32765) :
    Steady (jumpsOverTables true false high high') := by
  obtain ⟨jump, target⟩ := places_oneLong high high'
  intro n op l m here _ marks _ _
  obtain ⟨rfl, rfl⟩ := short_oneLong high high' here marks
  rw [jump, target]
  omega

theorem placed_jumpsOverTables (first second : Bool) (small : high < 65536)
    (small' : high' < 65536) : Item.Placed (items (jumpsOverTables first second high high')) := by
  have once : (Item.labels (items (jumpsOverTables first second high high'))).Nodup := by
    change ([⟨1⟩, ⟨0⟩] : List Label).Nodup
    decide
  refine ⟨⟨once, ?_⟩, ?_⟩ <;>
    simp only [jumpsOverTables, items, List.map_cons, List.map_nil, Item.code_op, Item.code_mark,
      Item.code_nil, Item.labels_op, Item.labels_mark, Item.labels_nil, List.forall_mem_cons]
  · exact ⟨⟨.nothing, rfl, rfl⟩, ⟨.nothing, rfl, rfl⟩, ⟨.branch16, rfl, rfl⟩, ⟨.branch16, rfl, rfl⟩,
      Instruction.fits_table _ small, ⟨.nothing, rfl, rfl⟩, Instruction.fits_table _ small',
      ⟨.nothing, rfl, rfl⟩, List.forall_mem_nil _⟩
  · have table : ∀ high, ∀ l ∈ (Instruction.table ⟨0⟩ high).targets, l ∈ ([⟨1⟩, ⟨0⟩] : List Label) :=
      fun high l target => by simp [Instruction.targets_table target]
    have none : ∀ op : Opcode, ∀ l ∈ (⟨op, .nothing⟩ : Instruction Label).targets,
        l ∈ ([⟨1⟩, ⟨0⟩] : List Label) := fun _ => List.forall_mem_nil _
    exact ⟨none _, none _, by decide, by decide, table high, none _, table high', none _,
      List.forall_mem_nil _⟩

end Tables
end Slot

namespace Layout
open Slot

theorem starts_bothShort : starts 0 (jumpsOverTables false false 8186 8185) =
    [(0, ⟨.op ⟨0x00, .nothing⟩, false⟩), (1, ⟨.op ⟨0x00, .nothing⟩, false⟩),
      (2, ⟨.op ⟨Opcode.goto, .branch ⟨0⟩⟩, false⟩), (5, ⟨.op ⟨Opcode.goto, .branch ⟨1⟩⟩, false⟩),
      (8, ⟨.op (.table ⟨0⟩ 8186), false⟩), (32772, ⟨.op ⟨0x00, .nothing⟩, false⟩),
      (32773, ⟨.mark ⟨1⟩, false⟩), (32773, ⟨.op (.table ⟨0⟩ 8185), false⟩),
      (65532, ⟨.mark ⟨0⟩, false⟩), (65532, ⟨.op ⟨Opcode.vreturn, .nothing⟩, false⟩)] := by
  simp [jumpsOverTables, starts, Instruction.switchPadding]

/-- Both jumps are widened in the first round, and in the second the code is too long. -/
theorem rounds_jumpsOverTables : Rounds (jumpsOverTables false false 8186 8185)
    [jumpsOverTables false false 8186 8185, jumpsOverTables true true 8186 8185]
    (.error (.malformed (.methodTooLong 65537))) := by
  have room : finish 0 (jumpsOverTables false false 8186 8185) = 65533 := by
    simp [jumpsOverTables, finish, Instruction.switchPadding]
  have long : finish 0 (jumpsOverTables true true 8186 8185) = 65537 := by
    simp [jumpsOverTables, finish, Instruction.switchPadding]
  have near : placeAfter 0 (jumpsOverTables false false 8186 8185) 6 = 32773 := by
    simp [jumpsOverTables, placeAfter, Instruction.switchPadding]
  have last : placeAfter 0 (jumpsOverTables false false 8186 8185) 7 = 65532 := by
    simp [jumpsOverTables, placeAfter, Instruction.switchPadding]
  have made := ofSlots_ok_iff.mpr ⟨room.trans_le (by decide), rfl⟩
  have one := distance_of_marks made (l := ⟨0⟩) (n := 7)
    (.pastOp (.pastOp (.pastOp (.pastOp (.pastOp (.pastOp (.pastMark (.pastOp (.here
      (by decide)))))))))) 2
  have two := distance_of_marks made (l := ⟨1⟩) (n := 6)
    (.pastOp (.pastOp (.pastOp (.pastOp (.pastOp (.pastOp (.here (by decide)))))))) 5
  rw [last] at one
  rw [near] at two
  refine .again made (mapM_ok_iff.mpr ?_) ?_ (.tooLong (ofSlots_error long (by decide)))
  · rw [starts_bothShort] at one two ⊢
    exact .cons rfl (.cons rfl (.cons (widenSlot_far one rfl rfl rfl)
      (.cons (widenSlot_far two rfl rfl rfl) (.cons rfl (.cons rfl (.cons rfl (.cons rfl
        (.cons rfl (.cons rfl .nil)))))))))
  · simp [jumpsOverTables]

end Layout

namespace Assembly
open Slot Layout

theorem jumpsOverTables_complete : ∃ a, (Slot.items (jumpsOverTables true false 8000 8000)).foldlM
      add empty = .ok a ∧ Encodable (jumpsOverTables true false 8000 8000) ∧
    Steady (jumpsOverTables true false 8000 8000) ∧ ∃ e, a.finish = .ok e := by
  have placed : Item.Placed (Slot.items (jumpsOverTables true false 8000 8000)) :=
    placed_jumpsOverTables true false (by decide) (by decide)
  obtain ⟨a, accepted, _⟩ := takes_acceptable placed.acceptable empty (by simp [empty])
  have encodable : Encodable (jumpsOverTables true false 8000 8000) :=
    encodable_oneLong (by decide) (by decide)
  have steady : Steady (jumpsOverTables true false 8000 8000) := steady_oneLong (by decide)
  exact ⟨a, accepted, encodable, steady,
    finish_complete accepted placed.marked rfl encodable steady⟩

/-- Without them the items are refused, although they can be written with the first jump long: in
the layout that is tried first the second one does not reach either, and two long jumps are too
many. -/
theorem jumpsOverTables_refused : ∃ a, (Slot.items (jumpsOverTables true false 8186 8185)).foldlM
      add empty = .ok a ∧
    (∀ i ∈ Item.code (Slot.items (jumpsOverTables true false 8186 8185)), ∀ l ∈ i.targets,
      l ∈ Item.labels (Slot.items (jumpsOverTables true false 8186 8185))) ∧
    Encodable (jumpsOverTables true false 8186 8185) ∧
    a.finish = .error (.malformed (.methodTooLong 65537)) := by
  have placed : Item.Placed (Slot.items (jumpsOverTables true false 8186 8185)) :=
    placed_jumpsOverTables true false (by decide) (by decide)
  obtain ⟨a, accepted, listed⟩ := takes_acceptable placed.acceptable empty (by simp [empty])
  refine ⟨a, accepted, placed.marked, encodable_oneLong (by decide) (by decide), ?_⟩
  obtain ⟨rounds, history⟩ := rounds_settle (jumpsOverTables false false 8186 8185)
  have failed := (rounds_unique history rounds_jumpsOverTables).2
  have items : a.items.toList = Slot.items (jumpsOverTables true false 8186 8185) := by
    simpa [empty] using listed
  rw [finish, items]
  exact bind_error_iff.mpr (.inl failed.symm)

end Assembly
end ClassHooks
