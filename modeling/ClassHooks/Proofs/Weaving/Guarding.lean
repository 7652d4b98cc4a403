import ClassHooks.Proofs.Weaving.Interleaving
import ClassHooks.Proofs.Instruction.Marks
import ClassHooks.Weaving.Method

/-!
The items with the return hook before every return: their instructions, and where the old labels
and the new ones stand.
-/
namespace ClassHooks.Weaving
open Item Instruction

def guarded (hook : List (Instruction Label)) (next : UInt32) : List Item → List Item
  | [] => []
  | .mark l :: rest => .mark l :: guarded hook next rest
  | .op i :: rest =>
    if i.isReturn then
      .mark ⟨next⟩ :: (hook.map .op ++ (.mark ⟨next + 1⟩ :: .op i :: guarded hook (next + 2) rest))
    else .op i :: guarded hook next rest

def spansFrom (next : UInt32) : List Item → List CodeSpan
  | [] => []
  | .mark _ :: rest => spansFrom next rest
  | .op i :: rest =>
    if i.isReturn then ⟨⟨next⟩, ⟨next + 1⟩⟩ :: spansFrom (next + 2) rest else spansFrom next rest

def labelsAround (items : List Item) : Nat := 2 * (code items).countP isReturn

variable {hook : List (Instruction Label)} {items : List Item}

theorem guardReturns_eq (hook : List (Instruction Label)) (next : UInt32) (done : List Item)
    (spans : List CodeSpan) (items : List Item) :
    guardReturns (hook.map .op) next done spans items =
      (done.reverse ++ guarded hook next items, spans.reverse ++ spansFrom next items) := by
  induction items generalizing next done spans with
  | nil => simp [guardReturns, guarded, spansFrom]
  | cons item rest ih =>
    cases item with
    | mark l => simp [guardReturns, guarded, spansFrom, ih]
    | op i =>
      by_cases ends : i.isReturn = true
      · simp [guardReturns, guarded, spansFrom, ih, ends]
      · simp [guardReturns, guarded, spansFrom, ih, ends]

theorem code_guarded (next : UInt32) :
    code (guarded hook next items) = (code items).flatMap (withHook hook) := by
  induction items generalizing next with
  | nil => rfl
  | cons item rest ih =>
    cases item with
    | mark l => exact ih next
    | op i =>
      by_cases ends : i.isReturn = true
      · simp [guarded, withHook, ends, ih]
      · simp [guarded, withHook, ends, ih]

theorem marks_behind {next : UInt32} {i : Instruction Label} {l : Label} {n : Nat}
    (later : Marks (guarded hook (next + 2) items) l n) :
    Marks (.mark ⟨next⟩ :: (hook.map .op ++
      (.mark ⟨next + 1⟩ :: .op i :: guarded hook (next + 2) items))) l (hook.length + 1 + n) := by
  refine .pastMark (marks_append_iff.mpr (.inr ⟨n + 1, .pastMark (.pastOp later), ?_⟩))
  rw [code_ops]
  omega

theorem marks_guarded {next : UInt32} {l : Label} {k : Nat} (marks : Marks items l k) :
    Marks (guarded hook next items) l (shift hook (code items) k) := by
  induction marks generalizing next with
  | here =>
    rw [shift_zero]
    exact .here
  | pastMark later ih => exact .pastMark ih
  | @pastOp l n i rest later ih =>
    rw [code_op, shift_cons, withHook_length]
    by_cases ends : i.isReturn = true
    · simp only [guarded, ends, if_true]
      exact marks_behind ih
    · simp only [guarded, ends, Bool.false_eq_true, if_false, Nat.zero_add]
      rw [Nat.add_comm]
      exact .pastOp ih

theorem spans_related (hook : List (Instruction Label)) (items : List Item) (next : UInt32) :
    List.Forall₂ (fun k (s : CodeSpan) =>
        Marks (guarded hook next items) s.begin (shift hook (code items) k) ∧
        Marks (guarded hook next items) s.resume (shift hook (code items) k + hook.length))
      (returnPlaces (code items)) (spansFrom next items) := by
  induction items generalizing next with
  | nil => exact .nil
  | cons item rest ih =>
    cases item with
    | mark l => exact (ih next).imp fun _ _ ⟨begin, resume⟩ => ⟨.pastMark begin, .pastMark resume⟩
    | op i =>
      rw [code_op, returnPlaces_cons]
      by_cases ends : i.isReturn = true
      · simp only [guarded, spansFrom, ends, if_true, List.singleton_append]
        refine .cons ⟨?_, ?_⟩ ?_
        · rw [shift_zero]
          exact .here
        · rw [shift_zero]
          exact .pastMark (marks_append_iff.mpr (.inr ⟨0, .here, by simp⟩))
        · rw [List.forall₂_map_left_iff]
          -- All that follows is pushed back by the hook and the return.
          refine (ih (next + 2)).imp fun k s ⟨begin, resume⟩ => ?_
          rw [shift_cons, withHook_length, if_pos ends, Nat.add_assoc _ _ hook.length]
          exact ⟨marks_behind begin, marks_behind resume⟩
      · simp only [guarded, spansFrom, ends, Bool.false_eq_true, if_false, List.nil_append]
        rw [List.forall₂_map_left_iff]
        refine (ih next).imp fun k s ⟨begin, resume⟩ => ?_
        rw [shift_cons, withHook_length, if_neg ends, Nat.zero_add, Nat.add_comm 1,
          Nat.add_right_comm]
        exact ⟨.pastOp begin, .pastOp resume⟩

theorem number_later {next : UInt32} (step : UInt32) {n : Nat} (room : next.toNat + n < UInt32.size)
    (among : step.toNat ≤ n) : (next + step).toNat = next.toNat + step.toNat := by
  rw [UInt32.toNat_add]
  exact Nat.mod_eq_of_lt (Nat.lt_of_le_of_lt (Nat.add_le_add_left among _) room)

theorem labelsAround_mark (l : Label) (items : List Item) :
    labelsAround (.mark l :: items) = labelsAround items := rfl

theorem labelsAround_return {i : Instruction Label} (ends : i.isReturn = true)
    (items : List Item) : labelsAround (.op i :: items) = labelsAround items + 2 := by
  rw [labelsAround, code_op, List.countP_cons_of_pos ends]
  exact Nat.mul_succ 2 _

theorem labelsAround_plain {i : Instruction Label} (ends : ¬ i.isReturn = true)
    (items : List Item) : labelsAround (.op i :: items) = labelsAround items := by
  rw [labelsAround, code_op, List.countP_cons_of_neg ends]
  rfl

theorem label_guarded {next : UInt32} (room : next.toNat + labelsAround items < UInt32.size)
    {l : Label} (member : l ∈ labels (guarded hook next items)) :
    l ∈ labels items ∨ (next.toNat ≤ l.number.toNat ∧
      l.number.toNat < next.toNat + labelsAround items) := by
  induction items generalizing next with
  | nil => exact .inl member
  | cons item rest ih =>
    cases item with
    | mark l' =>
      rw [labelsAround_mark] at room ⊢
      simp only [guarded, labels_mark, List.mem_cons] at member ⊢
      rcases member with rfl | member
      · exact .inl (.inl rfl)
      · exact (ih room member).imp_left .inr
    | op i =>
      by_cases ends : i.isReturn = true
      · rw [labelsAround_return ends] at room ⊢
        have one : (next + 1).toNat = next.toNat + 1 := number_later 1 room (Nat.le_add_left 1 _)
        have two : (next + 2).toNat = next.toNat + 2 := number_later 2 room (Nat.le_add_left 2 _)
        simp only [guarded, ends, if_true, labels_mark, labels_append, labels_ops, labels_op,
          List.nil_append, List.mem_cons] at member ⊢
        rcases member with rfl | rfl | member
        · exact .inr ⟨Nat.le_refl _, Nat.lt_add_of_pos_right (Nat.succ_pos _)⟩
        · refine .inr ⟨?_, ?_⟩
          · change next.toNat ≤ (next + 1).toNat
            omega
          · change (next + 1).toNat < _
            omega
        · exact (ih (by omega) member).imp_right fun ⟨low, high⟩ => ⟨by omega, by omega⟩
      · rw [labelsAround_plain ends] at room ⊢
        simp only [guarded, ends, Bool.false_eq_true, if_false, labels_op] at member ⊢
        exact ih room member

theorem labels_guarded_once {next : UInt32} (once : (labels items).Nodup)
    (room : next.toNat + labelsAround items < UInt32.size)
    (old : ∀ l ∈ labels items, l.number.toNat < next.toNat) :
    (labels (guarded hook next items)).Nodup := by
  induction items generalizing next with
  | nil => exact once
  | cons item rest ih =>
    cases item with
    | mark l =>
      rw [labelsAround_mark] at room
      simp only [guarded, labels_mark, List.nodup_cons, List.forall_mem_cons] at once old ⊢
      refine ⟨fun again => ?_, ih once.2 room old.2⟩
      rcases label_guarded room again with early | new
      · exact once.1 early
      · have := old.1
        omega
    | op i =>
      rw [labels_op] at once old
      by_cases ends : i.isReturn = true
      · rw [labelsAround_return ends] at room
        have one : (next + 1).toNat = next.toNat + 1 := number_later 1 room (Nat.le_add_left 1 _)
        have two : (next + 2).toNat = next.toNat + 2 := number_later 2 room (Nat.le_add_left 2 _)
        simp only [guarded, ends, if_true, labels_mark, labels_append, labels_ops, labels_op,
          List.nil_append, List.nodup_cons, List.mem_cons, not_or]
        have above : ∀ l ∈ labels (guarded hook (next + 2) rest),
            l.number.toNat < next.toNat ∨ next.toNat + 2 ≤ l.number.toNat := by
          intro l member
          rw [← two]
          exact (label_guarded (by omega) member).imp (old l) And.left
        refine ⟨⟨fun same => ?_, fun again => ?_⟩, fun again => ?_,
          ih once (by omega) fun l member => ?_⟩
        · have number : next.toNat = (next + 1).toNat := congrArg (·.number.toNat) same
          omega
        · have bounds := above _ again
          dsimp only at bounds
          omega
        · have bounds := above _ again
          dsimp only at bounds
          omega
        · have := old l member
          omega
      · rw [labelsAround_plain ends] at room
        simp only [guarded, ends, Bool.false_eq_true, if_false, labels_op]
        exact ih once room old

end ClassHooks.Weaving
