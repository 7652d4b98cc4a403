import ClassHooks.Proofs.Success
import ClassHooks.Body.Exclusion

/-!
Where labels stand in a list of items: before which instruction, counted from zero. Offsets, ranks
and control flow are all told by this number.
-/
namespace ClassHooks
namespace Item

def code (items : List Item) : List (Instruction Label) := items.filterMap instruction?

def labels (items : List Item) : List Label := items.filterMap label?

/-- `l` stands before instruction number `n`, or at the end if there is no such instruction. -/
inductive Marks : List Item → Label → Nat → Prop where
  | here {l : Label} {rest : List Item} : Marks (.mark l :: rest) l 0
  | pastMark {l l' : Label} {n : Nat} {rest : List Item} (later : Marks rest l n) :
      Marks (.mark l' :: rest) l n
  | pastOp {l : Label} {n : Nat} {i : Instruction Label} {rest : List Item}
      (later : Marks rest l n) : Marks (.op i :: rest) l (n + 1)

inductive LastMarks : List Item → Label → Nat → Prop where
  | here {l : Label} {rest : List Item} (last : l ∉ labels rest) : LastMarks (.mark l :: rest) l 0
  | pastMark {l l' : Label} {n : Nat} {rest : List Item} (later : LastMarks rest l n) :
      LastMarks (.mark l' :: rest) l n
  | pastOp {l : Label} {n : Nat} {i : Instruction Label} {rest : List Item}
      (later : LastMarks rest l n) : LastMarks (.op i :: rest) l (n + 1)

@[simp] theorem code_nil : code [] = [] := rfl

@[simp] theorem code_mark (l : Label) (rest : List Item) : code (.mark l :: rest) = code rest := rfl

@[simp] theorem code_op (i : Instruction Label) (rest : List Item) :
    code (.op i :: rest) = i :: code rest := rfl

@[simp] theorem code_append (a b : List Item) : code (a ++ b) = code a ++ code b :=
  List.filterMap_append ..

@[simp] theorem code_ops (is : List (Instruction Label)) : code (is.map .op) = is := by
  induction is with
  | nil => rfl
  | cons i is ih => simp [ih]

@[simp] theorem labels_nil : labels [] = [] := rfl

@[simp] theorem labels_mark (l : Label) (rest : List Item) :
    labels (.mark l :: rest) = l :: labels rest := rfl

@[simp] theorem labels_op (i : Instruction Label) (rest : List Item) :
    labels (.op i :: rest) = labels rest := rfl

@[simp] theorem labels_append (a b : List Item) : labels (a ++ b) = labels a ++ labels b :=
  List.filterMap_append ..

@[simp] theorem labels_ops (is : List (Instruction Label)) : labels (is.map .op) = [] := by
  induction is with
  | nil => rfl
  | cons i is ih => simp [ih]

theorem mem_code_iff {items : List Item} {i : Instruction Label} :
    i ∈ code items ↔ .op i ∈ items := by
  induction items with
  | nil => simp
  | cons item items ih => cases item <;> simp [ih]

@[simp] theorem marks_nil_iff {l : Label} {n : Nat} : Marks [] l n ↔ False :=
  ⟨(fun m => nomatch m), False.elim⟩

@[simp] theorem marks_mark_iff {l l' : Label} {n : Nat} {rest : List Item} :
    Marks (.mark l' :: rest) l n ↔ (l' = l ∧ n = 0) ∨ Marks rest l n := by
  constructor
  · intro m
    cases m with
    | here => exact .inl ⟨rfl, rfl⟩
    | pastMark later => exact .inr later
  · rintro (⟨rfl, rfl⟩ | later)
    · exact .here
    · exact .pastMark later

@[simp] theorem marks_op_iff {l : Label} {n : Nat} {i : Instruction Label} {rest : List Item} :
    Marks (.op i :: rest) l n ↔ ∃ m, Marks rest l m ∧ n = m + 1 := by
  constructor
  · intro m
    cases m with
    | pastOp later => exact ⟨_, later, rfl⟩
  · rintro ⟨m, later, rfl⟩
    exact .pastOp later

theorem marks_append_iff {a b : List Item} {l : Label} {n : Nat} :
    Marks (a ++ b) l n ↔ Marks a l n ∨ ∃ m, Marks b l m ∧ n = (code a).length + m := by
  induction a generalizing n with
  | nil => simp
  | cons item a ih =>
    cases item with
    | mark l' => simp [ih, or_assoc]
    | op i =>
      simp only [List.cons_append, marks_op_iff, ih, code_op, List.length_cons]
      constructor
      · rintro ⟨m, early | ⟨k, late, rfl⟩, rfl⟩
        · exact .inl ⟨m, early, rfl⟩
        · exact .inr ⟨k, late, by omega⟩
      · rintro (⟨m, early, rfl⟩ | ⟨k, late, rfl⟩)
        · exact ⟨m, .inl early, rfl⟩
        · exact ⟨_, .inr ⟨k, late, rfl⟩, by omega⟩

theorem marks_le {items : List Item} {l : Label} {n : Nat} (m : Marks items l n) :
    n ≤ (code items).length := by
  induction m with
  | here => exact Nat.zero_le _
  | pastMark later ih => exact ih
  | pastOp later ih => exact Nat.succ_le_succ ih

theorem marked_iff_mem {items : List Item} {l : Label} :
    (∃ n, Marks items l n) ↔ l ∈ labels items := by
  induction items with
  | nil => simp
  | cons item items ih =>
    cases item with
    | mark l' => simp [exists_or, ih, eq_comm]
    | op i =>
      rw [labels_op, ← ih]
      simp

theorem mem_labels_of_marks {items : List Item} {l : Label} {n : Nat} (m : Marks items l n) :
    l ∈ labels items := marked_iff_mem.mp ⟨n, m⟩

theorem marks_unique {items : List Item} (once : (labels items).Nodup) {l : Label} {n n' : Nat}
    (one : Marks items l n) (two : Marks items l n') : n = n' := by
  induction one generalizing n' with
  | here =>
    rcases marks_mark_iff.mp two with ⟨_, rfl⟩ | later
    · rfl
    · exact absurd (mem_labels_of_marks later) (List.nodup_cons.mp once).1
  | pastMark later ih =>
    rcases marks_mark_iff.mp two with ⟨rfl, rfl⟩ | other
    · exact absurd (mem_labels_of_marks later) (List.nodup_cons.mp once).1
    · exact ih (List.nodup_cons.mp once).2 other
  | pastOp later ih =>
    obtain ⟨m, other, rfl⟩ := marks_op_iff.mp two
    rw [ih once other]

@[simp] theorem lastMarks_nil_iff {l : Label} {n : Nat} : LastMarks [] l n ↔ False :=
  ⟨(fun m => nomatch m), False.elim⟩

@[simp] theorem lastMarks_mark_iff {l l' : Label} {n : Nat} {rest : List Item} :
    LastMarks (.mark l' :: rest) l n ↔
      (l' = l ∧ l ∉ labels rest ∧ n = 0) ∨ LastMarks rest l n := by
  constructor
  · intro m
    cases m with
    | here last => exact .inl ⟨rfl, last, rfl⟩
    | pastMark later => exact .inr later
  · rintro (⟨rfl, last, rfl⟩ | later)
    · exact .here last
    · exact .pastMark later

@[simp] theorem lastMarks_op_iff {l : Label} {n : Nat} {i : Instruction Label}
    {rest : List Item} : LastMarks (.op i :: rest) l n ↔ ∃ m, LastMarks rest l m ∧ n = m + 1 := by
  constructor
  · intro m
    cases m with
    | pastOp later => exact ⟨_, later, rfl⟩
  · rintro ⟨m, later, rfl⟩
    exact .pastOp later

theorem marks_of_lastMarks {items : List Item} {l : Label} {n : Nat} (m : LastMarks items l n) :
    Marks items l n := by
  induction m with
  | here last => exact .here
  | pastMark later ih => exact .pastMark ih
  | pastOp later ih => exact .pastOp ih

theorem lastMarks_iff_marks {items : List Item} (once : (labels items).Nodup) {l : Label}
    {n : Nat} : LastMarks items l n ↔ Marks items l n := by
  refine ⟨marks_of_lastMarks, fun m => ?_⟩
  induction m with
  | here => exact .here (List.nodup_cons.mp once).1
  | pastMark later ih => exact .pastMark (ih (List.nodup_cons.mp once).2)
  | pastOp later ih => exact .pastOp (ih once)

end Item

section Ranks
open Item

def rankStep (state : Std.TreeMap Label Nat × Nat) : Item → Std.TreeMap Label Nat × Nat
  | .mark l => (state.1.insert l state.2, state.2)
  | .op _ => (state.1, state.2 + 1)

theorem labelRanks_eq (items : List Item) :
    labelRanks items = (items.foldl rankStep (∅, 0)).1 := by
  have same : (fun (state : Std.TreeMap Label Nat × Nat) (item : Item) =>
      match item with
      | .mark l => (state.1.insert l state.2, state.2)
      | .op _ => (state.1, state.2 + 1)) = rankStep := by
    funext state item
    cases item <;> rfl
  exact congrArg (fun step => (items.foldl step (∅, 0)).1) same

theorem foldl_rankStep_iff (items : List Item) (found : Std.TreeMap Label Nat) (count : Nat)
    (l : Label) (n : Nat) :
    (items.foldl rankStep (found, count)).1[l]? = some n ↔
      (∃ k, LastMarks items l k ∧ n = count + k) ∨ (l ∉ labels items ∧ found[l]? = some n) := by
  induction items generalizing found count with
  | nil => simp
  | cons item items ih =>
    cases item with
    | mark l' =>
      rw [List.foldl_cons, rankStep, ih, Std.TreeMap.getElem?_insert]
      -- A label that stands behind wins over this one.
      by_cases same : l' = l
      · subst same
        simp only [Std.compare_self, if_true, lastMarks_mark_iff, true_and, labels_mark,
          List.mem_cons, true_or, not_true_eq_false, false_and, or_false, Option.some.injEq]
        constructor
        · rintro (⟨k, later, rfl⟩ | ⟨last, rfl⟩)
          · exact ⟨k, .inr later, rfl⟩
          · exact ⟨0, .inl ⟨last, rfl⟩, rfl⟩
        · rintro ⟨k, ⟨last, rfl⟩ | later, rfl⟩
          · exact .inr ⟨last, rfl⟩
          · exact .inl ⟨k, later, rfl⟩
      · simp [same, Ne.symm same]
    | op i =>
      rw [List.foldl_cons, rankStep, ih, labels_op]
      simp only [lastMarks_op_iff]
      constructor
      · rintro (⟨k, m, rfl⟩ | old)
        · exact .inl ⟨k + 1, ⟨k, m, rfl⟩, by omega⟩
        · exact .inr old
      · rintro (⟨_, ⟨k, m, rfl⟩, rfl⟩ | old)
        · exact .inl ⟨k, m, by omega⟩
        · exact .inr old

theorem labelRanks_last_iff {items : List Item} {l : Label} {n : Nat} :
    (labelRanks items)[l]? = some n ↔ LastMarks items l n := by
  rw [labelRanks_eq, foldl_rankStep_iff]
  simp

theorem labelRanks_iff {items : List Item} (once : (labels items).Nodup) {l : Label} {n : Nat} :
    (labelRanks items)[l]? = some n ↔ Marks items l n :=
  labelRanks_last_iff.trans (lastMarks_iff_marks once)

theorem rank_last_iff {items : List Item} {l : Label} {n : Nat} :
    Region.rank (labelRanks items) l = .ok n ↔ LastMarks items l n := by
  rw [← labelRanks_last_iff, Region.rank]
  split <;> simp_all

theorem rank_ok_iff {items : List Item} (once : (labels items).Nodup) {l : Label} {n : Nat} :
    Region.rank (labelRanks items) l = .ok n ↔ Marks items l n :=
  rank_last_iff.trans (lastMarks_iff_marks once)

end Ranks
end ClassHooks
