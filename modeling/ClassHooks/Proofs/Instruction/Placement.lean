import ClassHooks.Proofs.Instruction.Marks
import ClassHooks.Proofs.Instruction.RoundTrip
import ClassHooks.Instruction.Layout

/-!
Where the layout puts instructions and labels. `placeAfter` tells the position of each instruction
by its number; a label lies where the instruction behind it begins.
-/
namespace ClassHooks
namespace Slot

@[simp] theorem size_mark (l : Label) (long : Bool) (p : Nat) :
    (Slot.mk (.mark l) long).size p = 0 := rfl

@[simp] theorem size_op (i : Instruction Label) (long : Bool) (p : Nat) :
    (Slot.mk (.op i) long).size p = i.encodedSize p long := rfl

def items (slots : List Slot) : List Item := slots.map Slot.item

def starts (p : Nat) : List Slot → List (Nat × Slot)
  | [] => []
  | s :: rest => (p, s) :: starts (p + s.size p) rest

def finish (p : Nat) : List Slot → Nat
  | [] => p
  | s :: rest => finish (p + s.size p) rest

def placeAfter (p : Nat) : List Slot → Nat → Nat
  | [], _ => p
  | ⟨.mark _, _⟩ :: rest, n => placeAfter p rest n
  | ⟨.op _, _⟩ :: _, 0 => p
  | ⟨.op i, long⟩ :: rest, n + 1 => placeAfter (p + i.encodedSize p long) rest n

def ops (slots : List Slot) : List (Instruction Label × Bool) :=
  slots.filterMap fun s =>
    match s.item with
    | .mark _ => none
    | .op i => some (i, s.long)

@[simp] theorem ops_nil : ops [] = [] := rfl

@[simp] theorem ops_mark (l : Label) (long : Bool) (rest : List Slot) :
    ops (⟨.mark l, long⟩ :: rest) = ops rest := rfl

@[simp] theorem ops_op (i : Instruction Label) (long : Bool) (rest : List Slot) :
    ops (⟨.op i, long⟩ :: rest) = (i, long) :: ops rest := rfl

theorem ops_code (slots : List Slot) : (ops slots).map Prod.fst = Item.code (items slots) := by
  induction slots with
  | nil => rfl
  | cons s rest ih =>
    obtain ⟨item, long⟩ := s
    cases item with
    | mark l => exact ih
    | op i => exact congrArg (i :: ·) ih

theorem starts_slots (p : Nat) (slots : List Slot) : (starts p slots).map Prod.snd = slots := by
  induction slots generalizing p with
  | nil => rfl
  | cons s rest ih => simp [starts, ih]

theorem place_eq (placed : List (Nat × Slot)) (p : Nat) (slots : List Slot) :
    Layout.place placed p slots = (placed.reverse ++ starts p slots, finish p slots) := by
  induction slots generalizing placed p with
  | nil => simp [Layout.place, starts, finish]
  | cons s rest ih => simp [Layout.place, starts, finish, ih]

theorem le_finish (p : Nat) (slots : List Slot) : p ≤ finish p slots := by
  induction slots generalizing p with
  | nil => exact Nat.le_refl _
  | cons s rest ih => exact Nat.le_trans (Nat.le_add_right _ _) (ih _)

theorem start_le_placeAfter (p : Nat) (slots : List Slot) (n : Nat) :
    p ≤ placeAfter p slots n := by
  induction slots generalizing p n with
  | nil => exact Nat.le_refl _
  | cons s rest ih =>
    obtain ⟨item, long⟩ := s
    cases item with
    | mark l => exact ih p n
    | op i =>
      cases n with
      | zero => exact Nat.le_refl _
      | succ n => exact Nat.le_trans (Nat.le_add_right _ _) (ih _ n)

theorem placeAfter_zero (p : Nat) (slots : List Slot) : placeAfter p slots 0 = p := by
  induction slots generalizing p with
  | nil => rfl
  | cons s rest ih =>
    obtain ⟨item, long⟩ := s
    cases item with
    | mark l => exact ih p
    | op i => rfl

theorem placeAfter_succ (p : Nat) {slots : List Slot} {n : Nat} {i : Instruction Label}
    {long : Bool} (here : (ops slots)[n]? = some (i, long)) : placeAfter p slots (n + 1) =
      placeAfter p slots n + i.encodedSize (placeAfter p slots n) long := by
  induction slots generalizing p n with
  | nil => cases here
  | cons s rest ih =>
    obtain ⟨item, form⟩ := s
    cases item with
    | mark l => exact ih p here
    | op j =>
      cases n with
      | zero =>
        cases here
        exact placeAfter_zero _ rest
      | succ n => exact ih _ here

theorem start_op_iff {p q : Nat} {slots : List Slot} {i : Instruction Label} {long : Bool} :
    (q, ⟨.op i, long⟩) ∈ starts p slots ↔
      ∃ n, (ops slots)[n]? = some (i, long) ∧ q = placeAfter p slots n := by
  induction slots generalizing p with
  | nil => simp [starts]
  | cons s rest ih =>
    obtain ⟨item, form⟩ := s
    cases item with
    | mark l =>
      rw [starts, List.mem_cons]
      exact Iff.trans ⟨fun there => there.resolve_left (by simp), .inr⟩ ih
    | op j =>
      rw [starts, List.mem_cons, ih]
      constructor
      · rintro (same | ⟨n, here, place⟩)
        · cases same
          exact ⟨0, rfl, rfl⟩
        · exact ⟨n + 1, here, place⟩
      · rintro ⟨n, here, place⟩
        cases n with
        | zero =>
          cases here
          exact .inl (by rw [place]; rfl)
        | succ n => exact .inr ⟨n, here, place⟩

theorem placeAfter_of_le (p : Nat) (slots : List Slot) {n : Nat}
    (past : (Item.code (items slots)).length ≤ n) : placeAfter p slots n = finish p slots := by
  induction slots generalizing p n with
  | nil => rfl
  | cons s rest ih =>
    obtain ⟨item, long⟩ := s
    cases item with
    | mark l => exact ih p past
    | op i =>
      cases n with
      | zero => simp [items] at past
      | succ n => exact ih _ (Nat.le_of_succ_le_succ past)

theorem placeAfter_lt (p : Nat) (slots : List Slot) {n m : Nat} (before : n < m)
    (inside : n < (Item.code (items slots)).length) :
    placeAfter p slots n < placeAfter p slots m := by
  induction slots generalizing p n m with
  | nil => simp [items] at inside
  | cons s rest ih =>
    obtain ⟨item, long⟩ := s
    cases item with
    | mark l => exact ih p before inside
    | op i =>
      cases m with
      | zero => omega
      | succ m =>
        cases n with
        | zero =>
          have grows := i.encodedSize_pos p long
          have later := start_le_placeAfter (p + i.encodedSize p long) rest m
          simp only [placeAfter]
          omega
        | succ n => exact ih _ (Nat.lt_of_succ_lt_succ before) (Nat.lt_of_succ_lt_succ inside)

theorem placeAfter_add_le (p : Nat) (slots : List Slot) {n k : Nat}
    (inside : n + k ≤ (Item.code (items slots)).length) :
    placeAfter p slots n + k ≤ placeAfter p slots (n + k) := by
  induction k with
  | zero => exact Nat.le_refl _
  | succ k ih =>
    have before := ih (Nat.le_of_succ_le inside)
    have next := placeAfter_lt p slots (Nat.lt_add_one (n + k)) inside
    change placeAfter p slots n + (k + 1) ≤ placeAfter p slots (n + k + 1)
    omega

theorem placeAfter_lt_finish (p : Nat) (slots : List Slot) {n : Nat}
    (inside : n < (Item.code (items slots)).length) : placeAfter p slots n < finish p slots := by
  rw [← placeAfter_of_le p slots (Nat.le_refl _)]
  exact placeAfter_lt p slots inside inside

theorem start_of_op {p q : Nat} {slots : List Slot} {i : Instruction Label} {long : Bool}
    (member : (q, ⟨.op i, long⟩) ∈ starts p slots) :
    ⟨.op i, long⟩ ∈ slots ∧ q + i.encodedSize q long ≤ finish p slots := by
  induction slots generalizing p with
  | nil => simp [starts] at member
  | cons s rest ih =>
    simp only [starts, List.mem_cons, Prod.mk.injEq] at member
    rcases member with ⟨rfl, rfl⟩ | later
    · exact ⟨by simp, le_finish _ rest⟩
    · exact ⟨by simp [(ih later).1], (ih later).2⟩

theorem start_le_finish {p q : Nat} {slots : List Slot} {s : Slot}
    (member : (q, s) ∈ starts p slots) : q ≤ finish p slots := by
  induction slots generalizing p with
  | nil => cases member
  | cons s' rest ih =>
    rcases List.mem_cons.mp member with same | later
    · cases same
      exact le_finish q (s :: rest)
    · exact ih later

theorem placeAfter_le_finish (p : Nat) (slots : List Slot) (n : Nat) :
    placeAfter p slots n ≤ finish p slots := by
  induction slots generalizing p n with
  | nil => exact Nat.le_refl _
  | cons s rest ih =>
    obtain ⟨item, long⟩ := s
    cases item with
    | mark l => exact ih p n
    | op i =>
      cases n with
      | zero => exact le_finish p (⟨.op i, long⟩ :: rest)
      | succ n => exact ih _ n

def labelStep (labels : Std.TreeMap Label Nat) (p : Nat × Slot) : Std.TreeMap Label Nat :=
  match p.2.item with
  | .mark l => labels.insert l p.1
  | .op _ => labels

theorem foldl_labelStep_iff (slots : List Slot) (p : Nat) (found : Std.TreeMap Label Nat)
    (l : Label) (q : Nat) :
    ((starts p slots).foldl labelStep found)[l]? = some q ↔
      (∃ n, Item.LastMarks (items slots) l n ∧ q = placeAfter p slots n) ∨
        (l ∉ Item.labels (items slots) ∧ found[l]? = some q) := by
  induction slots generalizing p found with
  | nil => simp [starts, items]
  | cons s rest ih =>
    obtain ⟨item, long⟩ := s
    cases item with
    | mark l' =>
      change ((starts p rest).foldl labelStep (found.insert l' p))[l]? = some q ↔
        (∃ n, Item.LastMarks (.mark l' :: items rest) l n ∧ q = placeAfter p rest n) ∨
          (l ∉ Item.labels (.mark l' :: items rest) ∧ found[l]? = some q)
      rw [ih p, Std.TreeMap.getElem?_insert]
      -- A label that stands behind wins over this one.
      by_cases same : l' = l
      · subst same
        simp only [Std.compare_self, if_true, Item.lastMarks_mark_iff, true_and, Item.labels_mark,
          List.mem_cons, true_or, not_true_eq_false, false_and, or_false, Option.some.injEq]
        constructor
        · rintro (⟨n, later, rfl⟩ | ⟨last, rfl⟩)
          · exact ⟨n, .inr later, rfl⟩
          · exact ⟨0, .inl ⟨last, rfl⟩, (placeAfter_zero p rest).symm⟩
        · rintro ⟨n, ⟨last, rfl⟩ | later, rfl⟩
          · exact .inr ⟨last, (placeAfter_zero p rest).symm⟩
          · exact .inl ⟨n, later, rfl⟩
      · simp [same, Ne.symm same]
    | op i =>
      change ((starts (p + i.encodedSize p long) rest).foldl labelStep found)[l]? = some q ↔
        (∃ n, Item.LastMarks (.op i :: items rest) l n ∧
            q = placeAfter p (⟨.op i, long⟩ :: rest) n) ∨
          (l ∉ Item.labels (items rest) ∧ found[l]? = some q)
      rw [ih]
      simp only [Item.lastMarks_op_iff]
      constructor
      · rintro (⟨n, m, rfl⟩ | old)
        · exact .inl ⟨n + 1, ⟨n, m, rfl⟩, rfl⟩
        · exact .inr old
      · rintro (⟨_, ⟨n, m, rfl⟩, rfl⟩ | old)
        · exact .inl ⟨n, m, rfl⟩
        · exact .inr old

end Slot

namespace Layout

theorem labelPositions_eq (placed : List (Nat × Slot)) :
    labelPositions placed = placed.foldl Slot.labelStep ∅ := by
  have same : (fun (labels : Std.TreeMap Label Nat) (p : Nat × Slot) =>
      match p.2.item with
      | .mark l => labels.insert l p.1
      | .op _ => labels) = Slot.labelStep := rfl
  exact congrArg (fun step => placed.foldl step ∅) same

theorem ofSlots_ok_iff {slots : List Slot} {layout : Layout} :
    ofSlots slots = .ok layout ↔ Slot.finish 0 slots ≤ 65535 ∧
      layout = ⟨Slot.starts 0 slots, Slot.finish 0 slots,
        labelPositions (Slot.starts 0 slots)⟩ := by
  simp only [ofSlots, Slot.place_eq, List.reverse_nil, List.nil_append]
  split
  · rename_i long
    simp only [reduceCtorEq, false_iff]
    omega
  · rename_i short
    constructor
    · intro made
      cases made
      exact ⟨by omega, rfl⟩
    · rintro ⟨_, rfl⟩
      rfl

theorem placed_of_made {slots : List Slot} {layout : Layout} (made : ofSlots slots = .ok layout) :
    layout.placed = Slot.starts 0 slots := by
  obtain ⟨_, rfl⟩ := ofSlots_ok_iff.mp made
  rfl

theorem ofSlots_error {slots : List Slot} {n : Nat} (length : Slot.finish 0 slots = n)
    (long : 65535 < n) : ofSlots slots = .error (.malformed (.methodTooLong n)) := by
  simp only [ofSlots, Slot.place_eq, length]
  exact if_pos long

theorem labelPositions_last_iff {slots : List Slot} {l : Label} {q : Nat} :
    (labelPositions (Slot.starts 0 slots))[l]? = some q ↔
      ∃ n, Item.LastMarks (Slot.items slots) l n ∧ q = Slot.placeAfter 0 slots n := by
  simp [labelPositions_eq, Slot.foldl_labelStep_iff slots 0]

theorem labels_iff {slots : List Slot} {layout : Layout} (made : ofSlots slots = .ok layout)
    (once : (Item.labels (Slot.items slots)).Nodup) {l : Label} {q : Nat} :
    layout.labels[l]? = some q ↔
      ∃ n, Item.Marks (Slot.items slots) l n ∧ q = Slot.placeAfter 0 slots n := by
  obtain ⟨_, rfl⟩ := ofSlots_ok_iff.mp made
  simp only [labelPositions_last_iff, Item.lastMarks_iff_marks once]

end Layout

namespace Slot

def Grown (s : Slot) : Prop :=
  s.long = true → ∃ i l op, s.item = .op i ∧ i.operand = .branch l ∧ i.opcode.longForm? = some op

/-- A slot after a round of widening: as it was, or a narrow jump made long. -/
structure Widens (s s' : Slot) : Prop where
  item : s'.item = s.item
  grown : s.Grown → s'.Grown
  change : s' = s ∨ (s.isNarrow = true ∧ s'.isNarrow = false)

theorem widens_refl (s : Slot) : Widens s s := ⟨rfl, id, .inl rfl⟩

theorem widens_of_widenSlot {layout : Layout} {p : Nat} {s s' : Slot}
    (run : layout.widenSlot p s = .ok s') : Widens s s' := by
  unfold Layout.widenSlot at run
  split at run
  · rename_i op target item
    split at run
    · cases run
      exact widens_refl s
    · rename_i narrow
      obtain ⟨d, _, run⟩ := bind_ok_iff.mp run
      split at run
      · cases run
        exact widens_refl s
      · split at run
        · rename_i form
          cases run
          obtain ⟨other, form'⟩ := Option.isSome_iff_exists.mp form
          refine ⟨rfl, fun _ _ => ⟨_, target, other, item, rfl, form'⟩, .inr ⟨?_, ?_⟩⟩
          · simp only [Bool.or_eq_true, not_or, Bool.not_eq_true] at narrow
            simp [isNarrow, item, form, narrow.2]
          · simp [isNarrow, item]
        · cases run
  · cases run
    exact widens_refl s

theorem widens_count {slots slots' : List Slot} (related : List.Forall₂ Widens slots slots') :
    Layout.narrowCount slots' ≤ Layout.narrowCount slots ∧
      (Layout.narrowCount slots ≤ Layout.narrowCount slots' → slots' = slots) := by
  induction related with
  | nil => exact ⟨Nat.le_refl _, fun _ => rfl⟩
  | @cons s s' rest rest' first others ih =>
    simp only [Layout.narrowCount, List.countP_cons] at ih ⊢
    rcases first.change with rfl | ⟨before, after⟩
    · refine ⟨by omega, fun enough => ?_⟩
      rw [ih.2 (by omega)]
    · simp only [before, after, if_true, Bool.false_eq_true, if_false]
      refine ⟨by omega, fun enough => ?_⟩
      omega

theorem widens_items {slots slots' : List Slot} (related : List.Forall₂ Widens slots slots') :
    items slots' = items slots := by
  induction related with
  | nil => rfl
  | cons first others ih => simpa [items, first.item] using ih

theorem widens_grown {slots slots' : List Slot} (related : List.Forall₂ Widens slots slots')
    (grown : ∀ s ∈ slots, s.Grown) : ∀ s ∈ slots', s.Grown := by
  induction related with
  | nil => exact grown
  | cons first others ih =>
    simp only [List.mem_cons, forall_eq_or_imp] at grown ⊢
    exact ⟨first.grown grown.1, ih grown.2⟩

end Slot

namespace Layout

structure Settled (slots : List Slot) (layout : Layout) : Prop where
  made : ofSlots slots = .ok layout
  grown : ∀ s ∈ slots, s.Grown
  calm : ∀ p s, (p, s) ∈ Slot.starts 0 slots → layout.widenSlot p s = .ok s

theorem widen_related {slots slots' : List Slot} {layout : Layout}
    (made : ofSlots slots = .ok layout) (run : layout.widen = .ok slots') :
    List.Forall₂ (fun p s' => layout.widenSlot p.1 p.2 = .ok s') (Slot.starts 0 slots) slots' ∧
      List.Forall₂ Slot.Widens slots slots' := by
  obtain ⟨_, rfl⟩ := ofSlots_ok_iff.mp made
  have each := mapM_ok_iff.mp run
  refine ⟨each, ?_⟩
  have widened := each.imp fun _ _ step => Slot.widens_of_widenSlot step
  rw [← List.forall₂_map_left_iff (f := Prod.snd), Slot.starts_slots] at widened
  exact widened

theorem settled_of_widen {slots : List Slot} {layout : Layout}
    (made : ofSlots slots = .ok layout) (grown : ∀ s ∈ slots, s.Grown)
    (run : layout.widen = .ok slots) : Settled slots layout := by
  refine ⟨made, grown, fun p s member => ?_⟩
  have each : List.Forall₂ (fun p s' => layout.widenSlot p.1 p.2 = .ok s')
      (Slot.starts 0 slots) ((Slot.starts 0 slots).map Prod.snd) := by
    rw [Slot.starts_slots]
    exact (widen_related made run).1
  rw [List.forall₂_map_right_iff] at each
  exact List.forall₂_same.mp each (p, s) member

theorem settle_settled {slots : List Slot} {layout : Layout} (run : settle slots = .ok layout)
    (grown : ∀ s ∈ slots, s.Grown) :
    ∃ slots', Slot.items slots' = Slot.items slots ∧ Settled slots' layout := by
  -- A round that changes anything leaves fewer short jumps.
  induction count : narrowCount slots using Nat.strong_induction_on generalizing slots with
  | _ n ih =>
    rw [settle] at run
    obtain ⟨first, made, round⟩ := bind_ok_iff.mp run
    obtain ⟨widened, step, next⟩ := bind_ok_iff.mp round
    have related := (widen_related made step).2
    split at next
    · rename_i fewer
      obtain ⟨slots', same, settled⟩ := ih _ (count ▸ fewer) next
        (Slot.widens_grown related grown) rfl
      exact ⟨slots', same.trans (Slot.widens_items related), settled⟩
    · rename_i stays
      obtain rfl := (Slot.widens_count related).2 (by omega)
      cases next
      exact ⟨_, rfl, settled_of_widen made grown step⟩

end Layout
end ClassHooks
