import ClassHooks.Proofs.Instruction.Widening

/-!
Two layouts of the same code, one with more bytes in it. A switch takes up what comes to it, but for
a multiple of four, so that two places may lie farther apart in the shorter layout. They do so by two
bytes at most if jumps are what is longer, and only if one of these stands before both places and a
switch between them. A layout with room in which all short branches reach is found unless this brings
one of them out of reach.
-/
namespace ClassHooks

/-- From a place to the next in a layout, and in one with more bytes. -/
inductive Stretches (x y x' y' : Nat) : Prop where
  | plain {size more : Nat} (near : x' = x + size) (far : y' = y + size + more)
  | aligned {tail more : Nat} (near : x' = 4 * (x / 4) + tail) (far : y' = 4 * (y / 4) + tail + more)

namespace Stretches
variable {x y : Nat → Nat} {last : Nat}
  (steps : ∀ n, n < last → Stretches (x n) (y n) (x (n + 1)) (y (n + 1)))
include steps

theorem floor (shift : Nat) {n m : Nat} (order : n ≤ m) (bound : m ≤ last)
    (behind : 4 * shift + x n ≤ y n) : 4 * shift + x m ≤ y m := by
  induction m, order using Nat.le_induction with
  | base => exact behind
  | succ m order ih =>
    have before := ih (Nat.le_of_succ_le bound)
    cases steps m bound with
    | plain near far => omega
    | aligned near far => omega

theorem le {n : Nat} (bound : n ≤ last) (start : x 0 ≤ y 0) : x n ≤ y n := by
  have := floor steps 0 (Nat.zero_le n) bound (by omega)
  omega

omit steps in
/-- Places lie no farther apart in the shorter layout if no step on the way shrinks in the other. -/
theorem apart {n m : Nat} (order : n ≤ m)
    (each : ∀ k, n ≤ k → k < m → x (k + 1) + y k ≤ y (k + 1) + x k) :
    x m + y n ≤ y m + x n := by
  induction m, order using Nat.le_induction with
  | base => omega
  | succ m order ih =>
    have before := ih fun k low high => each k low (by omega)
    have here := each m order (Nat.lt_succ_self m)
    omega

end Stretches

namespace Slot
open Item

def LongBefore (slots : List Slot) (n : Nat) : Prop :=
  ∃ k i, k < n ∧ (ops slots)[k]? = some (i, true)

def SwitchBetween (slots : List Slot) (n m : Nat) : Prop :=
  ∃ k i long, n ≤ k ∧ k < m ∧ (ops slots)[k]? = some (i, long) ∧ i.isSwitch = true

/-- Slots that can be written: what is long may be so, the code has room, and all branches with a
distance of two bytes reach. -/
structure Encodable (slots : List Slot) : Prop where
  grown : ∀ s ∈ slots, s.Grown
  room : finish 0 slots ≤ 65535
  reach : ∀ n op l m, (ops slots)[n]? = some (⟨op, .branch l⟩, false) → op.isLongJump = false →
    Marks (items slots) l m →
      fitsShort ((placeAfter 0 slots m : Int) - placeAfter 0 slots n) = true

/-- A branch with a distance of two bytes has two to spare, if a long jump before it and its target
moves a switch between them. -/
def Steady (slots : List Slot) : Prop :=
  ∀ n op l m, (ops slots)[n]? = some (⟨op, .branch l⟩, false) → op.isLongJump = false →
    Marks (items slots) l m → LongBefore slots (min n m) →
      SwitchBetween slots (min n m) (max n m) →
        -32766 ≤ (placeAfter 0 slots m : Int) - placeAfter 0 slots n ∧
          (placeAfter 0 slots m : Int) - placeAfter 0 slots n ≤ 32765

theorem placeAfter_le {n m : Nat} (p : Nat) {slots : List Slot} (order : n ≤ m)
    (bound : m ≤ (ops slots).length) : placeAfter p slots n ≤ placeAfter p slots m := by
  rcases Nat.lt_or_eq_of_le order with before | rfl
  · refine Nat.le_of_lt (placeAfter_lt p slots before ?_)
    rw [← ops_code, List.length_map]
    omega
  · exact Nat.le_refl _

section Within
variable {slots wide : List Slot} (within : List.Forall₂ Within slots wide)
include within

theorem ops_within : List.Forall₂ (fun x y => y.1 = x.1 ∧ (x.2 = true → y.2 = true)) (ops slots)
    (ops wide) := by
  induction within with
  | nil => exact .nil
  | @cons s s' _ _ first _ ih =>
    obtain ⟨item, long⟩ := s
    obtain ⟨item', long'⟩ := s'
    obtain rfl : item' = item := first.item
    cases item' with
    | mark l => exact ih
    | op i => exact .cons ⟨rfl, first.long⟩ ih

theorem op_within {n : Nat} {i : Instruction Label} {long : Bool}
    (here : (ops slots)[n]? = some (i, long)) :
    ∃ long', (ops wide)[n]? = some (i, long') ∧ (long = true → long' = true) := by
  obtain ⟨⟨i', long'⟩, there, rfl, grows⟩ := related_getElem? (ops_within within) here
  exact ⟨long', there, grows⟩

theorem next_within {n : Nat} {i : Instruction Label} {long : Bool}
    (here : (ops slots)[n]? = some (i, long)) :
    (∃ size k, placeAfter 0 slots (n + 1) = placeAfter 0 slots n + size ∧
        placeAfter 0 wide (n + 1) = placeAfter 0 wide n + size + 2 * k) ∨
      i.isSwitch = true ∧ ∃ tail,
        placeAfter 0 slots (n + 1) = 4 * (placeAfter 0 slots n / 4) + tail ∧
          placeAfter 0 wide (n + 1) = 4 * (placeAfter 0 wide n / 4) + tail := by
  obtain ⟨long', there, grows⟩ := op_within within here
  rw [placeAfter_succ 0 here, placeAfter_succ 0 there]
  have first : Within ⟨.op i, long⟩ ⟨.op i, long'⟩ := ⟨rfl, grows⟩
  rcases end_of_within first with ⟨size, k, near, far⟩ | ⟨_, tail, same, switch, near, far⟩
  · simp only [size_op] at near far
    exact .inl ⟨size, k, by rw [near], by rw [far, Nat.add_assoc]⟩
  · cases same
    exact .inr ⟨switch, tail, near _, far _⟩

theorem stretches_of_within {n : Nat} (inside : n < (ops slots).length) :
    Stretches (placeAfter 0 slots n) (placeAfter 0 wide n) (placeAfter 0 slots (n + 1))
      (placeAfter 0 wide (n + 1)) := by
  rcases next_within within (List.getElem?_eq_getElem inside) with
    ⟨size, k, near, far⟩ | ⟨_, tail, near, far⟩
  · exact .plain near far
  · exact .aligned near (far.trans (Nat.add_zero _).symm)

/-- Jumps grow by two bytes, so every place moves by an even number of bytes. -/
theorem even_of_within {n : Nat} (bound : n ≤ (ops slots).length) :
    ∃ k, placeAfter 0 wide n = placeAfter 0 slots n + 2 * k := by
  induction n with
  | zero => exact ⟨0, by rw [placeAfter_zero, placeAfter_zero]⟩
  | succ n ih =>
    obtain ⟨moved, before⟩ := ih (Nat.le_of_succ_le bound)
    rcases next_within within (List.getElem?_eq_getElem bound) with
      ⟨size, k, near, far⟩ | ⟨_, tail, near, far⟩
    · exact ⟨moved + k, by omega⟩
    · exact ⟨2 * (placeAfter 0 wide n / 4 - placeAfter 0 slots n / 4), by omega⟩

theorem placeAfter_same {n : Nat} (bound : n ≤ (ops slots).length)
    (none : ¬ LongBefore wide n) : placeAfter 0 wide n = placeAfter 0 slots n := by
  induction n with
  | zero => rw [placeAfter_zero, placeAfter_zero]
  | succ n ih =>
    have before := ih (Nat.le_of_succ_le bound) fun ⟨k, i, low, long⟩ =>
      none ⟨k, i, Nat.lt_succ_of_lt low, long⟩
    obtain ⟨⟨i, long⟩, here⟩ : ∃ x, (ops slots)[n]? = some x :=
      ⟨_, List.getElem?_eq_getElem bound⟩
    obtain ⟨long', there, grows⟩ := op_within within here
    obtain rfl : long' = false := Bool.eq_false_of_not_eq_true fun wide =>
      none ⟨n, i, Nat.lt_succ_self n, wide ▸ there⟩
    obtain rfl : long = false := Bool.eq_false_of_not_eq_true fun wide =>
      absurd (grows wide) Bool.false_ne_true
    rw [placeAfter_succ 0 here, placeAfter_succ 0 there, before]

/-- Two places lie at most two bytes farther apart where less is long, and no farther without a
long jump before both and a switch between them. -/
theorem apart_within {n m : Nat} (order : n ≤ m) (bound : m ≤ (ops slots).length) :
    placeAfter 0 slots m + placeAfter 0 wide n ≤
        placeAfter 0 wide m + placeAfter 0 slots n + 2 ∧
      (¬ (LongBefore wide n ∧ SwitchBetween wide n m) →
        placeAfter 0 slots m + placeAfter 0 wide n ≤
          placeAfter 0 wide m + placeAfter 0 slots n) := by
  have floor := fun shift => Stretches.floor (fun _ => stretches_of_within within) shift order bound
  obtain ⟨k, moved⟩ := even_of_within within (Nat.le_trans order bound)
  refine ⟨?_, fun calm => ?_⟩
  · have := floor (k / 2) (by omega)
    omega
  · by_cases jump : LongBefore wide n
    · -- Between the two nothing is aligned.
      refine Stretches.apart order fun j low high => ?_
      have here := List.getElem?_eq_getElem (Nat.lt_of_lt_of_le high bound)
      rcases next_within within here with ⟨size, k, near, far⟩ | ⟨switch, _⟩
      · omega
      · obtain ⟨long', there, _⟩ := op_within within here
        exact absurd ⟨jump, j, _, long', low, high, there, switch⟩ calm
    · have same := placeAfter_same within (Nat.le_trans order bound) jump
      have := floor 0 (by omega)
      omega

theorem reach_within (encodable : Encodable wide) (steady : Steady wide) {n m : Nat} {op : Opcode}
    {l : Label} (here : (ops slots)[n]? = some (⟨op, .branch l⟩, false))
    (there : (ops wide)[n]? = some (⟨op, .branch l⟩, false)) (short : op.isLongJump = false)
    (marks : Marks (items slots) l m) :
    fitsShort ((placeAfter 0 slots m : Int) - placeAfter 0 slots n) = true := by
  have inside : n ≤ (ops slots).length := Nat.le_of_lt (List.getElem?_eq_some_iff.mp here).1
  have bound : m ≤ (ops slots).length := by
    have := marks_le marks
    rwa [← ops_code, List.length_map] at this
  have marks' : Marks (items wide) l m := by rwa [within_items within]
  have reached := encodable.reach n op l m there short marks'
  have kept := steady n op l m there short marks'
  simp only [fitsShort, Bool.and_eq_true, decide_eq_true_eq] at reached ⊢
  rcases Nat.le_total n m with order | order
  · rw [Nat.min_eq_left order, Nat.max_eq_right order] at kept
    have rises := placeAfter_le 0 order bound
    obtain ⟨near, calm⟩ := apart_within within order bound
    by_cases moved : LongBefore wide n ∧ SwitchBetween wide n m
    · have := kept moved.1 moved.2
      omega
    · have := calm moved
      omega
  · rw [Nat.min_eq_right order, Nat.max_eq_left order] at kept
    have rises := placeAfter_le 0 order inside
    obtain ⟨near, calm⟩ := apart_within within order inside
    by_cases moved : LongBefore wide m ∧ SwitchBetween wide m n
    · have := kept moved.1 moved.2
      omega
    · have := calm moved
      omega

theorem starts_within (p : Nat) : List.Forall₂ (fun x s => x.2.Within s ∧ ∀ i, x.2.item = .op i →
    ∃ n, (ops slots)[n]? = some (i, x.2.long) ∧ (ops wide)[n]? = some (i, s.long) ∧
      x.1 = placeAfter p slots n) (starts p slots) wide := by
  induction within generalizing p with
  | nil => exact .nil
  | @cons s s' rest rest' first _ ih =>
    obtain ⟨item, long⟩ := s
    obtain ⟨item', long'⟩ := s'
    obtain rfl : item' = item := first.item
    cases item' with
    | mark l => exact .cons ⟨first, fun i same => by cases same⟩ (ih p)
    | op i =>
      refine .cons ⟨first, fun j same => ?_⟩ ((ih _).imp fun x s ⟨later, number⟩ =>
        ⟨later, fun j same => ?_⟩)
      · cases same
        exact ⟨0, rfl, rfl, rfl⟩
      · obtain ⟨n, here, there, place⟩ := number j same
        exact ⟨n + 1, here, there, place⟩

end Within
end Slot

namespace Layout
open Slot

section Settling
variable {slots wide : List Slot} (encodable : Encodable wide) (steady : Steady wide)
  (placed : Item.Placed (items slots)) (within : List.Forall₂ Within slots wide)
include encodable steady placed within

/-- A round widens only what is long in the longer layout. -/
theorem widen_within {layout : Layout} (made : ofSlots slots = .ok layout) :
    ∃ widened, layout.widen = .ok widened ∧ List.Forall₂ Within widened wide := by
  rw [widen, placed_of_made made]
  refine mapM_ok_of_related ((starts_within within 0).imp ?_)
  rintro ⟨p, ⟨item, long⟩⟩ s ⟨first, number⟩
  cases item with
  | mark l => exact ⟨_, rfl, first⟩
  | op i =>
    obtain ⟨op, operand⟩ := i
    cases operand with
    | branch l =>
      obtain ⟨n, here, there, rfl⟩ := number _ rfl
      cases form : (op.isLongJump || long) with
      | true => exact ⟨_, by simp only [widenSlot, form, if_true], first⟩
      | false =>
        obtain ⟨short, rfl⟩ := Bool.or_eq_false_iff.mp form
        have inside : ⟨op, .branch l⟩ ∈ Item.code (items slots) := by
          rw [← ops_code]
          exact List.mem_map_of_mem (List.mem_of_getElem? here)
        obtain ⟨m, marks⟩ := Item.marked_iff_mem.mpr
          (placed.marked _ inside l (by simp [Instruction.targets, Operand.targets]))
        have found := distance_of_marks made
          ((Item.lastMarks_iff_marks placed.acceptable.once).mpr marks) (placeAfter 0 slots n)
        cases near : fitsShort ((placeAfter 0 slots m : Int) - placeAfter 0 slots n) with
        | true => exact ⟨_, widenSlot_near found near, first⟩
        | false =>
          -- It does not reach here, so it is long there.
          cases wider : s.long with
          | false =>
            rw [wider] at there
            rw [reach_within within encodable steady here there short marks] at near
            cases near
          | true =>
            rw [wider] at there
            obtain ⟨member, _⟩ := start_of_op (start_op_iff (p := 0).mpr ⟨n, there, rfl⟩)
            obtain ⟨_, _, op', same, _, jump⟩ := encodable.grown _ member rfl
            cases same
            exact ⟨_, widenSlot_far found near short (Option.isSome_of_eq_some jump),
              ⟨first.item, fun _ => wider⟩⟩
    | _ => exact ⟨_, rfl, first⟩

/-- The rounds end, without an error, before they have more that is long than the longer layout. -/
theorem settle_within (grown : ∀ s ∈ slots, s.Grown) : ∃ last layout,
    List.Forall₂ Within last wide ∧ Settled last layout ∧ settle slots = .ok layout := by
  -- A round that changes anything leaves fewer narrow jumps, and stays within the wide layout.
  induction count : narrowCount slots using Nat.strong_induction_on generalizing slots with
  | _ n ih =>
    have room := Nat.le_trans (finish_mono within (Nat.le_refl 0)) encodable.room
    have made := ofSlots_ok_iff.mpr ⟨room, rfl⟩
    obtain ⟨widened, run, within'⟩ := widen_within encodable steady placed within made
    have related := (widen_related made run).2
    by_cases fewer : narrowCount widened < narrowCount slots
    · obtain ⟨last, layout, inside, settled, done⟩ := ih _ (count ▸ fewer)
        (widens_items related ▸ placed) within' (widens_grown related grown) rfl
      refine ⟨last, layout, inside, settled, ?_⟩
      rw [settle]
      refine bind_ok_iff.mpr ⟨_, made, bind_ok_iff.mpr ⟨_, run, ?_⟩⟩
      rw [if_pos fewer]
      exact done
    · obtain rfl := (widens_count related).2 (Nat.le_of_not_lt fewer)
      refine ⟨_, _, within, settled_of_widen made grown run, ?_⟩
      rw [settle]
      refine bind_ok_iff.mpr ⟨_, made, bind_ok_iff.mpr ⟨_, run, ?_⟩⟩
      rw [if_neg fewer]
      rfl

end Settling
end Layout
end ClassHooks
