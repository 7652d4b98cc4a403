import ClassHooks.Proofs.Instruction.Assembly

/-!
The rounds of a layout. Each widens some jumps, so there are no more rounds than jumps to widen and
one to find that nothing is left. What is placed never moves to the front from one round to the
next, although the padding of a switch may get less. In the last round every short branch reaches
its target, so that writing the code finds no distance that its field cannot hold.
-/
namespace ClassHooks
namespace Instruction

def isSwitch (i : Instruction τ) : Bool :=
  match i.operand with
  | .tableSwitch _ _ _ _ | .lookupSwitch _ _ => true
  | _ => false

theorem end_of_switch {i : Instruction τ} (switch : i.isSwitch = true) :
    ∃ tail, ∀ p long, p + i.encodedSize p long = 4 * (p / 4) + tail := by
  obtain ⟨op, operand⟩ := i
  cases operand with
  | tableSwitch d low high ts =>
    exact ⟨4 + 12 + 4 * ts.length, fun p _ => by simp only [encodedSize, switchPadding]; omega⟩
  | lookupSwitch d ps =>
    exact ⟨4 + 8 + 8 * ps.length, fun p _ => by simp only [encodedSize, switchPadding]; omega⟩
  | _ => cases switch

theorem encodedSize_of_plain {i : Instruction τ} (plain : i.isSwitch = false) (long : Bool)
    (p q : Nat) : i.encodedSize p long = i.encodedSize q long := by
  obtain ⟨op, operand⟩ := i
  cases operand <;> first | rfl | cases plain

theorem encodedSize_long (i : Instruction τ) (p : Nat) {long long' : Bool}
    (grows : long = true → long' = true) :
    ∃ k, i.encodedSize p long' = i.encodedSize p long + 2 * k := by
  obtain ⟨op, operand⟩ := i
  cases operand with
  | branch t =>
    cases long with
    | true =>
      rw [grows rfl]
      exact ⟨0, rfl⟩
    | false =>
      by_cases same : op.isLongJump = true
      · exact ⟨0, by simp [encodedSize, same]⟩
      · cases long' with
        | false => exact ⟨0, rfl⟩
        | true => exact ⟨1, by simp [encodedSize, same]⟩
  | _ => exact ⟨0, rfl⟩

end Instruction

namespace Slot
open Item

def narrow (items : List Item) : List Slot := items.map fun item => ⟨item, false⟩

@[simp] theorem items_narrow (xs : List Item) : items (narrow xs) = xs := by
  simp [items, narrow, Function.comp_def]

theorem grown_of_short (item : Item) : Grown ⟨item, false⟩ :=
  fun long => absurd long Bool.false_ne_true

theorem grown_narrow (xs : List Item) : ∀ s ∈ narrow xs, s.Grown := by
  intro s member
  obtain ⟨item, _, rfl⟩ := List.mem_map.mp member
  exact grown_of_short item

/-- The same item, which is long in `s'` if it is long in `s`. -/
structure Within (s s' : Slot) : Prop where
  item : s'.item = s.item
  long : s.long = true → s'.long = true

theorem within_narrow (slots : List Slot) : List.Forall₂ Within (narrow (items slots)) slots := by
  rw [narrow, items, List.map_map, List.forall₂_map_left_iff]
  exact List.forall₂_same.mpr fun s _ => ⟨rfl, fun long => absurd long Bool.false_ne_true⟩

theorem within_of_widens {s s' : Slot} (widens : Widens s s') : s.Within s' := by
  refine ⟨widens.item, fun long => ?_⟩
  rcases widens.change with rfl | ⟨narrow, _⟩
  · exact long
  · obtain ⟨item, here⟩ := s
    cases item with
    | mark l => cases narrow
    | op i =>
      simp only [isNarrow, Bool.and_eq_true, Bool.not_eq_true'] at narrow
      exact absurd long (by simp [narrow.2])

/-- How a slot that may grow, and that may stand farther behind, shifts what follows it. -/
theorem end_of_within {s s' : Slot} (within : s.Within s') :
    (∃ size k, (∀ p, s.size p = size) ∧ ∀ p, s'.size p = size + 2 * k) ∨
      ∃ i tail, s.item = .op i ∧ i.isSwitch = true ∧
        (∀ p, p + s.size p = 4 * (p / 4) + tail) ∧ ∀ p, p + s'.size p = 4 * (p / 4) + tail := by
  obtain ⟨item, long⟩ := s
  obtain ⟨item', long'⟩ := s'
  obtain ⟨same, grows⟩ := within
  obtain rfl : item' = item := same
  cases item' with
  | mark l => exact .inl ⟨0, 0, fun _ => rfl, fun _ => rfl⟩
  | op i =>
    cases switch : i.isSwitch with
    | true =>
      obtain ⟨tail, ends⟩ := Instruction.end_of_switch switch
      exact .inr ⟨i, tail, rfl, switch, fun p => ends p long, fun p => ends p long'⟩
    | false =>
      obtain ⟨k, sum⟩ := i.encodedSize_long 0 grows
      refine .inl ⟨i.encodedSize 0 long, k, fun p => ?_, fun p => ?_⟩
      · exact Instruction.encodedSize_of_plain switch long p 0
      · exact (Instruction.encodedSize_of_plain switch long' p 0).trans sum

theorem end_mono {s s' : Slot} (within : s.Within s') {p q : Nat} (behind : p ≤ q) :
    p + s.size p ≤ q + s'.size q := by
  rcases end_of_within within with ⟨size, k, one, two⟩ | ⟨_, tail, _, _, one, two⟩
  · rw [one, two]
    omega
  · rw [one, two]
    omega

section Positions
variable {slots slots' : List Slot} (within : List.Forall₂ Within slots slots')
include within

theorem within_items : items slots' = items slots := by
  induction within with
  | nil => rfl
  | cons first _ ih => simpa [items, first.item] using ih

theorem starts_mono {p q : Nat} (behind : p ≤ q) :
    List.Forall₂ (fun x y => x.1 ≤ y.1) (starts p slots) (starts q slots') := by
  induction within generalizing p q with
  | nil => exact .nil
  | cons first _ ih => exact .cons behind (ih (end_mono first behind))

theorem finish_mono {p q : Nat} (behind : p ≤ q) : finish p slots ≤ finish q slots' := by
  induction within generalizing p q with
  | nil => exact behind
  | cons first _ ih => exact ih (end_mono first behind)

theorem placeAfter_mono {p q : Nat} (behind : p ≤ q) (n : Nat) :
    placeAfter p slots n ≤ placeAfter q slots' n := by
  induction within generalizing p q n with
  | nil => exact behind
  | @cons s s' _ _ first _ ih =>
    obtain ⟨item, long⟩ := s
    obtain ⟨item', long'⟩ := s'
    obtain rfl : item' = item := first.item
    cases item' with
    | mark l => exact ih behind n
    | op i =>
      cases n with
      | zero => exact behind
      | succ n => exact ih (end_mono first behind) n

end Positions
end Slot

namespace Layout
open Slot

/-- From one layout to the next: the same items in the same or a longer form, nothing placed
farther to the front. -/
structure Grows (slots slots' : List Slot) : Prop where
  within : List.Forall₂ Within slots slots'
  places : List.Forall₂ (fun x y => x.1 ≤ y.1) (starts 0 slots) (starts 0 slots')
  length : finish 0 slots ≤ finish 0 slots'
  labels : ∀ (l : Label) (q : Nat), (labelPositions (starts 0 slots))[l]? = some q →
    ∃ q', (labelPositions (starts 0 slots'))[l]? = some q' ∧ q ≤ q'

theorem grows_of_within {slots slots' : List Slot} (within : List.Forall₂ Within slots slots') :
    Grows slots slots' := by
  refine ⟨within, starts_mono within (Nat.le_refl 0), finish_mono within (Nat.le_refl 0), ?_⟩
  intro l q found
  obtain ⟨n, marks, rfl⟩ := labelPositions_last_iff.mp found
  rw [← within_items within] at marks
  exact ⟨_, labelPositions_last_iff.mpr ⟨n, marks, rfl⟩, placeAfter_mono within (Nat.le_refl 0) n⟩

theorem within_of_widen {slots slots' : List Slot} {layout : Layout}
    (made : ofSlots slots = .ok layout) (run : layout.widen = .ok slots') :
    List.Forall₂ Within slots slots' :=
  (widen_related made run).2.imp fun _ _ => within_of_widens

theorem distance_of_marks {slots : List Slot} {layout : Layout} (made : ofSlots slots = .ok layout)
    {l : Label} {n : Nat} (marks : Item.LastMarks (items slots) l n) (p : Nat) :
    layout.distance p l = .ok ((placeAfter 0 slots n : Int) - p) := by
  obtain ⟨_, rfl⟩ := ofSlots_ok_iff.mp made
  rw [distance, labelPositions_last_iff.mpr ⟨n, marks, rfl⟩]

section Steps
variable {layout : Layout} {p : Nat} {op : Opcode} {l : Label} {d : Int}

theorem widenSlot_near {long : Bool} (found : layout.distance p l = .ok d)
    (near : fitsShort d = true) :
    layout.widenSlot p ⟨.op ⟨op, .branch l⟩, long⟩ = .ok ⟨.op ⟨op, .branch l⟩, long⟩ := by
  simp only [widenSlot]
  split
  · rfl
  · exact bind_ok_iff.mpr ⟨d, found, if_pos near⟩

theorem widenSlot_far (found : layout.distance p l = .ok d) (far : fitsShort d = false)
    (short : op.isLongJump = false) (jump : op.longForm?.isSome = true) :
    layout.widenSlot p ⟨.op ⟨op, .branch l⟩, false⟩ = .ok ⟨.op ⟨op, .branch l⟩, true⟩ := by
  simp only [widenSlot, short, Bool.or_self, Bool.false_eq_true, if_false]
  refine bind_ok_iff.mpr ⟨d, found, ?_⟩
  rw [far, jump]
  rfl

end Steps

/-- The slots that are laid out one after the other until a layout fails or nothing changes, and
what comes of it. -/
inductive Rounds : List Slot → List (List Slot) → Except Error Layout → Prop where
  | tooLong {slots : List Slot} {err : Error} (failed : ofSlots slots = .error err) :
      Rounds slots [slots] (.error err)
  | stuck {slots : List Slot} {layout : Layout} {err : Error} (made : ofSlots slots = .ok layout)
      (failed : layout.widen = .error err) : Rounds slots [slots] (.error err)
  | settled {slots : List Slot} {layout : Layout} (made : ofSlots slots = .ok layout)
      (calm : layout.widen = .ok slots) : Rounds slots [slots] (.ok layout)
  | again {slots widened : List Slot} {layout : Layout} {rounds : List (List Slot)}
      {result : Except Error Layout} (made : ofSlots slots = .ok layout)
      (grown : layout.widen = .ok widened) (changed : widened ≠ slots)
      (later : Rounds widened rounds result) : Rounds slots (slots :: rounds) result

theorem rounds_settle (slots : List Slot) : ∃ rounds, Rounds slots rounds (settle slots) := by
  induction count : narrowCount slots using Nat.strong_induction_on generalizing slots with
  | _ n ih =>
    rw [settle]
    cases made : ofSlots slots with
    | error err => exact ⟨_, .tooLong made⟩
    | ok layout =>
      change ∃ rounds, Rounds slots rounds (layout.widen >>= _)
      cases run : layout.widen with
      | error err => exact ⟨_, .stuck made run⟩
      | ok widened =>
        change ∃ rounds, Rounds slots rounds (ite _ _ _)
        split
        · rename_i fewer
          obtain ⟨rounds, later⟩ := ih _ (count ▸ fewer) widened rfl
          refine ⟨_, .again made run ?_ later⟩
          rintro rfl
          exact Nat.lt_irrefl _ fewer
        · rename_i stays
          obtain rfl := (widens_count (widen_related made run).2).2 (Nat.le_of_not_lt stays)
          exact ⟨_, .settled made run⟩

section Rounds
variable {slots : List Slot} {rounds : List (List Slot)} {result : Except Error Layout}

theorem rounds_head (history : Rounds slots rounds result) : rounds.head? = some slots := by
  cases history <;> rfl

/-- Each round but the last leaves fewer jumps that could still be widened. -/
theorem rounds_length (history : Rounds slots rounds result) :
    rounds.length ≤ narrowCount slots + 1 := by
  induction history with
  | tooLong failed => exact Nat.le_add_left ..
  | stuck made failed => exact Nat.le_add_left ..
  | settled made calm => exact Nat.le_add_left ..
  | again made grown changed later ih =>
    obtain ⟨_, fewer⟩ := widens_count (widen_related made grown).2
    have : ¬ _ ≤ _ := fun enough => changed (fewer enough)
    rw [List.length_cons]
    omega

theorem rounds_grow (history : Rounds slots rounds result) : rounds.IsChain Grows := by
  induction history with
  | tooLong failed => exact .singleton _
  | stuck made failed => exact .singleton _
  | settled made calm => exact .singleton _
  | again made grown changed later ih =>
    obtain ⟨rest, rfl⟩ := List.head?_eq_some_iff.mp (rounds_head later)
    exact List.isChain_cons_cons.mpr ⟨grows_of_within (within_of_widen made grown), ih⟩

theorem rounds_last (history : Rounds slots rounds result) (grown : ∀ s ∈ slots, s.Grown)
    {layout : Layout} (ok : result = .ok layout) :
    ∃ last, rounds.getLast? = some last ∧ Settled last layout := by
  induction history with
  | tooLong failed => cases ok
  | stuck made failed => cases ok
  | @settled slots layout' made calm =>
    cases ok
    exact ⟨slots, rfl, settled_of_widen made grown calm⟩
  | again made wider changed later ih =>
    obtain ⟨last, final, settled⟩ := ih (widens_grown (widen_related made wider).2 grown) ok
    refine ⟨last, ?_, settled⟩
    rw [List.getLast?_cons, final]
    rfl

end Rounds

theorem rounds_unique {slots : List Slot} {rounds rounds' : List (List Slot)}
    {result result' : Except Error Layout} (one : Rounds slots rounds result)
    (two : Rounds slots rounds' result') : rounds' = rounds ∧ result' = result := by
  induction one generalizing rounds' result' with
  | tooLong failed =>
    cases two with
    | tooLong failed' =>
      cases failed.symm.trans failed'
      exact ⟨rfl, rfl⟩
    | stuck made _ => cases failed.symm.trans made
    | settled made _ => cases failed.symm.trans made
    | again made _ _ _ => cases failed.symm.trans made
  | stuck made failed =>
    cases two with
    | tooLong failed' => cases made.symm.trans failed'
    | stuck made' failed' =>
      cases made.symm.trans made'
      cases failed.symm.trans failed'
      exact ⟨rfl, rfl⟩
    | settled made' calm =>
      cases made.symm.trans made'
      cases failed.symm.trans calm
    | again made' grown _ _ =>
      cases made.symm.trans made'
      cases failed.symm.trans grown
  | settled made calm =>
    cases two with
    | tooLong failed => cases made.symm.trans failed
    | stuck made' failed =>
      cases made.symm.trans made'
      cases calm.symm.trans failed
    | settled made' _ =>
      cases made.symm.trans made'
      exact ⟨rfl, rfl⟩
    | again made' grown changed _ =>
      cases made.symm.trans made'
      cases calm.symm.trans grown
      exact absurd rfl changed
  | again made grown changed later ih =>
    cases two with
    | tooLong failed => cases made.symm.trans failed
    | stuck made' failed =>
      cases made.symm.trans made'
      cases grown.symm.trans failed
    | settled made' calm =>
      cases made.symm.trans made'
      cases grown.symm.trans calm
      exact absurd rfl changed
    | again made' grown' _ later' =>
      cases made.symm.trans made'
      cases grown.symm.trans grown'
      obtain ⟨rfl, rfl⟩ := ih later'
      exact ⟨rfl, rfl⟩

theorem narrowCount_narrow (items : List Item) : narrowCount (narrow items) =
    (Item.code items).countP fun i => i.opcode = Opcode.goto ∨ i.opcode = Opcode.jsr := by
  have jump : ∀ op : Opcode, op.longForm?.isSome = decide (op = Opcode.goto ∨ op = Opcode.jsr) := by
    intro op
    unfold Opcode.longForm?
    split
    · rename_i same
      simp [same]
    · split
      · rename_i same
        simp [same]
      · rename_i other other'
        simp [other, other']
  induction items with
  | nil => rfl
  | cons item items ih =>
    cases item with
    | mark l => exact ih
    | op i =>
      change narrowCount (⟨.op i, false⟩ :: narrow items) = _
      rw [narrowCount, List.countP_cons, Item.code_op, List.countP_cons, ← ih]
      simp only [isNarrow, jump, Bool.not_false, Bool.and_true]
      rfl

section Settled
variable {slots : List Slot} {layout : Layout} (settled : Settled slots layout)
include settled

theorem reach_of_settled {p : Nat} {op : Opcode} {l : Label}
    (there : (p, ⟨.op ⟨op, .branch l⟩, false⟩) ∈ starts 0 slots) (short : op.isLongJump = false) :
    ∃ d, layout.distance p l = .ok d ∧ fitsShort d = true := by
  have calm := settled.calm _ _ there
  simp only [widenSlot, short, Bool.or_self, Bool.false_eq_true, if_false] at calm
  obtain ⟨d, distance, step⟩ := bind_ok_iff.mp calm
  refine ⟨d, distance, ?_⟩
  split at step
  · assumption
  · split at step
    · cases step
    · cases step

theorem fitsInt_of_settled {p : Nat} {s : Slot} (there : (p, s) ∈ starts 0 slots) {l : Label}
    {d : Int} (found : layout.distance p l = .ok d) : fitsInt d = true := by
  obtain ⟨room, rfl⟩ := ofSlots_ok_iff.mp settled.made
  have here := start_le_finish there
  unfold distance at found
  split at found
  · rename_i q label
    cases found
    obtain ⟨n, _, rfl⟩ := labelPositions_last_iff.mp label
    have target := placeAfter_le_finish 0 slots n
    simp only [fitsInt, Bool.and_eq_true, decide_eq_true_eq]
    omega
  · cases found

theorem fieldDistance_eq {p : Nat} {i : Instruction Label} {long : Bool}
    (there : (p, ⟨.op i, long⟩) ∈ starts 0 slots) {l : Label} (target : l ∈ i.targets) :
    layout.fieldDistance p i long l = layout.distance p l := by
  unfold fieldDistance
  cases found : layout.distance p l with
  | error err => rfl
  | ok d =>
    have fits : (i.isShortBranch long && !fitsShort d) = false := by
      obtain ⟨op, operand⟩ := i
      cases operand with
      | branch l' =>
        obtain rfl : l = l' := List.mem_singleton.mp target
        cases short : (long || op.isLongJump) with
        | true => simp [Instruction.isShortBranch, short]
        | false =>
          obtain ⟨rfl, near⟩ := Bool.or_eq_false_iff.mp short
          obtain ⟨d', found', reach⟩ := reach_of_settled settled there near
          cases found.symm.trans found'
          simp [reach]
      | _ => rfl
    have int := fitsInt_of_settled settled there found
    change ite _ _ _ = _
    rw [int, fits]
    rfl

theorem slotBytes_error {p : Nat} {s : Slot} (there : (p, s) ∈ starts 0 slots) {err : Error}
    (failed : layout.slotBytes p s = .error err) : ∃ l, err = .undefinedLabel l := by
  obtain ⟨item, long⟩ := s
  cases item with
  | mark l => cases failed
  | op i =>
    rcases bind_error_iff.mp failed with lost | ⟨_, _, done⟩
    · obtain ⟨l, target, here⟩ := Instruction.error_of_mapTargets lost
      rw [fieldDistance_eq settled there target] at here
      unfold distance at here
      split at here
      · cases here
      · cases here
        exact ⟨l, rfl⟩
    · cases done

end Settled
end Layout
end ClassHooks
