import ClassHooks.Proofs.Instruction.Rendering
import ClassHooks.Proofs.Instruction.Stretching

/-!
When an assembly makes a code array. Items that it accepts, with a mark for every target, fail for
their places only: the code is too long, or a branch without a long form is too far from its target.
They do not fail if the shortest layout has room and all its jumps reach.
-/
namespace ClassHooks
open Item

namespace Slot

theorem ops_narrow (xs : List Item) : ops (narrow xs) = (code xs).map fun i => (i, false) := by
  induction xs with
  | nil => rfl
  | cons item rest ih =>
    cases item with
    | mark l => exact ih
    | op i => exact congrArg ((i, false) :: ·) ih

theorem op_narrow {xs : List Item} {n : Nat} {i : Instruction Label}
    (here : (code xs)[n]? = some i) : (ops (narrow xs))[n]? = some (i, false) := by
  rw [ops_narrow, List.getElem?_map, here]
  rfl

theorem of_op_narrow {xs : List Item} {n : Nat} {i : Instruction Label} {long : Bool}
    (here : (ops (narrow xs))[n]? = some (i, long)) : (code xs)[n]? = some i ∧ long = false := by
  rw [ops_narrow, List.getElem?_map, Option.map_eq_some_iff] at here
  obtain ⟨j, there, same⟩ := here
  cases same
  exact ⟨there, rfl⟩

theorem eq_narrow_of_within {slots : List Slot} {xs : List Item}
    (within : List.Forall₂ Within slots (narrow xs)) : slots = narrow xs := by
  rw [narrow, List.forall₂_map_right_iff] at within
  refine eq_map_of_related (within.flip.imp fun item s same => ?_)
  obtain ⟨_, long⟩ := s
  obtain ⟨rfl, none⟩ := same
  cases long with
  | true => exact absurd (none rfl) Bool.false_ne_true
  | false => rfl

theorem eq_narrow {slots : List Slot} (grown : ∀ s ∈ slots, s.Grown)
    (still : ∀ i ∈ code (items slots), i.opcode.longForm? = none) :
    slots = narrow (items slots) := by
  have short : ∀ s ∈ slots, s = ⟨s.item, false⟩ := by
    rintro ⟨item, long⟩ member
    cases long with
    | false => rfl
    | true =>
      obtain ⟨i, l, op, same, _, form⟩ := grown _ member rfl
      rw [still i (mem_code_iff.mpr (List.mem_map.mpr ⟨_, member, same⟩))] at form
      cases form
  rw [narrow, items, List.map_map]
  exact (List.map_id'' (fun _ => rfl) slots).symm.trans (List.map_congr_left short)

end Slot

namespace Layout
open Slot

section Made
variable {slots : List Slot} {layout : Layout}

theorem distance_ok (made : ofSlots slots = .ok layout) (once : (Item.labels (items slots)).Nodup)
    {l : Label} (marked : l ∈ Item.labels (items slots)) (position : Nat) :
    ∃ n, Marks (items slots) l n ∧ layout.placeOf l = placeAfter 0 slots n ∧
      layout.distance position l = .ok ((layout.placeOf l : Int) - position) := by
  obtain ⟨n, marks⟩ := marked_iff_mem.mpr marked
  have found := (labels_iff made once).mpr ⟨n, marks, rfl⟩
  have place : layout.placeOf l = placeAfter 0 slots n := by
    rw [placeOf, found]
    rfl
  refine ⟨n, marks, place, ?_⟩
  rw [distance, found, place]

theorem code_of_placed (settled : Settled slots layout) (placed : Item.Placed (items slots)) :
    ∃ bytes, layout.code = .ok bytes := by
  have each : ∀ p ∈ layout.placed, ∃ bytes, layout.slotBytes p.1 p.2 = .ok bytes := by
    rintro ⟨p, ⟨item, long⟩⟩ member
    cases item with
    | mark l => exact ⟨[], rfl⟩
    | op i =>
      rw [placed_of_made settled.made] at member
      have inside : i ∈ Item.code (items slots) :=
        mem_code_iff.mpr (List.mem_map.mpr ⟨_, (start_of_op member).1, rfl⟩)
      have all : ∀ l ∈ i.targets,
          layout.fieldDistance p i long l = .ok ((layout.placeOf l : Int) - p) := by
        intro l target
        obtain ⟨_, _, _, ok⟩ := distance_ok settled.made placed.acceptable.once
          (placed.marked i inside l target) p
        rw [fieldDistance_eq settled member target, ok]
      exact ⟨_, bind_ok_iff.mpr ⟨_, Instruction.mapTargets_ok all, rfl⟩⟩
  obtain ⟨parts, whole⟩ := ok_of_forall each
  exact ⟨_, bind_ok_iff.mpr ⟨parts, whole, rfl⟩⟩

variable (made : ofSlots slots = .ok layout) (placed : Item.Placed (items slots))
include made placed

theorem widen_error {err : Error} (run : layout.widen = .error err) :
    ∃ op position l d, ⟨op, .branch l⟩ ∈ Item.code (items slots) ∧ op.longForm? = none ∧
      err = .invalidBranch (.outOfReach op position l d) := by
  obtain ⟨⟨p, ⟨item, long⟩⟩, member, failed⟩ := error_of_mapM run
  rw [placed_of_made made] at member
  unfold widenSlot at failed
  split at failed
  · rename_i op l item
    cases item
    split at failed
    · cases failed
    · have inside : ⟨op, .branch l⟩ ∈ Item.code (items slots) :=
        mem_code_iff.mpr (List.mem_map.mpr ⟨_, (start_of_op member).1, rfl⟩)
      have marked := placed.marked _ inside l (by simp [Instruction.targets, Operand.targets])
      obtain ⟨_, _, _, ok⟩ := distance_ok made placed.acceptable.once marked p
      rcases bind_error_iff.mp failed with lost | ⟨d, _, failed⟩
      · rw [ok] at lost
        cases lost
      · split at failed
        · cases failed
        · split at failed
          · cases failed
          · rename_i stays
            cases failed
            exact ⟨op, p, l, d, inside, by simpa using stays, rfl⟩
  · cases failed

end Made

theorem settle_error {slots : List Slot} (placed : Item.Placed (items slots)) {err : Error}
    (run : settle slots = .error err) : (∃ n, err = .malformed (.methodTooLong n)) ∨
      ∃ op position l d, ⟨op, .branch l⟩ ∈ Item.code (items slots) ∧ op.longForm? = none ∧
        err = .invalidBranch (.outOfReach op position l d) := by
  induction count : narrowCount slots using Nat.strong_induction_on generalizing slots with
  | _ n ih =>
    rw [settle] at run
    rcases bind_error_iff.mp run with long | ⟨layout, made, run⟩
    · unfold ofSlots at long
      dsimp only at long
      split at long
      · cases long
        exact .inl ⟨_, rfl⟩
      · cases long
    · rcases bind_error_iff.mp run with far | ⟨widened, step, run⟩
      · exact .inr (widen_error made placed far)
      · split at run
        · rename_i fewer
          have same := widens_items (widen_related made step).2
          have later := ih _ (count ▸ fewer) (same ▸ placed) run rfl
          rwa [same] at later
        · cases run

theorem settle_narrow {xs : List Item} (placed : Item.Placed xs)
    (room : finish 0 (narrow xs) ≤ 65535)
    (reach : ∀ n op l, (Item.code xs)[n]? = some ⟨op, .branch l⟩ → op.isLongJump = false →
      ∀ m, Marks xs l m → fitsShort
        ((placeAfter 0 (narrow xs) m : Int) - placeAfter 0 (narrow xs) n) = true) :
    ∃ layout, Settled (narrow xs) layout ∧ settle (narrow xs) = .ok layout := by
  have encodable : Encodable (narrow xs) := by
    refine ⟨grown_narrow xs, room, fun n op l m here short marks => ?_⟩
    rw [items_narrow] at marks
    exact reach n op l (of_op_narrow here).1 short m marks
  have steady : Steady (narrow xs) := fun n op l m _ _ _ ⟨k, i, _, long⟩ _ =>
    absurd (of_op_narrow long).2.symm Bool.false_ne_true
  have first := within_narrow (narrow xs)
  rw [items_narrow] at first
  obtain ⟨last, layout, within, settled, run⟩ := settle_within encodable steady
    (by rwa [items_narrow]) first (grown_narrow xs)
  obtain rfl : last = narrow xs := eq_narrow_of_within within
  exact ⟨layout, settled, run⟩

end Layout

namespace Assembly

theorem takes_acceptable {items : List Item} (acceptable : Acceptable items) (a : Assembly)
    (fresh : ∀ l ∈ labels items, a.marked.contains l = false) :
    ∃ a', items.foldlM add a = .ok a' ∧ a'.items.toList = a.items.toList ++ items := by
  induction items generalizing a with
  | nil => exact ⟨a, rfl, by simp⟩
  | cons item items ih =>
    obtain ⟨once, fits⟩ := acceptable
    cases item with
    | mark l =>
      rw [labels_mark, List.nodup_cons] at once
      rw [labels_mark, List.forall_mem_cons] at fresh
      obtain ⟨held, marked⟩ := a
      have first : Assembly.add ⟨held, marked⟩ (.mark l) =
          .ok ⟨held.push (.mark l), marked.insert l⟩ := by
        simp only [add, mark]
        rw [if_neg (by rw [fresh.1]; exact Bool.false_ne_true)]
      obtain ⟨a', rest, listed⟩ := ih ⟨once.2, fits⟩ ⟨held.push (.mark l), marked.insert l⟩
        (fresh_after_mark first once.1 fresh.2)
      refine ⟨a', ?_, by simp [listed]⟩
      rw [List.foldlM_cons, first]
      exact rest
    | op i =>
      rw [code_op, List.forall_mem_cons] at fits
      obtain ⟨⟨shape, assigned, fit⟩, others⟩ := fits
      obtain ⟨held, marked⟩ := a
      have first : Assembly.add ⟨held, marked⟩ (.op i) = .ok ⟨held.push (.op i), marked⟩ := by
        simp only [add, emit, assigned, fit, if_true]
      obtain ⟨a', rest, listed⟩ := ih ⟨once, others⟩ ⟨held.push (.op i), marked⟩ fresh
      refine ⟨a', ?_, by simp [listed]⟩
      rw [List.foldlM_cons, first]
      exact rest

theorem encode_eq {items : List Item} (acceptable : Acceptable items) :
    Assembly.encode items = (do
      let layout ← Layout.settle (Slot.narrow items)
      return ⟨← layout.code, layout.labels⟩) := by
  obtain ⟨a, taken, listed⟩ := takes_acceptable acceptable empty (by simp [empty])
  rw [Assembly.encode, taken]
  have items : a.items.toList = items := by simpa [empty] using listed
  change a.finish = _
  rw [finish, items]
  rfl

theorem encode_error {items : List Item} (placed : Item.Placed items) {err : Error}
    (run : Assembly.encode items = .error err) : (∃ n, err = .malformed (.methodTooLong n)) ∨
      ∃ op position l d, ⟨op, .branch l⟩ ∈ code items ∧ op.longForm? = none ∧
        err = .invalidBranch (.outOfReach op position l d) := by
  rw [encode_eq placed.acceptable] at run
  have placed' : Item.Placed (Slot.items (Slot.narrow items)) := by rwa [Slot.items_narrow]
  rcases bind_error_iff.mp run with unsettled | ⟨layout, settle, run⟩
  · have failed := Layout.settle_error placed' unsettled
    rwa [Slot.items_narrow] at failed
  · obtain ⟨slots, same, settled⟩ := Layout.settle_settled settle (Slot.grown_narrow items)
    obtain ⟨bytes, coded⟩ := Layout.code_of_placed settled (same ▸ placed')
    rcases bind_error_iff.mp run with lost | ⟨_, _, done⟩
    · rw [coded] at lost
      cases lost
    · cases done

theorem laid_narrow {items : List Item} (placed : Item.Placed items)
    (room : Slot.finish 0 (Slot.narrow items) ≤ 65535)
    (reach : ∀ n op l, (code items)[n]? = some ⟨op, .branch l⟩ → op.isLongJump = false →
      ∀ m, Marks items l m → fitsShort ((Slot.placeAfter 0 (Slot.narrow items) m : Int) -
        Slot.placeAfter 0 (Slot.narrow items) n) = true) :
    ∃ e layout, Assembly.encode items = .ok e ∧ e.Laid items (Slot.narrow items) layout := by
  have placed' : Item.Placed (Slot.items (Slot.narrow items)) := by rwa [Slot.items_narrow]
  obtain ⟨layout, settled, settle⟩ := Layout.settle_narrow placed room reach
  obtain ⟨bytes, coded⟩ := Layout.code_of_placed settled placed'
  refine ⟨⟨bytes, layout.labels⟩, layout, ?_, placed.acceptable, Slot.items_narrow items, settled,
    coded, rfl⟩
  rw [encode_eq placed.acceptable]
  exact bind_ok_iff.mpr ⟨_, settle, bind_ok_iff.mpr ⟨_, coded, rfl⟩⟩

/-- Jumps without a long form are refused if one of them does not reach in the narrow layout. -/
theorem refused_of_far {items : List Item}
    (still : ∀ i ∈ code items, i.opcode.longForm? = none) {n m : Nat} {op : Opcode} {l : Label}
    (here : (code items)[n]? = some ⟨op, .branch l⟩) (short : op.isLongJump = false)
    (marks : Marks items l m) (far : fitsShort ((Slot.placeAfter 0 (Slot.narrow items) m : Int) -
      Slot.placeAfter 0 (Slot.narrow items) n) = false) (e : Encoded) :
    Assembly.encode items ≠ .ok e := by
  intro run
  obtain ⟨slots, layout, laid⟩ := laid_of_encode run
  have narrow := Slot.eq_narrow laid.settled.grown (by rwa [laid.same])
  rw [laid.same] at narrow
  subst narrow
  have reach := laid.reach (Slot.start_op_iff.mpr ⟨n, Slot.op_narrow here, rfl⟩) short
  obtain ⟨m', marks', place, _⟩ := laid.target_placed (List.mem_of_getElem? here) (l := l)
    (by simp [Instruction.targets, Operand.targets])
  rw [place, ← marks_unique laid.acceptable.once marks marks', far] at reach
  cases reach

end Assembly
end ClassHooks
