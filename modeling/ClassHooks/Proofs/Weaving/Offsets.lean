import ClassHooks.Proofs.Weaving.Control
import ClassHooks.Proofs.Body.Moving

/-!
Where the instructions of a method are in the code that a woven body is encoded to.
-/
namespace ClassHooks

theorem Instruction.eq_of_return {i j : Instruction UInt16} {f : UInt16 → UInt16}
    (ends : i.isReturn = true) (fits : i.Fits) (written : (i.map f).WrittenAs j) : j = i := by
  obtain ⟨shape, assigned, fits⟩ := fits
  have plain := Opcode.shape_of_isReturn i.opcode ends
  rw [assigned, Option.some.injEq] at plain
  subst plain
  obtain ⟨op, operand⟩ := i
  cases operand with
  | nothing =>
    generalize source : Instruction.map f ⟨op, .nothing⟩ = i at written
    cases written with
    | same => exact source.symm
    | longJump form =>
      subst source
      have jump := (Opcode.shape_of_longForm _ _ form).1
      change Opcode.shape? op = some .branch16 at jump
      change Opcode.shape? op = some .nothing at assigned
      rw [jump] at assigned
      cases assigned
    | wideConstant => cases source
  | _ => cases fits

namespace Weaving
open Item Instruction

structure Recoded (pool : Pool) (t : Labelling) (c : CodeAttribute)
    (decoded : List (UInt16 × Instruction UInt16)) (b : Body) (w : Interleaving) (woven : Body)
    (e : Encoded) (new : List (UInt16 × Instruction UInt16)) : Prop where
  labelled : Body.Labelled pool t c decoded b
  listing : Listing c.code.length 0 decoded
  small : c.code.length ≤ 65535
  filled : decoded ≠ []
  shape : Woven b w woven
  straight : w.Straight
  fits : ∀ i ∈ w.instructions, i.Fits
  renders : e.Renders woven.items new
  listing' : Listing e.code.length 0 new
  small' : e.code.length ≤ 65535

def unplaced (i : Instruction Label) : Instruction UInt16 := i.map fun _ => 0

/-- The offset at which the code for the instruction at an offset begins in the woven code; from
the end of the code, the offset of the error hook. -/
def moved (w : Interleaving) (decoded new : List (UInt16 × Instruction UInt16)) (length : Nat)
    (o : UInt16) : UInt16 :=
  UInt16.ofNat (placeIn new length (w.begin (numberAt decoded o)))

theorem hook_targets {w : Interleaving} (straight : w.Straight)
    (fits : ∀ i ∈ w.instructions, i.Fits) {i : Instruction Label} (member : i ∈ w.instructions)
    (hook : i ∈ w.enter ∨ i ∈ w.exit ∨ i ∈ w.error) : i.targets = [] := by
  refine targets_of_straight ?_ (fits i member)
  rcases hook with enter | exit | error
  · exact straight.enter i enter
  · exact straight.exit i exit
  · exact straight.error i error

section Decoding
variable {b woven : Body} {w : Interleaving}

theorem decodable_of_woven (sound : b.Sound) (rising : ∀ i ∈ b.instructions, i.operand.KeysRise)
    (shape : Woven b w woven) (straight : w.Straight) (fits : ∀ i ∈ w.instructions, i.Fits) :
    Item.Decodable woven.items := by
  have code : code woven.items = w.instructions := shape.code
  constructor
  · intro i member
    rw [code] at member
    rcases w.mem_instructions member with hook | original | rfl
    · exact Operand.keysRise_of_targets (hook_targets straight fits member hook)
    · exact rising i (shape.original ▸ original)
    · trivial
  · intro i member l target n marks
    rw [code] at member ⊢
    rcases w.mem_instructions member with hook | original | rfl
    · rw [hook_targets straight fits member hook] at target
      cases target
    · obtain ⟨m, inside, marks'⟩ := sound.targets i (shape.original ▸ original) l target
      rw [marks_unique shape.once marks (shape.marks l m marks'), w.instructions_length]
      have inside' : m < w.original.length := by
        rw [shape.original]
        exact inside
      have := w.begin_lt_begin inside' inside'
      have : w.begin w.original.length = w.finish := rfl
      have := w.finish_le_rethrow
      omega
    · cases target

end Decoding

namespace Recoded
variable {pool : Pool} {t : Labelling} {c : CodeAttribute}
  {decoded new : List (UInt16 × Instruction UInt16)} {b woven : Body} {w : Interleaving}
  {e : Encoded} (r : Recoded pool t c decoded b w woven e new)
include r

theorem original_length : w.original.length = decoded.length := by
  rw [r.shape.original, Body.instructions_labelled r.labelled, List.length_map]

theorem new_length : new.length = w.rethrow + 1 := by
  have length := r.renders.instructions.length_eq
  rw [← length, ← w.instructions_length]
  exact congrArg List.length r.shape.code

theorem begin_lt_new {n : Nat} (bound : n ≤ decoded.length) : w.begin n < new.length := by
  have order : w.begin n ≤ w.begin w.original.length := w.begin_mono (r.original_length ▸ bound)
  have := w.finish_le_rethrow
  have : w.begin w.original.length = w.finish := rfl
  rw [r.new_length]
  omega

theorem moved_toNat {n : Nat} {o : UInt16} (bound : n ≤ decoded.length)
    (place : o.toNat = placeIn decoded c.code.length n) :
    (moved w decoded new e.code.length o).toNat = placeIn new e.code.length (w.begin n) :=
  carry_toNat r.listing r.small r.listing' r.small' bound place

theorem offset_named {o : UInt16} (named : t.Names o) :
    e.offset (t.labelFor o) = .ok (moved w decoded new e.code.length o) := by
  obtain ⟨n, bound, place, marks⟩ := Body.marks_named r.labelled r.listing r.small named
  rw [r.renders.offset_of_marks (r.shape.marks _ _ marks), moved,
    numberAt_placeIn r.listing r.small bound place]

theorem offset_inside {o : UInt16} (named : t.NamesInside o) :
    e.offset (t.labelFor o) = .ok (moved w decoded new e.code.length o) :=
  r.offset_named ⟨.inl named.1, named.2⟩

/-- What is moved keeps its order, the end of the code included. -/
theorem moved_rising {o o' : UInt16} (known : Bounds decoded c.code.length o)
    (known' : Bounds decoded c.code.length o') (order : o < o') :
    moved w decoded new e.code.length o < moved w decoded new e.code.length o' := by
  refine carry_rising r.listing r.small r.listing' r.small' (fun n m before bound => ?_)
    (fun n inside => r.begin_lt_new (Nat.le_of_lt inside)) known known' order
  refine w.begin_lt_begin before ?_
  rw [r.original_length]
  omega

theorem moves : t.Moves e (moved w decoded new e.code.length) := by
  exact ⟨fun o named => r.offset_named named, fun o o' named named' => r.moved_rising
    (Body.bounds_of_names r.labelled named) (Body.bounds_of_names r.labelled named')⟩

theorem mapTargets_hook {i : Instruction Label} (member : i ∈ w.instructions)
    (hook : i ∈ w.enter ∨ i ∈ w.exit ∨ i ∈ w.error) :
    i.mapTargets e.offset = .ok (unplaced i) := by
  refine mapTargets_ok fun l target => ?_
  rw [hook_targets r.straight r.fits member hook] at target
  cases target

theorem fst_moved {n : Nat} {d x : UInt16 × Instruction UInt16} (here : decoded[n]? = some d)
    {before after : List (UInt16 × Instruction UInt16)} (length : before.length = w.begin n)
    (parts : new = before ++ x :: after) : x.1 = moved w decoded new e.code.length d.1 := by
  have bound : n ≤ decoded.length := Nat.le_of_lt (List.getElem?_eq_some_iff.mp here).1
  have there : new[w.begin n]? = some x := by
    rw [parts, ← length]
    simp
  rw [← UInt16.toNat_inj, r.moved_toNat bound (placeIn_eq_of_getElem here _).symm,
    placeIn_eq_of_getElem there]

theorem unit_written {n : Nat} {d : UInt16 × Instruction UInt16} (here : decoded[n]? = some d) :
    ∃ before unit after, new = before ++ (unit ++ after) ∧ before.length = w.begin n ∧
      List.Forall₂ (fun i x => ∃ j, i.mapTargets e.offset = .ok j ∧ Instruction.WrittenAs j x.2)
        (w.unit (d.2.map t.labelFor)) unit := by
  have inside : n < w.original.length := by
    rw [r.original_length]
    exact (List.getElem?_eq_some_iff.mp here).1
  have same : w.original[n] = d.2.map t.labelFor := by
    have there : w.original[n]? = some (d.2.map t.labelFor) := by
      rw [r.shape.original, Body.instructions_labelled r.labelled, List.getElem?_map, here]
      rfl
    exact (List.getElem?_eq_some_iff.mp there).2
  obtain ⟨front, back, length, whole⟩ := w.instructions_split inside
  have related := r.renders.instructions
  rw [show code woven.items = w.instructions from r.shape.code, whole, same] at related
  obtain ⟨us, rest, rfl, first, later⟩ := related_append_inv related
  obtain ⟨vs, zs, rfl, unit, _⟩ := related_append_inv later
  exact ⟨us, vs, zs, rfl, first.length_eq.symm.trans length, unit⟩

theorem unit_subset {d : UInt16 × Instruction UInt16} (member : d ∈ decoded) :
    ∀ i ∈ w.unit (d.2.map t.labelFor), i ∈ w.instructions := by
  intro i inside
  have original : d.2.map t.labelFor ∈ w.original := by
    rw [r.shape.original, Body.instructions_labelled r.labelled]
    exact List.mem_map.mpr ⟨d, member, rfl⟩
  simp only [Interleaving.instructions, Interleaving.main, List.mem_append, List.mem_flatMap]
  exact .inr (.inl ⟨_, original, inside⟩)

theorem moved_plain {d : UInt16 × Instruction UInt16} (member : d ∈ decoded)
    (goesOn : d.2.isReturn = false) : ∃ j, (moved w decoded new e.code.length d.1, j) ∈ new ∧
      (d.2.map (moved w decoded new e.code.length)).LengthensTo j := by
  obtain ⟨n, here⟩ := List.mem_iff_getElem?.mp member
  obtain ⟨before, unit, after, parts, length, related⟩ := r.unit_written here
  have alone : w.unit (d.2.map t.labelFor) = [d.2.map t.labelFor] :=
    if_neg (ne_true_of_eq_false goesOn)
  rw [alone] at related
  cases related with
  | @cons _ x _ _ written rest =>
    cases rest
    obtain ⟨j, mapped, written⟩ := written
    rw [r.moves.mapTargets_instruction (r.labelled.targets d member)] at mapped
    cases mapped
    have place := r.fst_moved here length parts
    refine ⟨x.2, ?_, lengthensTo_of_written (decent_of_listing r.listing member).narrow written⟩
    rw [← place, parts]
    simp

theorem moved_return {d : UInt16 × Instruction UInt16} (member : d ∈ decoded)
    (ends : d.2.isReturn = true) : ∃ before hook last after,
      new = before ++ (hook ++ last :: after) ∧
      (hook ++ [last]).head?.map Prod.fst = some (moved w decoded new e.code.length d.1) ∧
      List.Forall₂ (fun i x => (unplaced i).WrittenAs x.2) w.exit hook ∧ last.2 = d.2 := by
  obtain ⟨n, here⟩ := List.mem_iff_getElem?.mp member
  obtain ⟨before, unit, after, parts, length, related⟩ := r.unit_written here
  have subset := r.unit_subset member
  have both : w.unit (d.2.map t.labelFor) = w.exit ++ [d.2.map t.labelFor] := if_pos ends
  rw [both] at related subset
  obtain ⟨hook, rest, rfl, hooks, final⟩ := related_append_inv related
  cases final with
  | @cons _ last _ _ written none =>
    cases none
    obtain ⟨j, mapped, written⟩ := written
    rw [r.moves.mapTargets_instruction (r.labelled.targets d member)] at mapped
    cases mapped
    refine ⟨before, hook, last, after, by simpa using parts, ?_, ?_, ?_⟩
    · cases hook with
      | nil =>
        have parts' : new = before ++ last :: after := by simpa using parts
        simp [r.fst_moved here length parts']
      | cons x hook =>
        have parts' : new = before ++ x :: (hook ++ last :: after) := by simpa using parts
        simp [r.fst_moved here length parts']
    · have each : ∀ i ∈ w.exit, i ∈ w.exit := fun _ inside => inside
      refine ((List.forall₂_and_left _ _).mpr ⟨each, hooks⟩).imp ?_
      rintro i x ⟨inside, j, mapped, written⟩
      rw [r.mapTargets_hook (subset i (by simp [inside])) (.inr (.inl inside))] at mapped
      cases mapped
      exact written
    · exact eq_of_return ends (decent_of_listing r.listing member).fits written

end Recoded
end Weaving
end ClassHooks
