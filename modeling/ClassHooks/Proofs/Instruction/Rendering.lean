import ClassHooks.Proofs.Instruction.Listing
import ClassHooks.Proofs.Instruction.Widening

/-!
Decoding undoes encoding. The code array that an assembly makes decodes to its instructions in
order; their targets, and all labels, are at the offsets where the instructions behind the labels
were put.
-/
namespace ClassHooks

/-- What may stand in a code array for an instruction: the instruction itself, the long form of a
jump, or the load of a constant whose index has two bytes. -/
inductive Instruction.WrittenAs : Instruction τ → Instruction τ → Prop where
  | same (i : Instruction τ)
      (narrow : ∀ index, i = ⟨Opcode.ldc, .constant index⟩ → index ≤ 255) : WrittenAs i i
  | longJump {i : Instruction τ} {op : Opcode} (form : i.opcode.longForm? = some op) :
      WrittenAs i ⟨op, i.operand⟩
  | wideConstant {index : UInt16} (wide : 255 < index) :
      WrittenAs ⟨Opcode.ldc, .constant index⟩ ⟨Opcode.ldcW, .constant index⟩

theorem Instruction.writtenAs_written {i : Instruction τ} {long : Bool}
    (form : long = true → ∃ t op, i.operand = .branch t ∧ i.opcode.longForm? = some op) :
    i.WrittenAs (i.written long) := by
  obtain ⟨opcode, operand⟩ := i
  cases operand with
  | constant index =>
    by_cases wide : opcode = Opcode.ldc ∧ needsWide index = true
    · obtain ⟨rfl, wide⟩ := wide
      simp only [written, wide, and_self, if_true]
      exact .wideConstant (by simpa [needsWide] using wide)
    · simp only [written, wide, if_false]
      refine .same _ fun index' same => ?_
      cases same
      simpa [needsWide] using wide
  | branch t =>
    cases long with
    | false => exact .same _ fun index same => by cases same
    | true =>
      obtain ⟨_, op, _, form⟩ := form rfl
      simp only [written, form, if_true, Option.getD_some]
      exact .longJump form
  | _ => exact .same _ fun index same => by cases same

namespace Instruction.WrittenAs
variable {i j : Instruction τ} (written : i.WrittenAs j)
include written

theorem targets : j.targets = i.targets := by
  cases written <;> rfl

theorem isReturn : j.isReturn = i.isReturn := by
  cases written with
  | same => rfl
  | longJump form =>
    obtain ⟨short, long⟩ := Opcode.shape_of_longForm _ _ form
    have none : ∀ {op : Opcode}, Opcode.shape? op ≠ some .nothing → Opcode.isReturn op = false :=
      fun shape => Bool.eq_false_of_not_eq_true fun ends => shape (Opcode.shape_of_isReturn _ ends)
    exact (none (by rw [long]; decide)).trans (none (by rw [short]; decide)).symm
  | wideConstant => rfl

end Instruction.WrittenAs

inductive Instruction.LengthensTo (i : Instruction τ) : Instruction τ → Prop where
  | same : LengthensTo i i
  | longJump {op : Opcode} (form : i.opcode.longForm? = some op) : LengthensTo i ⟨op, i.operand⟩

namespace Instruction.LengthensTo
variable {i j : Instruction τ}

theorem targets (lengthens : i.LengthensTo j) : j.targets = i.targets := by
  cases lengthens <;> rfl

theorem map (f : τ → σ) (lengthens : i.LengthensTo j) : (i.map f).LengthensTo (j.map f) := by
  cases lengthens with
  | same => exact .same
  | longJump form => exact .longJump form

end Instruction.LengthensTo

theorem Instruction.lengthensTo_of_written {i j : Instruction UInt16} {f : UInt16 → UInt16}
    (narrow : ∀ index, i = ⟨Opcode.ldc, .constant index⟩ → index ≤ 255)
    (written : (i.map f).WrittenAs j) : (i.map f).LengthensTo j := by
  obtain ⟨op, operand⟩ := i
  generalize source : Instruction.map f ⟨op, operand⟩ = i' at written
  cases written with
  | same => exact .same
  | longJump form => exact .longJump form
  | @wideConstant index wide =>
    cases operand with
    | constant =>
      cases source
      exact absurd (narrow index rfl) (UInt16.not_le.mpr wide)
    | _ => cases source

/-- The keys of every switch rise, and behind every label that is a target stands an
instruction. -/
structure Item.Decodable (items : List Item) : Prop where
  rising : ∀ i ∈ code items, i.operand.KeysRise
  followed : ∀ i ∈ code items, ∀ l ∈ i.targets, ∀ n, Marks items l n → n < (code items).length

/-- The code array decodes to the instructions of the items, and each label has the offset of the
instruction behind it. -/
structure Encoded.Renders (e : Encoded) (items : List Item)
    (decoded : List (UInt16 × Instruction UInt16)) : Prop where
  decodes : Instruction.decode e.code = .ok decoded
  places : ∀ l n, Item.Marks items l n →
    e.labels[l]? = some (Instruction.placeIn decoded e.code.length n)
  unplaced : ∀ l, l ∉ Item.labels items → e.labels[l]? = none
  instructions : List.Forall₂ (fun i d => ∃ j, i.mapTargets e.offset = .ok j ∧ j.WrittenAs d.2)
    (Item.code items) decoded

namespace Encoded.Renders
variable {e : Encoded} {items : List Item} {decoded : List (UInt16 × Instruction UInt16)}
  (renders : e.Renders items decoded)
include renders

theorem offset_of_marks {l : Label} {n : Nat} (marks : Item.Marks items l n) :
    e.offset l = .ok (UInt16.ofNat (Instruction.placeIn decoded e.code.length n)) := by
  rw [Encoded.offset, renders.places l n marks]

theorem toNat_placeIn (n : Nat) :
    (UInt16.ofNat (Instruction.placeIn decoded e.code.length n)).toNat =
      Instruction.placeIn decoded e.code.length n := by
  obtain ⟨small, listing, _⟩ := Instruction.listing_of_decode renders.decodes
  have bound := Instruction.placeIn_le_finish listing small n
  exact UInt16.toNat_ofNat_of_lt' (by change _ < 65536; omega)

theorem marks_of_offset {l : Label} {o : UInt16} (placed : e.offset l = .ok o) :
    ∃ n, Item.Marks items l n ∧ o.toNat = Instruction.placeIn decoded e.code.length n := by
  have member : l ∈ Item.labels items := by
    by_contra unmarked
    rw [Encoded.offset, renders.unplaced l unmarked] at placed
    cases placed
  obtain ⟨n, marks⟩ := Item.marked_iff_mem.mpr member
  rw [renders.offset_of_marks marks] at placed
  cases placed
  exact ⟨n, marks, renders.toNat_placeIn n⟩

end Encoded.Renders

structure Encoded.Laid (e : Encoded) (items : List Item) (slots : List Slot) (layout : Layout) :
    Prop where
  acceptable : Assembly.Acceptable items
  same : Slot.items slots = items
  settled : Layout.Settled slots layout
  coded : layout.code = .ok e.code
  labelled : e.labels = layout.labels

theorem laid_of_encode {items : List Item} {e : Encoded} (run : Assembly.encode items = .ok e) :
    ∃ slots layout, e.Laid items slots layout := by
  obtain ⟨a, taken, finished⟩ := bind_ok_iff.mp run
  obtain ⟨listed, acceptable⟩ := Assembly.accepted taken
  obtain ⟨layout, settle, finished⟩ := bind_ok_iff.mp finished
  obtain ⟨code, coded, made⟩ := bind_ok_iff.mp finished
  cases made
  rw [listed] at settle
  obtain ⟨slots, same, settled⟩ := Layout.settle_settled settle (Slot.grown_narrow items)
  exact ⟨slots, layout, acceptable, same.trans (Slot.items_narrow items), settled, coded, rfl⟩

namespace Encoded.Laid
variable {e : Encoded} {items : List Item} {slots : List Slot} {layout : Layout}

theorem code_eq (laid : e.Laid items slots layout) :
    e.code = (Slot.starts 0 slots).flatMap (Layout.textOf layout.placeOf) := by
  rw [← Layout.placed_of_made laid.settled.made]
  exact (Layout.code_ok laid.coded).1

theorem code_length (laid : e.Laid items slots layout) :
    e.code.length = Slot.finish 0 slots := by
  have length := Layout.text_length layout.placeOf 0 slots
  rw [Nat.zero_add, ← laid.code_eq] at length
  exact length

theorem code_small (laid : e.Laid items slots layout) : e.code.length ≤ 65535 := by
  rw [laid.code_length]
  exact (Layout.ofSlots_ok_iff.mp laid.settled.made).1

theorem label_iff (laid : e.Laid items slots layout) {l : Label} {q : Nat} :
    e.labels[l]? = some q ↔ ∃ n, Item.Marks items l n ∧ q = Slot.placeAfter 0 slots n := by
  have once := laid.acceptable.once
  rw [laid.labelled, ← laid.same]
  rw [← laid.same] at once
  exact Layout.labels_iff laid.settled.made once

theorem target_placed (laid : e.Laid items slots layout) {i : Instruction Label}
    (member : i ∈ Item.code items) {l : Label} (target : l ∈ i.targets) :
    ∃ n, Item.Marks items l n ∧ layout.placeOf l = Slot.placeAfter 0 slots n ∧
      e.offset l = .ok (UInt16.ofNat (layout.placeOf l)) := by
  rw [← laid.same, Item.mem_code_iff] at member
  obtain ⟨s, inside, item⟩ := List.mem_map.mp member
  rw [← Slot.starts_slots 0 slots, ← Layout.placed_of_made laid.settled.made] at inside
  obtain ⟨p, there, rfl⟩ := List.mem_map.mp inside
  obtain ⟨q, found⟩ := (Layout.code_ok laid.coded).2 p there i item l target
  have lies : layout.placeOf l = q := by simp [Layout.placeOf, found]
  rw [← laid.labelled] at found
  obtain ⟨n, marks, rfl⟩ := laid.label_iff.mp found
  exact ⟨n, marks, lies, by rw [Encoded.offset, found, lies]⟩

theorem reach (laid : e.Laid items slots layout) {q : Nat} {op : Opcode} {l : Label}
    (there : (q, ⟨.op ⟨op, .branch l⟩, false⟩) ∈ Slot.starts 0 slots)
    (short : op.isLongJump = false) : fitsShort ((layout.placeOf l : Int) - q) = true := by
  obtain ⟨d, distance, fits⟩ := Layout.reach_of_settled laid.settled there short
  have lies : d = (layout.placeOf l : Int) - q := by
    unfold Layout.distance at distance
    split at distance
    · rename_i place found
      cases distance
      simp [Layout.placeOf, found]
    · cases distance
  exact lies ▸ fits

theorem placeable (laid : e.Laid items slots layout) (ready : Item.Decodable items) {q : Nat}
    {i : Instruction Label} {long : Bool} (there : (q, ⟨.op i, long⟩) ∈ Slot.starts 0 slots) :
    Instruction.Placeable layout.placeOf e.code.length q long i := by
  obtain ⟨slot, room⟩ := Slot.start_of_op there
  have member : i ∈ Item.code items := by
    rw [← laid.same, Item.mem_code_iff]
    exact List.mem_map.mpr ⟨_, slot, rfl⟩
  refine ⟨laid.acceptable.fits i member, ready.rising i member, ?_, ?_, laid.code_small, ?_, ?_⟩
  · intro l target
    obtain ⟨n, marks, lies, _⟩ := laid.target_placed member target
    have inside := ready.followed i member l target n marks
    rw [lies, laid.code_length]
    exact Slot.placeAfter_lt_finish 0 slots (by rw [laid.same]; exact inside)
  · rw [laid.code_length]
    exact room
  · intro l branch stays short
    obtain ⟨op, operand⟩ := i
    subst branch
    subst stays
    exact laid.reach there short
  · intro grown
    obtain ⟨i', l, op, item, branch, form⟩ := laid.settled.grown _ slot grown
    cases item
    exact ⟨l, op, branch, form⟩

def decoded (layout : Layout) (slots : List Slot) : List (UInt16 × Instruction UInt16) :=
  (Slot.starts 0 slots).filterMap (Layout.decodedOf layout.placeOf)

theorem decode_ok (laid : e.Laid items slots layout) (ready : Item.Decodable items) :
    Instruction.decode e.code = .ok (decoded layout slots) := by
  obtain ⟨parts, encodings, text⟩ := Instruction.encodings_text slots 0
    fun q i long there => laid.placeable ready there
  exact (Instruction.decode_ok_iff laid.code_small).mpr
    ⟨parts, encodings, text.trans laid.code_eq.symm⟩

end Encoded.Laid

namespace Layout

theorem decoded_related (place : Label → Nat) (p : Nat) (slots : List Slot) :
    List.Forall₂ (fun i d => ∃ long, ⟨.op i, long⟩ ∈ slots ∧
        d.2 = (i.written long).offsets place)
      (Item.code (Slot.items slots)) ((Slot.starts p slots).filterMap (decodedOf place)) := by
  induction slots generalizing p with
  | nil => exact .nil
  | cons s rest ih =>
    obtain ⟨item, long⟩ := s
    have later := ih (p + (Slot.mk item long).size p)
    have kept : List.Forall₂ (fun i (d : UInt16 × Instruction UInt16) =>
        ∃ long', ⟨.op i, long'⟩ ∈ Slot.mk item long :: rest ∧
          d.2 = (i.written long').offsets place) _ _ :=
      later.imp fun _ _ ⟨long', member, same⟩ => ⟨long', List.mem_cons_of_mem _ member, same⟩
    cases item with
    | mark l => exact kept
    | op i => exact .cons ⟨long, by simp, rfl⟩ kept

theorem decoded_place (place : Label → Nat) (p : Nat) (slots : List Slot)
    (small : Slot.finish p slots ≤ 65535) (n : Nat) :
    Instruction.placeIn ((Slot.starts p slots).filterMap (decodedOf place))
      (Slot.finish p slots) n = Slot.placeAfter p slots n := by
  induction slots generalizing p n with
  | nil => rfl
  | cons s rest ih =>
    obtain ⟨item, long⟩ := s
    cases item with
    | mark l => exact ih p small n
    | op i =>
      cases n with
      | zero =>
        have below := Slot.le_finish p (⟨.op i, long⟩ :: rest)
        change (UInt16.ofNat p).toNat = p
        exact UInt16.toNat_ofNat_of_lt' (by change p < 65536; omega)
      | succ n => exact ih _ small n

end Layout

namespace Encoded.Laid
variable {e : Encoded} {items : List Item} {slots : List Slot} {layout : Layout}

theorem renders (laid : e.Laid items slots layout) (ready : Item.Decodable items) :
    e.Renders items (decoded layout slots) := by
  have small : Slot.finish 0 slots ≤ 65535 := laid.code_length ▸ laid.code_small
  refine ⟨laid.decode_ok ready, ?_, ?_, ?_⟩
  · intro l n marks
    rw [laid.code_length, decoded, Layout.decoded_place _ 0 slots small]
    exact laid.label_iff.mpr ⟨n, marks, rfl⟩
  · intro l unmarked
    cases found : e.labels[l]? with
    | none => rfl
    | some q =>
      obtain ⟨n, marks, _⟩ := laid.label_iff.mp found
      exact absurd (Item.mem_labels_of_marks marks) unmarked
  · have related := Layout.decoded_related layout.placeOf 0 slots
    rw [laid.same] at related
    have each : ∀ i ∈ Item.code items, i.mapTargets e.offset = .ok (i.offsets layout.placeOf) := by
      intro i member
      refine Instruction.mapTargets_ok fun l target => ?_
      obtain ⟨_, _, _, placed⟩ := laid.target_placed member target
      exact placed
    refine ((List.forall₂_and_left _ _).mpr ⟨each, related⟩).imp ?_
    rintro i d ⟨mapped, long, slot, same⟩
    refine ⟨_, mapped, ?_⟩
    rw [same, Instruction.offsets, Instruction.offsets, ← Instruction.written_map]
    refine Instruction.writtenAs_written fun grown => ?_
    obtain ⟨_, l, op, item, branch, form⟩ := laid.settled.grown _ slot grown
    cases item
    exact ⟨_, op, by rw [Instruction.map_operand, branch]; rfl, form⟩

end Encoded.Laid

/-- What an assembly makes of its items decodes to them. -/
theorem encode_renders {items : List Item} {e : Encoded} (run : Assembly.encode items = .ok e)
    (ready : Item.Decodable items) : ∃ decoded, e.Renders items decoded := by
  obtain ⟨slots, layout, laid⟩ := laid_of_encode run
  exact ⟨_, laid.renders ready⟩

def switchLoop : List Item :=
  [.mark ⟨0⟩, .op ⟨0xAB, .lookupSwitch ⟨1⟩ [(-1, ⟨0⟩), (7, ⟨1⟩)]⟩, .mark ⟨1⟩,
    .op ⟨Opcode.ldc, .constant 300⟩, .op ⟨Opcode.goto, .branch ⟨0⟩⟩, .mark ⟨2⟩]

theorem switchLoop_renders : ∃ e decoded, Assembly.encode switchLoop = .ok e ∧
    Item.Decodable switchLoop ∧ e.Renders switchLoop decoded := by
  have ready : Item.Decodable switchLoop := by
    constructor
    · simp [switchLoop, Operand.KeysRise]
    · simp [switchLoop, Instruction.targets, Operand.targets]
  have accepted : (Assembly.encode switchLoop).toOption.isSome = true := by decide +kernel
  obtain ⟨e, run⟩ := ok_of_isSome accepted
  obtain ⟨decoded, renders⟩ := encode_renders run ready
  exact ⟨e, decoded, run, ready, renders⟩

end ClassHooks
