import ClassHooks.Proofs.Instruction.Grammar
import ClassHooks.Instruction.Encoding

/-!
The bytes that are written for an instruction are one of its encodings, each target at its place and
the instruction in the form that the writer chose. So they are read as this instruction.
-/
namespace ClassHooks
namespace Instruction

def written (i : Instruction τ) (long : Bool) : Instruction τ :=
  ⟨match i.operand with
    | .constant index => if i.opcode = Opcode.ldc ∧ needsWide index then Opcode.ldcW else i.opcode
    | .branch _ => if long then (Opcode.longForm? i.opcode).getD i.opcode else i.opcode
    | _ => i.opcode,
   i.operand⟩

theorem written_map (f : τ → σ) (i : Instruction τ) (long : Bool) :
    (i.map f).written long = (i.written long).map f := by
  cases h : i.operand <;> simp [written, map, Operand.map, h]

def distances (place : Label → Nat) (position : Nat) (i : Instruction Label) : Instruction Int :=
  i.map fun l => (place l : Int) - position

def offsets (place : Label → Nat) (i : Instruction Label) : Instruction UInt16 :=
  i.map fun l => UInt16.ofNat (place l)

section Whole
variable {size p : Nat}

theorem narrow_index {index : UInt16} (narrow : needsWide index = false) :
    index.toUInt8.toUInt16 = index := by
  have low : index.toNat ≤ 255 := by
    simpa [needsWide, UInt16.lt_iff_toNat_lt] using narrow
  apply UInt16.toNat_inj.mp
  simp only [UInt8.toNat_toUInt16, UInt16.toNat_toUInt8]
  omega

theorem narrow_delta {delta : Int16} (narrow : fitsByte delta = true) :
    delta.toInt8.toInt16 = delta := by
  simp only [fitsByte, Bool.and_eq_true, decide_eq_true_eq] at narrow
  apply Int16.toInt_inj.mp
  rw [Int8.toInt_toInt16, Int16.toInt_toInt8]
  exact Int.bmod_eq_of_le (by omega) (by omega)

/-- What the writer is promised about an instruction that it places at `p` in a code array of
`size` bytes: its operand fits, its targets lie in the array, and a jump without the long form
reaches its target. -/
structure Placeable (place : Label → Nat) (size p : Nat) (long : Bool) (i : Instruction Label) :
    Prop where
  fits : i.Fits
  rising : i.operand.KeysRise
  inside : ∀ l ∈ i.targets, place l < size
  room : p + i.encodedSize p long ≤ size
  small : size ≤ 65535
  reach : ∀ l, i.operand = .branch l → long = false → i.opcode.isLongJump = false →
    fitsShort ((place l : Int) - p) = true
  form : long = true → ∃ l op, i.operand = .branch l ∧ i.opcode.longForm? = some op

variable {place : Label → Nat} {long : Bool}

theorem lands_of_place {size p place : Nat} (small : size ≤ 65535) (inside : place < size) {d : Int}
    (far : d = (place : Int) - p) : Lands size p d (UInt16.ofNat place) := by
  have exact16 : (UInt16.ofNat place).toNat = place :=
    UInt16.toNat_ofNat_of_lt' (by change place < 65536; omega)
  exact ⟨by omega, by omega⟩

theorem jump_of_place {size p place : Nat} (small : size ≤ 65535) (inside : place < size)
    (here : p < size) :
    Jump size p (UInt16.ofNat place) (distance32 ((place : Int) - p)) :=
  ⟨Int32.ofInt _, lands_of_place small inside (Int32.toInt_ofInt_of_le (by omega) (by omega)), rfl⟩

theorem encoding_far_jump {op : Opcode} {l : Label}
    (ready : Placeable place size p long ⟨op, .branch l⟩)
    (far : long = true ∨ op.isLongJump = true) :
    Encoding size p (offsets place (written ⟨op, .branch l⟩ long))
      ((distances place p ⟨op, .branch l⟩).bytes p long) := by
  obtain ⟨-, -, inside, room, small, -, form⟩ := ready
  have target : place l < size := inside l (by simp [targets, Operand.targets])
  have here : p < size := by
    simp only [encodedSize] at room
    split at room <;> omega
  have wide : ((Opcode.longForm? op).getD op).shape? = some .branch32 ∧
      (if long = true then (Opcode.longForm? op).getD op else op) =
        (Opcode.longForm? op).getD op := by
    rcases far with grown | already
    · obtain ⟨l', op', -, other⟩ := form grown
      simp only at other
      simp [other, grown, (Opcode.shape_of_longForm op op' other).2]
    · simp [Opcode.longForm_of_isLongJump op already, (Opcode.isLongJump_iff_shape op).mp already]
  have encoding := Encoding.branch32 wide.1 (jump_of_place small target here)
  simpa [distances, offsets, map, Operand.map, bytes, written, wide.2,
    show (long || op.isLongJump) = true by simpa using far] using encoding

theorem encoding_near_jump {op : Opcode} {l : Label}
    (ready : Placeable place size p long ⟨op, .branch l⟩) (stays : long = false)
    (near : op.isLongJump = false) :
    Encoding size p (offsets place (written ⟨op, .branch l⟩ long))
      ((distances place p ⟨op, .branch l⟩).bytes p long) := by
  obtain ⟨⟨shape, assigned, fits⟩, -, inside, -, small, reach, -⟩ := ready
  have target : place l < size := inside l (by simp [targets, Operand.targets])
  have bounds := reach l rfl stays near
  simp only [fitsShort, Bool.and_eq_true, decide_eq_true_eq] at bounds
  have exact16 : (Int16.ofInt ((place l : Int) - p)).toInt = (place l : Int) - p :=
    Int16.toInt_ofInt_of_le (by omega) (by omega)
  have short : op.shape? = some .branch16 := by
    cases shape <;> simp [Operand.fits] at fits
    · exact assigned
    · exact absurd ((Opcode.isLongJump_iff_shape op).mpr assigned) (by simp [near])
  have encoding := Encoding.branch16 short (lands_of_place small target exact16)
  simpa [distances, offsets, map, Operand.map, bytes, written, stays, near] using encoding

theorem encoding_slot {op : Opcode} (assigned : op.shape? = some .slot) (index : UInt16) :
    Encoding size p (offsets place (written ⟨op, .slot index⟩ long))
      ((distances place p ⟨op, .slot index⟩).bytes p long) := by
  cases wide : needsWide index with
  | true =>
    have encoding : Encoding size p ⟨op, .slot index⟩ (Opcode.wide :: op :: Bytes.u16 index) :=
      .wideSlot ((Opcode.takesWideSlot_iff_shape op).mpr assigned) index
    simpa [distances, offsets, map, Operand.map, bytes, written, wide] using encoding
  | false =>
    have encoding : Encoding size p _ _ := .slot assigned index.toUInt8
    rw [narrow_index wide] at encoding
    simpa [distances, offsets, map, Operand.map, bytes, written, wide] using encoding

theorem encoding_constant {op : Opcode} {index : UInt16}
    (fits : (⟨op, .constant index⟩ : Instruction Label).Fits) :
    Encoding size p (offsets place (written ⟨op, .constant index⟩ long))
      ((distances place p ⟨op, .constant index⟩).bytes p long) := by
  obtain ⟨shape, assigned, fits⟩ := fits
  by_cases short : op = Opcode.ldc
  · subst short
    cases wide : needsWide index with
    | true =>
      have encoding : Encoding size p ⟨Opcode.ldcW, .constant index⟩
          (Opcode.ldcW :: Bytes.u16 index) := .constant16 rfl index
      simpa [distances, offsets, map, Operand.map, bytes, written, wide] using encoding
    | false =>
      have encoding : Encoding size p ⟨Opcode.ldc, _⟩ _ := .constant8 rfl index.toUInt8
      rw [narrow_index wide] at encoding
      simpa [distances, offsets, map, Operand.map, bytes, written, wide] using encoding
  · have long16 : op.shape? = some .constant16 := by
      cases shape <;> simp [Operand.fits] at fits
      · exact absurd ((Opcode.eq_ldc_iff_shape op).mpr assigned) short
      · exact assigned
    have encoding : Encoding size p _ _ := .constant16 long16 index
    simpa [distances, offsets, map, Operand.map, bytes, written, short] using encoding

theorem encoding_increment {op : Opcode} (assigned : op.shape? = some .increment) (index : UInt16)
    (delta : Int16) :
    Encoding size p (offsets place (written ⟨op, .increment index delta⟩ long))
      ((distances place p ⟨op, .increment index delta⟩).bytes p long) := by
  obtain rfl := Opcode.eq_iinc_of_shape op assigned
  by_cases wide : needsWide index = true ∨ fitsByte delta = false
  · have encoding : Encoding size p _ _ := .wideIncrement index delta
    simpa [distances, offsets, map, Operand.map, bytes, written, wide] using encoding
  · simp only [not_or, Bool.not_eq_true, Bool.not_eq_false] at wide
    have encoding : Encoding size p _ _ := .increment assigned index.toUInt8 delta.toInt8
    rw [narrow_index wide.1, narrow_delta wide.2] at encoding
    simpa [distances, offsets, map, Operand.map, bytes, written, wide, Bytes.i8] using encoding

theorem encoding_tableSwitch {op : Opcode} {d : Label} {low high : Int32} {ts : List Label}
    (ready : Placeable place size p long ⟨op, .tableSwitch d low high ts⟩) :
    Encoding size p (offsets place (written ⟨op, .tableSwitch d low high ts⟩ long))
      ((distances place p ⟨op, .tableSwitch d low high ts⟩).bytes p long) := by
  obtain ⟨⟨shape, assigned, fits⟩, -, inside, room, small, -, -⟩ := ready
  cases shape <;> simp [Operand.fits] at fits
  simp only [encodedSize] at room
  simp only [targets, Operand.targets, List.mem_cons, forall_eq_or_imp] at inside
  have each : List.Forall₂ (Jump size p) (ts.map fun l => UInt16.ofNat (place l))
      (ts.map fun l => distance32 ((place l : Int) - p)) := by
    rw [List.forall₂_map_left_iff, List.forall₂_map_right_iff]
    exact List.forall₂_same.mpr fun l here => jump_of_place small (inside.2 l here) (by omega)
  have padding : Padding p (List.replicate (switchPadding p) 0) :=
    padding_iff.mpr (by simp [switchPadding])
  have encoding := Encoding.tableSwitch assigned padding
    (jump_of_place small inside.1 (by omega)) fits.1 (by simp [fits.2]) each
  simpa [distances, offsets, map, Operand.map, bytes, written, List.flatMap_def, Function.comp_def]
    using encoding

theorem encoding_lookupSwitch {op : Opcode} {d : Label} {pairs : List (Int32 × Label)}
    (ready : Placeable place size p long ⟨op, .lookupSwitch d pairs⟩) :
    Encoding size p (offsets place (written ⟨op, .lookupSwitch d pairs⟩ long))
      ((distances place p ⟨op, .lookupSwitch d pairs⟩).bytes p long) := by
  obtain ⟨⟨shape, assigned, fits⟩, rising, inside, room, small, -, -⟩ := ready
  cases shape <;> simp [Operand.fits] at fits
  simp only [encodedSize] at room
  simp only [targets, Operand.targets, List.mem_cons, forall_eq_or_imp] at inside
  have count : (Int32.ofNat pairs.length).toInt = pairs.length :=
    Int32.toInt_ofNat_of_lt (by omega)
  have countBytes : Bytes.ofNat 4 pairs.length = Bytes.i32 (Int32.ofNat pairs.length) := by
    have low : (Int32.ofNat pairs.length).toUInt32.toNat = pairs.length :=
      UInt32.toNat_ofNat_of_lt' (by change pairs.length < 4294967296; omega)
    rw [Bytes.i32, Bytes.u32, low]
  have each : List.Forall₂ (Case size p) (pairs.map fun q => (q.1, UInt16.ofNat (place q.2)))
      (pairs.map fun q => Bytes.i32 q.1 ++ distance32 ((place q.2 : Int) - p)) := by
    rw [List.forall₂_map_left_iff, List.forall₂_map_right_iff]
    refine List.forall₂_same.mpr fun q here => ⟨_, jump_of_place small ?_ (by omega), rfl⟩
    exact inside.2 q.2 (List.mem_map_of_mem here)
  have padding : Padding p (List.replicate (switchPadding p) 0) :=
    padding_iff.mpr (by simp [switchPadding])
  have rises : ((pairs.map fun q => (q.1, UInt16.ofNat (place q.2))).map (·.1)).Pairwise
      (· < ·) := by
    rw [List.map_map]
    exact rising
  have encoding := Encoding.lookupSwitch assigned padding
    (jump_of_place small inside.1 (by omega)) (count.trans (by rw [List.length_map])) rises each
  simpa [distances, offsets, map, Operand.map, bytes, written, List.flatMap_def, Function.comp_def,
    countBytes] using encoding

theorem encoding_written {i : Instruction Label} (ready : Placeable place size p long i) :
    Encoding size p (offsets place (i.written long)) ((distances place p i).bytes p long) := by
  have fits := ready.fits
  obtain ⟨op, operand⟩ := i
  obtain ⟨shape, assigned, fits⟩ := fits
  cases operand with
  | branch l =>
    by_cases far : long = true ∨ op.isLongJump = true
    · exact encoding_far_jump ready far
    · simp only [not_or, Bool.not_eq_true] at far
      exact encoding_near_jump ready far.1 far.2
  | tableSwitch d low high ts => exact encoding_tableSwitch ready
  | lookupSwitch d pairs => exact encoding_lookupSwitch ready
  | constant index => exact encoding_constant ready.fits
  | nothing =>
    cases shape <;> simp [Operand.fits] at fits
    exact .nothing assigned
  | byte value =>
    cases shape <;> simp [Operand.fits] at fits
    exact .byte assigned value
  | short value =>
    cases shape <;> simp [Operand.fits] at fits
    exact .short assigned value
  | slot index =>
    cases shape <;> simp [Operand.fits] at fits
    exact encoding_slot assigned index
  | increment index delta =>
    cases shape <;> simp [Operand.fits] at fits
    exact encoding_increment assigned index delta
  | interfaceCall index count =>
    cases shape <;> simp [Operand.fits] at fits
    exact .interfaceCall assigned index count 0
  | dynamicCall index =>
    cases shape <;> simp [Operand.fits] at fits
    exact .dynamicCall assigned index 0
  | arrayType code =>
    cases shape <;> simp [Operand.fits] at fits
    exact .arrayType assigned code
  | multiArray index dimensions =>
    cases shape <;> simp [Operand.fits] at fits
    exact .multiArray assigned index dimensions

theorem reads_written {i : Instruction Label} (ready : Placeable place size p long i) :
    Reader.ReadsAt (Instruction.read size) p ((distances place p i).bytes p long)
      (offsets place (i.written long)) :=
  reads_encoding ready.small (encoding_written ready)

end Whole

theorem encodedSize_map (f : τ → σ) (i : Instruction τ) (p : Nat) (long : Bool) :
    (i.map f).encodedSize p long = i.encodedSize p long := by
  obtain ⟨op, operand⟩ := i
  cases operand <;> simp [encodedSize, map, Operand.map]

theorem encodedSize_pos (i : Instruction τ) (p : Nat) (long : Bool) :
    0 < i.encodedSize p long := by
  obtain ⟨op, operand⟩ := i
  cases operand <;> simp only [encodedSize] <;> (try split) <;> omega

/-- The writer fills exactly the room that the layout reserves. -/
theorem bytes_length (i : Instruction Int) (p : Nat) (long : Bool) :
    (i.bytes p long).length = i.encodedSize p long := by
  obtain ⟨op, operand⟩ := i
  cases operand with
  | slot index => simp only [bytes, encodedSize]; split <;> simp
  | constant index =>
    simp only [bytes, encodedSize]
    by_cases short : op = Opcode.ldc
    · cases wide : needsWide index <;> simp [short]
    · simp [short]
  | increment index delta => simp only [bytes, encodedSize]; split <;> simp
  | branch d => simp only [bytes, encodedSize]; split <;> simp [distance32]
  | tableSwitch d low high ts =>
    simp [bytes, encodedSize, distance32, List.length_flatMap, Nat.mul_comm]
    omega
  | lookupSwitch d pairs =>
    simp [bytes, encodedSize, distance32, List.length_flatMap, Nat.mul_comm]
    omega
  | _ => simp [bytes, encodedSize]

end Instruction
end ClassHooks
