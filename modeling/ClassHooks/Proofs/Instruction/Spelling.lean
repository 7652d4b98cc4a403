import ClassHooks.Proofs.Instruction.Listing
import ClassHooks.Proofs.Instruction.RoundTrip

/-!
How a code array spells its instructions. Its bytes are the ones that the writer would choose at the
same place, but for a prefix that the operands do not need and for bytes that are passed over.
-/
namespace ClassHooks
namespace Instruction

def isShort (i : Instruction τ) : Bool :=
  match i.operand with
  | .slot index => !needsWide index
  | .increment index delta => !(needsWide index || !fitsByte delta)
  | _ => false

def HasRedundantPrefix (i : Instruction τ) (bs : Bytes) : Prop :=
  bs.head? = some Opcode.wide ∧ i.isShort = true

/-- Where the bytes stand that may hold anything, counted from the opcode. -/
def passedOver (i : Instruction τ) (position : Nat) : List Nat :=
  match i.operand with
  | .tableSwitch _ _ _ _ | .lookupSwitch _ _ => List.range' 1 (switchPadding position)
  | .interfaceCall _ _ => [4]
  | .dynamicCall _ => [3, 4]
  | _ => []

/-- At this position the bytes spell the instruction without a choice: its prefix is needed, and what
is passed over is zero. -/
structure Canonical (i : Instruction τ) (position : Nat) (bs : Bytes) : Prop where
  needed : ¬ i.HasRedundantPrefix bs
  zero : ∀ k ∈ i.passedOver position, bs[k]? = some 0

instance (i : Instruction τ) (bs : Bytes) : Decidable (i.HasRedundantPrefix bs) :=
  inferInstanceAs (Decidable (_ ∧ _))

instance (i : Instruction τ) (position : Nat) (bs : Bytes) : Decidable (i.Canonical position bs) :=
  decidable_of_iff (¬ i.HasRedundantPrefix bs ∧ ∀ k ∈ i.passedOver position, bs[k]? = some 0)
    ⟨fun ⟨needed, zero⟩ => ⟨needed, zero⟩, fun canonical => ⟨canonical.needed, canonical.zero⟩⟩

def away (position : Nat) (i : Instruction UInt16) : Instruction Int :=
  i.map fun o => (o.toNat : Int) - position

structure Spelled (i : Instruction UInt16) (p : Nat) (bs : Bytes) : Prop where
  least : i.encodedSize p false ≤ bs.length
  exact : ∀ rest, ¬ i.HasRedundantPrefix (bs ++ rest) → bs.length = i.encodedSize p false
  bytes : ∀ rest, i.Canonical p (bs ++ rest) → bs = (i.away p).bytes p false
  reach : ∀ o, i.operand = .branch o → i.opcode.isLongJump = false →
    fitsShort ((o.toNat : Int) - p) = true

@[simp] theorem distance32_length (d : Int) : (distance32 d).length = 4 := Bytes.i32_length _

theorem spelled_of_bytes {i : Instruction UInt16} {p : Nat} {bs : Bytes}
    (reach : ∀ o, i.operand = .branch o → i.opcode.isLongJump = false →
      fitsShort ((o.toNat : Int) - p) = true)
    (same : bs = (i.away p).bytes p false) : i.Spelled p bs := by
  have length : bs.length = i.encodedSize p false := by
    rw [same, bytes_length, away, encodedSize_map]
  exact ⟨Nat.le_of_eq length.symm, fun _ _ => length, fun _ _ => same, reach⟩

theorem spelled_short {i : Instruction UInt16} {p : Nat} {bs : Bytes}
    (first : bs.head? = some Opcode.wide) (short : i.isShort = true)
    (less : i.encodedSize p false ≤ bs.length) : i.Spelled p bs := by
  have redundant : ∀ rest, i.HasRedundantPrefix (bs ++ rest) := fun rest =>
    ⟨by rw [List.head?_append, first]; rfl, short⟩
  refine ⟨less, fun rest needed => absurd (redundant rest) needed,
    fun rest canonical => absurd (redundant rest) canonical.needed, fun o branch _ => ?_⟩
  rw [isShort, branch] at short
  cases short

theorem needsWide_byte (b : UInt8) : needsWide b.toUInt16 = false := by
  have bound := b.toNat_lt
  simp only [needsWide, decide_eq_false_iff_not, UInt16.lt_iff_toNat_lt, UInt8.toNat_toUInt16]
  change ¬ 255 < b.toNat
  omega

theorem fitsByte_byte (d : Int8) : fitsByte d.toInt16 = true := by
  have low := d.le_toInt
  have high := d.toInt_lt
  simp only [fitsByte, Bool.and_eq_true, decide_eq_true_eq, Int8.toInt_toInt16]
  omega

theorem fitsShort_short (d : Int16) : fitsShort d.toInt = true := by
  have low := d.le_toInt
  have high := d.toInt_lt
  simp only [fitsShort, Bool.and_eq_true, decide_eq_true_eq]
  omega

theorem padding_eq {op : UInt8} {gap more rest : Bytes} {n : Nat} (length : gap.length = n)
    (zero : ∀ k ∈ List.range' 1 n, (op :: (gap ++ more) ++ rest)[k]? = some 0) :
    gap = List.replicate n 0 := by
  refine List.eq_replicate_iff.mpr ⟨length, fun b member => ?_⟩
  obtain ⟨k, inside, rfl⟩ := List.mem_iff_getElem.mp member
  have here := zero (k + 1) (List.mem_range'_1.mpr ⟨by omega, by omega⟩)
  rw [List.cons_append, List.getElem?_cons_succ, List.append_assoc,
    List.getElem?_append_left inside] at here
  exact (List.getElem?_eq_some_iff.mp here).2

section Encodings
variable {size p : Nat} {op : Opcode}

theorem jump_eq {o : UInt16} {bs : Bytes} (jump : Jump size p o bs) :
    bs = distance32 ((o.toNat : Int) - p) := by
  obtain ⟨d, lands, rfl⟩ := jump
  have far : (o.toNat : Int) - p = d.toInt := by
    have := lands.far
    omega
  rw [far, distance32, Int32.ofInt_toInt]

theorem spelled_branch16 (assigned : op.shape? = some .branch16) {d : Int16} {o : UInt16}
    (lands : Lands size p d.toInt o) : Spelled ⟨op, .branch o⟩ p (op :: Bytes.i16 d) := by
  have near : op.isLongJump = false := by
    rw [← Bool.not_eq_true, Opcode.isLongJump_iff_shape, assigned]
    simp
  have distance : (o.toNat : Int) - p = d.toInt := by
    have := lands.far
    omega
  refine spelled_of_bytes (fun o' branch _ => ?_) ?_
  · cases branch
    rw [distance]
    exact fitsShort_short d
  · simp [away, map, Operand.map, bytes, near, distance]

theorem spelled_branch32 (assigned : op.shape? = some .branch32) {o : UInt16} {bs : Bytes}
    (jump : Jump size p o bs) : Spelled ⟨op, .branch o⟩ p (op :: bs) := by
  have far := (Opcode.isLongJump_iff_shape op).mpr assigned
  refine spelled_of_bytes (fun _ _ near => ?_) ?_
  · rw [far] at near
    cases near
  · rw [jump_eq jump]
    simp [away, map, Operand.map, bytes, far, Opcode.longForm_of_isLongJump op far]

theorem spelled_tableSwitch {gap first : Bytes} (padding : Padding p gap) {d : UInt16}
    (jump : Jump size p d first) {low high : Int32} {ts : List UInt16} {parts : List Bytes}
    (each : List.Forall₂ (Jump size p) ts parts) :
    Spelled ⟨op, .tableSwitch d low high ts⟩ p
      (op :: (gap ++ (first ++ (Bytes.i32 low ++ (Bytes.i32 high ++ parts.flatten))))) := by
  have width := padding_iff.mp padding
  have length := flatten_length each fun _ _ => jump_length
  have whole : (op :: (gap ++ (first ++ (Bytes.i32 low ++ (Bytes.i32 high ++ parts.flatten))))).length
      = (⟨op, .tableSwitch d low high ts⟩ : Instruction UInt16).encodedSize p false := by
    simp only [List.length_cons, List.length_append, length, width, encodedSize, switchPadding,
      jump_length jump, Bytes.i32_length]
    omega
  refine ⟨Nat.le_of_eq whole.symm, fun _ _ => whole, fun rest canonical => ?_, by simp⟩
  rw [padding_eq width canonical.zero, jump_eq jump,
    eq_map_of_related (each.imp fun _ _ => jump_eq)]
  simp [away, map, Operand.map, bytes, switchPadding, List.flatMap_def, Function.comp_def]

theorem spelled_lookupSwitch {gap first : Bytes} (padding : Padding p gap) {d : UInt16}
    (jump : Jump size p d first) {n : Int32} {ps : List (Int32 × UInt16)} {parts : List Bytes}
    (count : n.toInt = ps.length) (each : List.Forall₂ (Case size p) ps parts) :
    Spelled ⟨op, .lookupSwitch d ps⟩ p
      (op :: (gap ++ (first ++ (Bytes.i32 n ++ parts.flatten)))) := by
  have width := padding_iff.mp padding
  have length := flatten_length each fun _ _ => case_length
  have counted : Bytes.ofNat 4 ps.length = Bytes.i32 n := by
    have positive : 0 ≤ n := by
      rw [Int32.le_iff_toInt_le, count]
      exact Int.natCast_nonneg _
    have number : n.toUInt32.toNat = ps.length := by
      have := Int32.toNat_toUInt32_of_le positive
      have : n.toNatClampNeg = n.toInt.toNat := rfl
      omega
    rw [Bytes.i32, Bytes.u32, number]
  have whole : (op :: (gap ++ (first ++ (Bytes.i32 n ++ parts.flatten)))).length =
      (⟨op, .lookupSwitch d ps⟩ : Instruction UInt16).encodedSize p false := by
    simp only [List.length_cons, List.length_append, length, width, encodedSize, switchPadding,
      jump_length jump, Bytes.i32_length]
    omega
  have same : parts = ps.map fun q => Bytes.i32 q.1 ++ distance32 ((q.2.toNat : Int) - p) := by
    refine eq_map_of_related (each.imp ?_)
    rintro q _ ⟨jump, holds, rfl⟩
    rw [jump_eq holds]
  refine ⟨Nat.le_of_eq whole.symm, fun _ _ => whole, fun rest canonical => ?_, by simp⟩
  rw [padding_eq width canonical.zero, jump_eq jump, same]
  simp [away, map, Operand.map, bytes, switchPadding, List.flatMap_def, Function.comp_def, counted]

theorem spelled_interfaceCall (index : UInt16) (count b : UInt8) :
    Spelled ⟨op, .interfaceCall index count⟩ p (op :: (Bytes.u16 index ++ [count, b])) := by
  refine ⟨Nat.le_refl _, fun _ _ => rfl, fun rest canonical => ?_, by simp⟩
  have zero := canonical.zero 4 (by simp [passedOver])
  obtain rfl : b = 0 := by simpa [Bytes.u16, Bytes.ofNat] using zero
  rfl

theorem spelled_dynamicCall (index n : UInt16) :
    Spelled ⟨op, .dynamicCall index⟩ p (op :: (Bytes.u16 index ++ Bytes.u16 n)) := by
  refine ⟨Nat.le_refl _, fun _ _ => rfl, fun rest canonical => ?_, by simp⟩
  have high := canonical.zero 3 (by simp [passedOver])
  have low := canonical.zero 4 (by simp [passedOver])
  obtain ⟨a, b, split⟩ : ∃ a b, Bytes.u16 n = [a, b] := ⟨_, _, rfl⟩
  rw [split] at high low ⊢
  obtain rfl : a = 0 := by simpa [Bytes.u16, Bytes.ofNat] using high
  obtain rfl : b = 0 := by simpa [Bytes.u16, Bytes.ofNat] using low
  rfl

/-- An encoding takes as many bytes as the writer would, or more behind a prefix; it is what the
writer would write if nothing in it could be otherwise. -/
theorem spelled_of_encoding {i : Instruction UInt16} {bs : Bytes} (encoding : Encoding size p i bs) :
    i.Spelled p bs := by
  cases encoding with
  | nothing shape => exact spelled_of_bytes (by simp) rfl
  | byte shape value => exact spelled_of_bytes (by simp) rfl
  | short shape value => exact spelled_of_bytes (by simp) rfl
  | slot shape index =>
    exact spelled_of_bytes (by simp) (by simp [away, map, Operand.map, bytes, needsWide_byte])
  | wideSlot wide index =>
    by_cases needed : needsWide index = true
    · exact spelled_of_bytes (by simp) (by simp [away, map, Operand.map, bytes, needed])
    · exact spelled_short rfl (by simp [isShort, needed]) (by simp [encodedSize, needed])
  | @constant8 op shape index =>
    obtain rfl := (Opcode.eq_ldc_iff_shape op).mpr shape
    exact spelled_of_bytes (by simp) (by simp [away, map, Operand.map, bytes, needsWide_byte])
  | @constant16 op shape index =>
    have far : op ≠ Opcode.ldc := by
      rintro rfl
      cases shape
    exact spelled_of_bytes (by simp) (by simp [away, map, Operand.map, bytes, far])
  | @increment op shape index delta =>
    obtain rfl := Opcode.eq_iinc_of_shape op shape
    exact spelled_of_bytes (by simp) (by
      simp [away, map, Operand.map, bytes, needsWide_byte, fitsByte_byte, Bytes.i8])
  | wideIncrement index delta =>
    by_cases needed : (needsWide index || !fitsByte delta) = true
    · refine spelled_of_bytes (by simp) ?_
      simp only [away, map, Operand.map, bytes, needed, if_true]
    · exact spelled_short rfl (by simp [isShort, needed]) (by simp [encodedSize, needed])
  | branch16 shape lands => exact spelled_branch16 shape lands
  | branch32 shape jump => exact spelled_branch32 shape jump
  | tableSwitch _ padding jump _ _ each => exact spelled_tableSwitch padding jump each
  | lookupSwitch _ padding jump count _ each => exact spelled_lookupSwitch padding jump count each
  | interfaceCall _ index count reserved => exact spelled_interfaceCall index count reserved
  | dynamicCall _ index reserved => exact spelled_dynamicCall index reserved
  | arrayType shape code => exact spelled_of_bytes (by simp) rfl
  | multiArray shape index dimensions => exact spelled_of_bytes (by simp) rfl

end Encodings

inductive Spelling : Nat → List (UInt16 × Instruction UInt16) → Bytes → Prop where
  | nil {start : Nat} : Spelling start [] []
  | cons {start : Nat} {i : Instruction UInt16} {bs more : Bytes}
      {rest : List (UInt16 × Instruction UInt16)} (here : i.Spelled start bs)
      (later : Spelling (start + bs.length) rest more) :
      Spelling start ((UInt16.ofNat start, i) :: rest) (bs ++ more)

theorem spelling_of_encodings {size p : Nat} {decoded : List (UInt16 × Instruction UInt16)}
    {parts : List Bytes} (encodings : Encodings size p decoded parts) :
    Spelling p decoded parts.flatten := by
  induction encodings with
  | nil => exact .nil
  | @cons p o i bs rest parts place here later ih =>
    rw [List.flatten_cons, ← UInt16.ofNat_toNat (x := o), place]
    exact .cons (spelled_of_encoding here) ih

section Places
variable {start : Nat} {decoded : List (UInt16 × Instruction UInt16)} {code : Bytes}

theorem spelling_of_decode (decodes : decode code = .ok decoded) : Spelling 0 decoded code := by
  obtain ⟨parts, encodings, rfl⟩ := encodings_of_decode decodes
  exact spelling_of_encodings encodings

theorem placeIn_first (spelling : Spelling start decoded code)
    (small : start + code.length ≤ 65535) : placeIn decoded (start + code.length) 0 = start := by
  cases spelling with
  | nil => rfl
  | cons here later =>
    have room : start < 65536 := by omega
    exact UInt16.toNat_ofNat_of_lt' room

theorem spelled_of_spelling (spelling : Spelling start decoded code)
    (small : start + code.length ≤ 65535) {n : Nat} {d : UInt16 × Instruction UInt16}
    (here : decoded[n]? = some d) : ∃ before bs rest, code = before ++ (bs ++ rest) ∧
      d.1.toNat = start + before.length ∧ d.2.Spelled d.1.toNat bs ∧
      placeIn decoded (start + code.length) (n + 1) = d.1.toNat + bs.length := by
  induction spelling generalizing n with
  | nil => cases here
  | @cons start i bs more rest spelled later ih =>
    rw [List.length_append, ← Nat.add_assoc] at small ⊢
    have place : (UInt16.ofNat start).toNat = start :=
      UInt16.toNat_ofNat_of_lt' (by change start < 65536; omega)
    cases n with
    | zero =>
      cases here
      refine ⟨[], bs, more, rfl, by simp [place], ?_, ?_⟩
      · rwa [place]
      · rw [place]
        exact placeIn_first later small
    | succ n =>
      obtain ⟨before, bs', rest', rfl, far, spelled', next⟩ := ih small here
      refine ⟨bs ++ before, bs', rest', by simp, ?_, spelled', next⟩
      rw [far, List.length_append, Nat.add_assoc]

theorem spelled_at (decodes : decode code = .ok decoded) {n : Nat}
    {d : UInt16 × Instruction UInt16} (here : decoded[n]? = some d) :
    ∃ bs rest, code.drop d.1.toNat = bs ++ rest ∧ d.2.Spelled d.1.toNat bs ∧
      placeIn decoded code.length (n + 1) = d.1.toNat + bs.length := by
  have small := (listing_of_decode decodes).1
  obtain ⟨before, bs, rest, split, far, spelled, next⟩ :=
    spelled_of_spelling (spelling_of_decode decodes) (by omega) here
  rw [Nat.zero_add] at far next
  refine ⟨bs, rest, ?_, spelled, next⟩
  rw [far, split, List.drop_left]

end Places
end Instruction
end ClassHooks
