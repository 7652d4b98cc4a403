import ClassHooks.Text.ModifiedUtf8

/-!
Text that was encoded is decoded again: the bytes of a unit give back the unit, and the units of a
character the character.
-/
namespace ClassHooks.Text.ModifiedUtf8

theorem toNat_byte {n : Nat} (small : n < 256) : (UInt8.ofNat n).toNat = n :=
  UInt8.toNat_ofNat_of_lt' small

theorem continuation_byte (index : Nat) {n : Nat} (small : n < 64) :
    continuation index (some (UInt8.ofNat (0x80 + n))) = .ok n := by
  have value := toNat_byte (n := 0x80 + n) (by omega)
  unfold continuation
  dsimp only
  rw [if_pos]
  · rw [value]
    simp
  · simp only [UInt8.le_iff_toNat_le, UInt8.lt_iff_toNat_lt, value]
    simp
    omega

theorem decodeUnits_one (index : Nat) (read : List UInt16) {n : Nat} (rest : Bytes)
    (positive : 0 < n) (small : n < 0x80) :
    decodeUnits index read (UInt8.ofNat n :: rest) =
      decodeUnits (index + 1) (UInt16.ofNat n :: read) rest := by
  have value := toNat_byte (n := n) (by omega)
  rw [decodeUnits, if_neg, if_pos, value]
  · rw [UInt8.lt_iff_toNat_lt, value]
    simpa using small
  · intro zero
    rw [← UInt8.toNat_inj, value] at zero
    simp at zero
    omega

theorem decodeUnits_two (index : Nat) (read : List UInt16) {high low : Nat} (rest : Bytes)
    (smallHigh : high < 32) (smallLow : low < 64) :
    decodeUnits index read (UInt8.ofNat (0xC0 + high) :: UInt8.ofNat (0x80 + low) :: rest) =
      decodeUnits (index + 2) (UInt16.ofNat (high * 64 + low) :: read) rest := by
  have value := toNat_byte (n := 0xC0 + high) (by omega)
  have bounds : ¬ UInt8.ofNat (0xC0 + high) = 0 ∧ ¬ UInt8.ofNat (0xC0 + high) < 0x80 ∧
      0xC0 ≤ UInt8.ofNat (0xC0 + high) ∧ UInt8.ofNat (0xC0 + high) < 0xE0 := by
    simp only [← UInt8.toNat_inj, UInt8.lt_iff_toNat_lt, UInt8.le_iff_toNat_le, value]
    simp
    omega
  obtain ⟨zero, ascii, two⟩ := bounds
  rw [decodeUnits, if_neg zero, if_neg ascii, if_pos two, List.head?_cons,
    continuation_byte _ smallLow, value]
  change decodeUnits (index + 2) (UInt16.ofNat ((0xC0 + high - 0xC0) * 64 + low) :: read) rest = _
  rw [Nat.add_sub_cancel_left]

theorem decodeUnits_three (index : Nat) (read : List UInt16) {high middle low : Nat}
    (rest : Bytes) (smallHigh : high < 16) (smallMiddle : middle < 64) (smallLow : low < 64) :
    decodeUnits index read (UInt8.ofNat (0xE0 + high) :: UInt8.ofNat (0x80 + middle) ::
        UInt8.ofNat (0x80 + low) :: rest) =
      decodeUnits (index + 3) (UInt16.ofNat (high * 4096 + middle * 64 + low) :: read) rest := by
  have value := toNat_byte (n := 0xE0 + high) (by omega)
  have bounds : ¬ UInt8.ofNat (0xE0 + high) = 0 ∧ ¬ UInt8.ofNat (0xE0 + high) < 0x80 ∧
      ¬ (0xC0 ≤ UInt8.ofNat (0xE0 + high) ∧ UInt8.ofNat (0xE0 + high) < 0xE0) ∧
      0xE0 ≤ UInt8.ofNat (0xE0 + high) ∧ UInt8.ofNat (0xE0 + high) < 0xF0 := by
    simp only [← UInt8.toNat_inj, UInt8.lt_iff_toNat_lt, UInt8.le_iff_toNat_le, value]
    simp
    omega
  obtain ⟨zero, ascii, two, three⟩ := bounds
  rw [decodeUnits, if_neg zero, if_neg ascii, if_neg two, if_pos three, List.head?_cons,
    continuation_byte _ smallMiddle, value]
  change (continuation (index + 2) (some (UInt8.ofNat (0x80 + low))) >>= fun low =>
    decodeUnits (index + 3) (UInt16.ofNat ((0xE0 + high - 0xE0) * 4096 + middle * 64 + low) :: read)
      rest) = _
  rw [continuation_byte _ smallLow, Nat.add_sub_cancel_left]
  rfl

theorem decodeUnits_unit (index : Nat) (read : List UInt16) (unit : UInt16) (rest : Bytes) :
    ∃ behind, decodeUnits index read (encodeUnit unit ++ rest) =
      decodeUnits behind (unit :: read) rest := by
  have bound := unit.toNat_lt
  unfold encodeUnit
  dsimp only
  split
  · rename_i small
    refine ⟨index + 1, ?_⟩
    rw [List.singleton_append, decodeUnits_one index read rest small.1 small.2,
      UInt16.ofNat_toNat]
  · split
    · refine ⟨index + 2, ?_⟩
      rw [List.cons_append, List.singleton_append,
        decodeUnits_two index read rest (by omega) (by omega),
        show unit.toNat / 64 * 64 + unit.toNat % 64 = unit.toNat by omega, UInt16.ofNat_toNat]
    · refine ⟨index + 3, ?_⟩
      rw [List.cons_append, List.cons_append, List.singleton_append,
        decodeUnits_three index read rest (by omega) (by omega) (by omega),
        show unit.toNat / 4096 * 4096 + unit.toNat / 64 % 64 * 64 + unit.toNat % 64 =
          unit.toNat by omega, UInt16.ofNat_toNat]

theorem decodeUnits_units (us : List UInt16) (index : Nat) (read : List UInt16) :
    decodeUnits index read (us.flatMap encodeUnit) = .ok (read.reverse ++ us) := by
  induction us generalizing index read with
  | nil => simp [decodeUnits]
  | cons u us ih =>
    rw [List.flatMap_cons]
    obtain ⟨behind, first⟩ := decodeUnits_unit index read u (us.flatMap encodeUnit)
    rw [first, ih]
    simp

theorem characters_char (read : List Char) (c : Char) (rest : List UInt16) :
    characters read (units c ++ rest) = characters (c :: read) rest := by
  have valid : c.toNat < 0xD800 ∨ 0xDFFF < c.toNat ∧ c.toNat < 0x110000 := c.valid
  unfold units
  dsimp only
  split
  · rename_i basic
    have value : (UInt16.ofNat c.toNat).toNat = c.toNat := UInt16.toNat_ofNat_of_lt' basic
    have plain : isHighSurrogate (UInt16.ofNat c.toNat) = false ∧
        isLowSurrogate (UInt16.ofNat c.toNat) = false := by
      simp only [isHighSurrogate, isLowSurrogate, decide_eq_false_iff_not,
        UInt16.le_iff_toNat_le, UInt16.lt_iff_toNat_lt, value]
      simp
      omega
    rw [List.singleton_append, characters.eq_def]
    simp only [plain.1, plain.2, value, Char.ofNat_toNat, Bool.false_eq_true, if_false]
  · rename_i supplementary
    have high : (UInt16.ofNat (0xD800 + (c.toNat - 0x10000) / 0x400)).toNat =
        0xD800 + (c.toNat - 0x10000) / 0x400 := UInt16.toNat_ofNat_of_lt' (by
      change _ < 65536
      omega)
    have low : (UInt16.ofNat (0xDC00 + (c.toNat - 0x10000) % 0x400)).toNat =
        0xDC00 + (c.toNat - 0x10000) % 0x400 := UInt16.toNat_ofNat_of_lt' (by
      change _ < 65536
      omega)
    have paired : isHighSurrogate (UInt16.ofNat (0xD800 + (c.toNat - 0x10000) / 0x400)) = true ∧
        isLowSurrogate (UInt16.ofNat (0xDC00 + (c.toNat - 0x10000) % 0x400)) = true := by
      simp only [isHighSurrogate, isLowSurrogate, decide_eq_true_eq,
        UInt16.le_iff_toNat_le, UInt16.lt_iff_toNat_lt, high, low]
      simp
      omega
    have whole : 0x10000 + (0xD800 + (c.toNat - 0x10000) / 0x400 - 0xD800) * 0x400 +
        (0xDC00 + (c.toNat - 0x10000) % 0x400 - 0xDC00) = c.toNat := by omega
    rw [List.cons_append, List.singleton_append, characters.eq_def]
    simp only [paired.1, paired.2, if_true, high, low, whole, Char.ofNat_toNat]

theorem characters_units (cs read : List Char) :
    characters read (cs.flatMap units) = some (read.reverse ++ cs) := by
  induction cs generalizing read with
  | nil => simp [characters]
  | cons c cs ih =>
    rw [List.flatMap_cons, characters_char, ih]
    simp

/-- Every text is read back from its encoding. -/
theorem decode_encoded (s : String) : decode (encode s) = .ok s := by
  have whole : encode s = (s.toList.flatMap units).flatMap encodeUnit := by
    simp [encode, List.flatMap_assoc]
  have chars := characters_units s.toList []
  rw [decode, whole, decodeUnits_units (s.toList.flatMap units) 0 []]
  simp only [List.reverse_nil, List.nil_append] at chars ⊢
  dsimp only [bind, Except.bind]
  rw [chars]
  simp

end ClassHooks.Text.ModifiedUtf8
