import Mathlib
import ClassHooks.Proofs.Success
import ClassHooks.Proofs.Text.ModifiedUtf8

/-!
Which bytes are the encoding of a text. Every text has an encoding of its own, in which no byte is
zero. Reading accepts longer forms of small units too: the bytes that are read are the encoding of
what they are read as exactly if no longer form begins anywhere in them.
-/
namespace ClassHooks.Text.ModifiedUtf8

theorem encode_append (s t : String) : encode (s ++ t) = encode s ++ encode t := by
  simp [encode]

theorem encode_injective : Function.Injective encode := by
  intro s t same
  have one := decode_encoded s
  rw [same, decode_encoded t] at one
  cases one
  rfl

theorem encodeUnit_bytes (unit : UInt16) : ∀ b ∈ encodeUnit unit, b ≠ 0 ∧ b ≤ 0xEF := by
  have bound := unit.toNat_lt
  have within : ∀ n, 0 < n → n ≤ 0xEF → UInt8.ofNat n ≠ 0 ∧ UInt8.ofNat n ≤ 0xEF := by
    intro n positive small
    have value := toNat_byte (n := n) (by omega)
    rw [ne_eq, ← UInt8.toNat_inj, UInt8.le_iff_toNat_le, value]
    simp
    omega
  intro b member
  unfold encodeUnit at member
  dsimp only at member
  split at member
  · rename_i small
    rw [List.mem_singleton] at member
    subst member
    exact within _ small.1 (by omega)
  · split at member
    · simp only [List.mem_cons, List.not_mem_nil, or_false] at member
      rcases member with rfl | rfl
      · exact within _ (by omega) (by omega)
      · exact within _ (by omega) (by omega)
    · simp only [List.mem_cons, List.not_mem_nil, or_false] at member
      rcases member with rfl | rfl | rfl
      · exact within _ (by omega) (by omega)
      · exact within _ (by omega) (by omega)
      · exact within _ (by omega) (by omega)

/-- An encoding is read as the text it was made of, and none of its bytes is zero or begins a
character of four bytes; encodings follow each other as the texts do, and tell them apart. -/
theorem encode_lossless (s : String) :
    decode (encode s) = .ok s ∧ (∀ b ∈ encode s, b ≠ 0 ∧ b ≤ 0xEF) ∧
      ∀ t, encode (s ++ t) = encode s ++ encode t ∧ (encode s = encode t ↔ s = t) := by
  refine ⟨decode_encoded s, ?_, ?_⟩
  · intro b member
    simp only [encode, List.mem_flatMap] at member
    obtain ⟨c, _, unit, _, inside⟩ := member
    exact encodeUnit_bytes unit b inside
  · intro t
    exact ⟨encode_append s t, encode_injective.eq_iff⟩

/-- The forms that a unit is read from: three bytes for every unit, two for those of eleven bits and
one for those of seven bits, but for zero. -/
inductive Form : UInt16 → Bytes → Prop where
  | one {n : Nat} (positive : 0 < n) (small : n < 0x80) : Form (UInt16.ofNat n) [UInt8.ofNat n]
  | two {high low : Nat} (smallHigh : high < 32) (smallLow : low < 64) :
      Form (UInt16.ofNat (high * 64 + low)) [UInt8.ofNat (0xC0 + high), UInt8.ofNat (0x80 + low)]
  | three {high middle low : Nat} (smallHigh : high < 16) (smallMiddle : middle < 64)
      (smallLow : low < 64) : Form (UInt16.ofNat (high * 4096 + middle * 64 + low))
        [UInt8.ofNat (0xE0 + high), UInt8.ofNat (0x80 + middle), UInt8.ofNat (0x80 + low)]

theorem form_encodeUnit (unit : UInt16) : Form unit (encodeUnit unit) := by
  have bound := unit.toNat_lt
  unfold encodeUnit
  dsimp only
  split
  · rename_i small
    have form := Form.one small.1 small.2
    rwa [UInt16.ofNat_toNat] at form
  · split
    · have form := @Form.two (unit.toNat / 64) (unit.toNat % 64) (by omega) (by omega)
      rwa [show unit.toNat / 64 * 64 + unit.toNat % 64 = unit.toNat by omega,
        UInt16.ofNat_toNat] at form
    · have form := @Form.three (unit.toNat / 4096) (unit.toNat / 64 % 64) (unit.toNat % 64)
        (by omega) (by omega) (by omega)
      rwa [show unit.toNat / 4096 * 4096 + unit.toNat / 64 % 64 * 64 + unit.toNat % 64 =
        unit.toNat by omega, UInt16.ofNat_toNat] at form

theorem byte_of_continuation {index n : Nat} {next : Option UInt8}
    (read : continuation index next = .ok n) :
    next = some (UInt8.ofNat (0x80 + n)) ∧ n < 64 := by
  cases next with
  | none => cases read
  | some b =>
    unfold continuation at read
    dsimp only at read
    by_cases inside : 0x80 ≤ b ∧ b < 0xC0
    · rw [if_pos inside, Except.ok.injEq] at read
      subst read
      rw [UInt8.le_iff_toNat_le, UInt8.lt_iff_toNat_lt] at inside
      have low : 0x80 ≤ b.toNat := inside.1
      have high : b.toNat < 0xC0 := inside.2
      refine ⟨?_, by omega⟩
      rw [show 0x80 + (b.toNat - 0x80) = b.toNat by omega, UInt8.ofNat_toNat]
    · rw [if_neg inside] at read
      cases read

theorem cons_of_head {b : UInt8} {rest : Bytes} (here : rest.head? = some b) :
    rest = b :: rest.drop 1 := by
  cases rest with
  | nil => cases here
  | cons c rest =>
    cases here
    rfl

theorem byte_above {b : UInt8} {n : Nat} (above : n ≤ b.toNat) :
    UInt8.ofNat (n + (b.toNat - n)) = b := by
  rw [show n + (b.toNat - n) = b.toNat by omega, UInt8.ofNat_toNat]

theorem form_of_decodeUnits {b : UInt8} {rest : Bytes} {index : Nat} {before us : List UInt16}
    (run : decodeUnits index before (b :: rest) = .ok us) : ∃ unit form tail behind,
      Form unit form ∧ b :: rest = form ++ tail ∧ form ≠ [] ∧
        decodeUnits behind (unit :: before) tail = .ok us := by
  rw [decodeUnits] at run
  split at run
  · cases run
  rename_i positive
  split at run
  · rename_i small
    rw [UInt8.lt_iff_toNat_lt] at small
    rw [← UInt8.toNat_inj] at positive
    have form := Form.one (Nat.pos_of_ne_zero positive) small
    rw [UInt8.ofNat_toNat] at form
    exact ⟨_, _, rest, _, form, rfl, by simp, run⟩
  split at run
  · rename_i lead
    rw [UInt8.le_iff_toNat_le, UInt8.lt_iff_toNat_lt] at lead
    have above : 0xC0 ≤ b.toNat := lead.1
    have below : b.toNat < 0xE0 := lead.2
    obtain ⟨low, second, run⟩ := bind_ok_iff.mp run
    obtain ⟨here, smallLow⟩ := byte_of_continuation second
    have form := @Form.two (b.toNat - 0xC0) low (by omega) smallLow
    rw [byte_above above] at form
    refine ⟨_, _, _, _, form, ?_, by simp, run⟩
    rw [cons_of_head here]
    rfl
  split at run
  · rename_i lead
    rw [UInt8.le_iff_toNat_le, UInt8.lt_iff_toNat_lt] at lead
    have above : 0xE0 ≤ b.toNat := lead.1
    have below : b.toNat < 0xF0 := lead.2
    obtain ⟨middle, second, run⟩ := bind_ok_iff.mp run
    obtain ⟨low, third, run⟩ := bind_ok_iff.mp run
    obtain ⟨here, smallMiddle⟩ := byte_of_continuation second
    obtain ⟨there, smallLow⟩ := byte_of_continuation third
    have form := @Form.three (b.toNat - 0xE0) middle low (by omega) smallMiddle smallLow
    rw [byte_above above] at form
    refine ⟨_, _, _, _, form, ?_, by simp, run⟩
    have rests := cons_of_head there
    rw [List.drop_drop] at rests
    rw [cons_of_head here, rests]
    rfl
  · cases run

theorem forms_of_decodeUnits {bytes : Bytes} {index : Nat} {before us : List UInt16}
    (run : decodeUnits index before bytes = .ok us) : ∃ vs forms, us = before.reverse ++ vs ∧
      bytes = forms.flatten ∧ List.Forall₂ Form vs forms := by
  induction length : bytes.length using Nat.strongRecOn generalizing bytes index before with
  | ind n ih =>
    subst length
    cases bytes with
    | nil =>
      rw [decodeUnits] at run
      cases run
      exact ⟨[], [], by simp, rfl, .nil⟩
    | cons b rest =>
      obtain ⟨unit, form, tail, behind, written, split, filled, later⟩ := form_of_decodeUnits run
      have shorter : tail.length < (b :: rest).length := by
        rw [split, List.length_append]
        exact Nat.lt_add_of_pos_left (List.length_pos_of_ne_nil filled)
      obtain ⟨vs, forms, rfl, rfl, related⟩ := ih tail.length shorter later rfl
      exact ⟨unit :: vs, form :: forms, by simp, split, .cons written related⟩

theorem units_basic {unit : UInt16} (high : isHighSurrogate unit = false)
    (low : isLowSurrogate unit = false) : units (Char.ofNat unit.toNat) = [unit] := by
  have bound := unit.toNat_lt
  simp only [isHighSurrogate, isLowSurrogate, decide_eq_false_iff_not, UInt16.le_iff_toNat_le,
    UInt16.lt_iff_toNat_lt] at high low
  have valid : unit.toNat.isValidChar := by
    change unit.toNat < 0xD800 ∨ 0xDFFF < unit.toNat ∧ unit.toNat < 0x110000
    have outside : ¬(0xD800 ≤ unit.toNat ∧ unit.toNat < 0xDC00) := high
    have outside' : ¬(0xDC00 ≤ unit.toNat ∧ unit.toNat < 0xE000) := low
    omega
  unfold units
  rw [Char.toNat_ofNat, if_pos valid]
  dsimp only
  rw [if_pos (by omega), UInt16.ofNat_toNat]

theorem units_paired {u v : UInt16} (high : isHighSurrogate u = true)
    (low : isLowSurrogate v = true) :
    units (Char.ofNat (0x10000 + (u.toNat - 0xD800) * 0x400 + (v.toNat - 0xDC00))) = [u, v] := by
  simp only [isHighSurrogate, isLowSurrogate, decide_eq_true_eq, UInt16.le_iff_toNat_le,
    UInt16.lt_iff_toNat_lt] at high low
  have first : 0xD800 ≤ u.toNat ∧ u.toNat < 0xDC00 := high
  have second : 0xDC00 ≤ v.toNat ∧ v.toNat < 0xE000 := low
  have valid : (0x10000 + (u.toNat - 0xD800) * 0x400 + (v.toNat - 0xDC00)).isValidChar := by
    refine .inr ⟨by omega, by omega⟩
  unfold units
  rw [Char.toNat_ofNat, if_pos valid]
  dsimp only
  rw [if_neg (by omega),
    show 0xD800 + (0x10000 + (u.toNat - 0xD800) * 0x400 + (v.toNat - 0xDC00) - 0x10000) / 0x400 =
      u.toNat by omega,
    show 0xDC00 + (0x10000 + (u.toNat - 0xD800) * 0x400 + (v.toNat - 0xDC00) - 0x10000) % 0x400 =
      v.toNat by omega, UInt16.ofNat_toNat, UInt16.ofNat_toNat]

theorem units_of_characters {us : List UInt16} {before cs : List Char}
    (run : characters before us = some cs) :
    ∃ ds, cs = before.reverse ++ ds ∧ us = ds.flatMap units := by
  induction length : us.length using Nat.strongRecOn generalizing us before with
  | ind n ih =>
    subst length
    cases us with
    | nil =>
      rw [characters] at run
      cases run
      exact ⟨[], by simp, rfl⟩
    | cons u rest =>
      rw [characters.eq_def] at run
      dsimp only at run
      cases high : isHighSurrogate u with
      | true =>
        rw [high, if_pos rfl] at run
        cases rest with
        | nil => cases run
        | cons v rest =>
          dsimp only at run
          cases low : isLowSurrogate v with
          | false =>
            rw [low] at run
            cases run
          | true =>
            rw [low, if_pos rfl] at run
            have shorter : rest.length < (u :: v :: rest).length := by
              rw [List.length_cons, List.length_cons]
              omega
            obtain ⟨ds, rfl, rfl⟩ := ih rest.length shorter run rfl
            refine ⟨Char.ofNat (0x10000 + (u.toNat - 0xD800) * 0x400 + (v.toNat - 0xDC00)) :: ds,
              by simp, ?_⟩
            rw [List.flatMap_cons, units_paired high low]
            rfl
      | false =>
        rw [high] at run
        cases low : isLowSurrogate u with
        | true =>
          rw [low] at run
          cases run
        | false =>
          rw [low] at run
          obtain ⟨ds, rfl, rfl⟩ := ih rest.length (by simp) run rfl
          refine ⟨Char.ofNat u.toNat :: ds, by simp, ?_⟩
          rw [List.flatMap_cons, units_basic high low]
          rfl

theorem forms_of_decode {bytes : Bytes} {s : String} (run : decode bytes = .ok s) :
    ∃ forms, bytes = forms.flatten ∧ List.Forall₂ Form (s.toList.flatMap units) forms := by
  obtain ⟨us, read, run⟩ := bind_ok_iff.mp run
  cases joined : characters [] us with
  | none =>
    rw [joined] at run
    cases run
  | some cs =>
    rw [joined] at run
    cases run
    obtain ⟨vs, forms, split, rfl, related⟩ := forms_of_decodeUnits read
    rw [List.reverse_nil, List.nil_append] at split
    subst split
    obtain ⟨ds, same, rfl⟩ := units_of_characters joined
    refine ⟨forms, rfl, ?_⟩
    rw [List.reverse_nil, List.nil_append] at same
    rw [String.toList_ofList, same]
    exact related

theorem decodeUnits_forms {us : List UInt16} {forms : List Bytes}
    (written : List.Forall₂ Form us forms) (index : Nat) (before : List UInt16) :
    decodeUnits index before forms.flatten = .ok (before.reverse ++ us) := by
  induction written generalizing index before with
  | nil => simp [decodeUnits]
  | @cons unit form us forms first _ ih =>
    have order : before.reverse ++ unit :: us = (unit :: before).reverse ++ us := by simp
    rw [List.flatten_cons, order]
    cases first with
    | one positive small =>
      rw [List.singleton_append, decodeUnits_one index before _ positive small]
      exact ih _ _
    | two smallHigh smallLow =>
      rw [List.cons_append, List.singleton_append,
        decodeUnits_two index before _ smallHigh smallLow]
      exact ih _ _
    | three smallHigh smallMiddle smallLow =>
      rw [List.cons_append, List.cons_append, List.singleton_append,
        decodeUnits_three index before _ smallHigh smallMiddle smallLow]
      exact ih _ _

/-- A text is read from the rows of forms of its units, and from nothing else. -/
theorem decode_ok_iff {bytes : Bytes} {s : String} : decode bytes = .ok s ↔
    ∃ forms, bytes = forms.flatten ∧ List.Forall₂ Form (s.toList.flatMap units) forms := by
  constructor
  · exact forms_of_decode
  · rintro ⟨forms, rfl, written⟩
    refine bind_ok_iff.mpr ⟨_, decodeUnits_forms written 0 [], ?_⟩
    have joined := characters_units s.toList []
    rw [List.reverse_nil, List.nil_append] at joined ⊢
    rw [joined]
    dsimp only
    rw [String.ofList_toList]

def Longer (a b : UInt8) : Prop := a = 0xC1 ∨ a = 0xC0 ∧ b ≠ 0x80 ∨ a = 0xE0 ∧ b < 0xA0

instance (a b : UInt8) : Decidable (Longer a b) := by unfold Longer; infer_instance

/-- No unit is written in a longer form than it needs. -/
def Shortest (bytes : Bytes) : Prop := bytes.IsChain fun a b => ¬ Longer a b

instance (bytes : Bytes) : Decidable (Shortest bytes) := by unfold Shortest; infer_instance

theorem not_longer_of_small {a : UInt8} (small : a.toNat < 0xC0) (b : UInt8) : ¬ Longer a b := by
  rintro (rfl | ⟨rfl, -⟩ | ⟨rfl, -⟩) <;> exact absurd small (by decide)

theorem last_of_form {unit : UInt16} {form : Bytes} (written : Form unit form) :
    ∀ a ∈ form.getLast?, a.toNat < 0xC0 := by
  have byte : ∀ n, n < 0xC0 → (UInt8.ofNat n).toNat < 0xC0 := by
    intro n small
    rw [toNat_byte (by omega)]
    exact small
  intro a last
  cases written with
  | one positive small =>
    cases last
    exact byte _ (by omega)
  | two smallHigh smallLow =>
    cases last
    exact byte _ (by omega)
  | three smallHigh smallMiddle smallLow =>
    cases last
    exact byte _ (by omega)

theorem longer_iff {a b : UInt8} : Longer a b ↔
    a.toNat = 0xC1 ∨ a.toNat = 0xC0 ∧ b.toNat ≠ 0x80 ∨ a.toNat = 0xE0 ∧ b.toNat < 0xA0 := by
  unfold Longer
  rw [UInt8.lt_iff_toNat_lt, ← UInt8.toNat_inj, ← UInt8.toNat_inj, ← UInt8.toNat_inj, ne_eq,
    ← UInt8.toNat_inj]
  rfl

theorem shortest_form_iff {unit : UInt16} {form : Bytes} (written : Form unit form) :
    Shortest form ↔ form = encodeUnit unit := by
  have word : ∀ n, n < 65536 → (UInt16.ofNat n).toNat = n := fun n small =>
    UInt16.toNat_ofNat_of_lt' small
  unfold Shortest encodeUnit
  cases written with
  | @one n positive small =>
    rw [word n (by omega)]
    dsimp only
    rw [if_pos ⟨positive, small⟩]
    simp
  | @two high low smallHigh smallLow =>
    rw [word _ (by omega), List.isChain_pair, longer_iff, toNat_byte (by omega),
      toNat_byte (by omega)]
    dsimp only
    by_cases needless : 0 < high * 64 + low ∧ high * 64 + low < 0x80
    · rw [if_pos needless]
      simp
      omega
    · rw [if_neg needless, if_pos (by omega), show (high * 64 + low) / 64 = high by omega,
        show (high * 64 + low) % 64 = low by omega]
      simp
      omega
  | @three high middle low smallHigh smallMiddle smallLow =>
    have ends : ¬ Longer (UInt8.ofNat (0x80 + middle)) (UInt8.ofNat (0x80 + low)) := by
      apply not_longer_of_small
      rw [toNat_byte (by omega)]
      omega
    rw [word _ (by omega), List.isChain_cons_cons, List.isChain_pair, and_iff_left ends, longer_iff,
      toNat_byte (by omega), toNat_byte (by omega)]
    dsimp only
    by_cases short : high * 4096 + middle * 64 + low < 0x800
    · have longer : high = 0 ∧ middle < 32 := by omega
      split
      · simp
        omega
      · simp
        omega
    · rw [if_neg (by omega), if_neg short,
        show (high * 4096 + middle * 64 + low) / 4096 = high by omega,
        show (high * 4096 + middle * 64 + low) / 64 % 64 = middle by omega,
        show (high * 4096 + middle * 64 + low) % 64 = low by omega]
      simp
      omega

theorem shortest_forms_iff {us : List UInt16} {forms : List Bytes}
    (written : List.Forall₂ Form us forms) :
    Shortest forms.flatten ↔ forms = us.map encodeUnit := by
  induction written with
  | nil => simp [Shortest]
  | @cons unit form us forms first _ ih =>
    have apart : ∀ a ∈ form.getLast?, ∀ b ∈ forms.flatten.head?, ¬ Longer a b :=
      fun a last b _ => not_longer_of_small (last_of_form first a last) b
    have split : Shortest (form ++ forms.flatten) ↔ Shortest form ∧ Shortest forms.flatten := by
      unfold Shortest
      rw [List.isChain_append]
      constructor
      · intro both
        exact ⟨both.1, both.2.1⟩
      · intro both
        exact ⟨both.1, both.2, apart⟩
    rw [List.flatten_cons, split, ih, shortest_form_iff first, List.map_cons, List.cons.injEq]

theorem encode_eq_flatten (s : String) :
    encode s = ((s.toList.flatMap units).map encodeUnit).flatten := by
  rw [← List.flatMap_def, encode, List.flatMap_assoc]

theorem shortest_encode (s : String) : Shortest (encode s) := by
  have written : List.Forall₂ Form (s.toList.flatMap units)
      ((s.toList.flatMap units).map encodeUnit) := by
    rw [List.forall₂_map_right_iff, List.forall₂_same]
    exact fun unit _ => form_encodeUnit unit
  rw [encode_eq_flatten]
  exact (shortest_forms_iff written).mpr rfl

/-- Bytes encode a text exactly if they are read as that text and hold no longer form. -/
theorem encode_eq_iff {bytes : Bytes} {s : String} :
    encode s = bytes ↔ decode bytes = .ok s ∧ Shortest bytes := by
  constructor
  · intro same
    rw [← same]
    exact ⟨decode_encoded s, shortest_encode s⟩
  · intro known
    obtain ⟨forms, rfl, written⟩ := forms_of_decode known.1
    rw [encode_eq_flatten, (shortest_forms_iff written).mp known.2]

end ClassHooks.Text.ModifiedUtf8
