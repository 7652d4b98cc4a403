import ClassHooks.Proofs.Pool.Growth
import ClassHooks.Proofs.Text.Canonical

/-!
References into a pool that was added to. What was asked for is found again under the slot that was
answered, also after further additions. Texts are compared by their bytes or as they are read: both
agree on what is written in the shortest forms, and bytes in longer forms are read as a text whose
encoding they are not.
-/
namespace ClassHooks
namespace Pool
variable {p q : Pool}

theorem get_of_entry {i : UInt16} {c : Constant} (here : p.entries[i.toNat]? = some c)
    (usable : c ≠ .unusable) : p.get i = .ok c := by
  unfold get
  rw [here]
  cases c <;> first | rfl | exact absurd rfl usable

theorem utf8_of_holdsText {i : UInt16} {text : String} (holds : p.holdsText i text = true) :
    p.utf8 i = .ok text := by
  have here := get_of_entry (holdsText_iff.mp holds) nofun
  exact bind_ok_iff.mpr ⟨_, here, Text.ModifiedUtf8.decode_encoded text⟩

theorem className_of_holdsClass {i : UInt16} {name : String} (holds : p.HoldsClass i name) :
    p.className i = .ok name := by
  obtain ⟨n, here, text⟩ := holds
  exact bind_ok_iff.mpr ⟨_, get_of_entry here nofun, utf8_of_holdsText text⟩

def HoldsNameAndType (p : Pool) (i : UInt16) (name descriptor : String) : Prop :=
  ∃ n d : UInt16, p.entries[i.toNat]? = some (.nameAndType n d) ∧ p.holdsText n name = true ∧
    p.holdsText d descriptor = true

def HoldsMethod (p : Pool) (i : UInt16) (owner name descriptor : String) : Prop :=
  ∃ o n : UInt16, p.entries[i.toNat]? = some (.methodRef o n) ∧ p.HoldsClass o owner ∧
    p.HoldsNameAndType n name descriptor

def HoldsField (p : Pool) (i : UInt16) (owner name descriptor : String) : Prop :=
  ∃ o n : UInt16, p.entries[i.toNat]? = some (.fieldRef o n) ∧ p.HoldsClass o owner ∧
    p.HoldsNameAndType n name descriptor

theorem holdsNameAndType_of_grows (grows : p.Grows q) {i : UInt16} {name descriptor : String}
    (holds : p.HoldsNameAndType i name descriptor) : q.HoldsNameAndType i name descriptor := by
  obtain ⟨n, d, here, first, second⟩ := holds
  exact ⟨n, d, grows _ _ here, holdsText_of_grows grows first, holdsText_of_grows grows second⟩

theorem holdsMethod_of_grows (grows : p.Grows q) {i : UInt16} {owner name descriptor : String}
    (holds : p.HoldsMethod i owner name descriptor) : q.HoldsMethod i owner name descriptor := by
  obtain ⟨o, n, here, first, second⟩ := holds
  exact ⟨o, n, grows _ _ here, holdsClass_of_grows grows first,
    holdsNameAndType_of_grows grows second⟩

theorem member_of_parts {i o n : UInt16} {c : Constant} {owner name descriptor : String}
    (here : p.entries[i.toNat]? = some c) (parts : memberParts? c = some (o, n))
    (named : p.HoldsClass o owner) (typed : p.HoldsNameAndType n name descriptor) :
    p.member i = .ok (owner, name, descriptor) := by
  obtain ⟨a, b, there, first, second⟩ := typed
  have usable : c ≠ .unusable := by
    rintro rfl
    cases parts
  refine bind_ok_iff.mpr ⟨_, get_of_entry here usable, ?_⟩
  rw [parts]
  refine bind_ok_iff.mpr ⟨_, get_of_entry there nofun, ?_⟩
  refine bind_ok_iff.mpr ⟨_, className_of_holdsClass named, ?_⟩
  refine bind_ok_iff.mpr ⟨_, utf8_of_holdsText first, ?_⟩
  exact bind_ok_iff.mpr ⟨_, utf8_of_holdsText second, rfl⟩

theorem member_of_holdsMethod {i : UInt16} {owner name descriptor : String}
    (holds : p.HoldsMethod i owner name descriptor) :
    p.member i = .ok (owner, name, descriptor) := by
  obtain ⟨o, n, here, named, typed⟩ := holds
  exact member_of_parts here rfl named typed

theorem member_of_holdsField {i : UInt16} {owner name descriptor : String}
    (holds : p.HoldsField i owner name descriptor) :
    p.member i = .ok (owner, name, descriptor) := by
  obtain ⟨o, n, here, named, typed⟩ := holds
  exact member_of_parts here rfl named typed

theorem addNameAndType_ok (sound : p.Sound) {name descriptor : String} {i : UInt16}
    (run : addNameAndType name descriptor p = .ok i q) :
    p.Beyond q ∧ q.HoldsNameAndType i name descriptor := by
  obtain ⟨n, p₁, named, run⟩ := state_bind_ok_iff.mp run
  obtain ⟨d, p₂, described, run⟩ := state_bind_ok_iff.mp run
  obtain ⟨beyond₁, text⟩ := addUtf8_ok sound named
  obtain ⟨beyond₂, type⟩ := addUtf8_ok beyond₁.sound described
  obtain ⟨beyond₃, here⟩ := add_ok beyond₂.sound run
  have grows := grows_trans beyond₂.grows beyond₃.grows
  exact ⟨⟨beyond₃.sound, grows_trans beyond₁.grows grows⟩, n, d, here,
    holdsText_of_grows grows text, holdsText_of_grows beyond₃.grows type⟩

theorem addReference_ok (sound : p.Sound) {make : UInt16 → UInt16 → Constant}
    {owner name descriptor : String} {i : UInt16}
    (run : (do add (make (← addClass owner) (← addNameAndType name descriptor))) p = .ok i q) :
    p.Beyond q ∧ ∃ o n : UInt16, q.entries[i.toNat]? = some (make o n) ∧ q.HoldsClass o owner ∧
      q.HoldsNameAndType n name descriptor := by
  obtain ⟨o, p₁, owned, run⟩ := state_bind_ok_iff.mp run
  obtain ⟨n, p₂, named, run⟩ := state_bind_ok_iff.mp run
  obtain ⟨beyond₁, class'⟩ := addClass_ok sound owned
  obtain ⟨beyond₂, nat⟩ := addNameAndType_ok beyond₁.sound named
  obtain ⟨beyond₃, here⟩ := add_ok beyond₂.sound run
  have grows := grows_trans beyond₂.grows beyond₃.grows
  exact ⟨⟨beyond₃.sound, grows_trans beyond₁.grows grows⟩, o, n, here,
    holdsClass_of_grows grows class', holdsNameAndType_of_grows beyond₃.grows nat⟩

theorem addMethodRef_ok (sound : p.Sound) {owner name descriptor : String} {i : UInt16}
    (run : addMethodRef owner name descriptor p = .ok i q) :
    p.Beyond q ∧ q.HoldsMethod i owner name descriptor :=
  addReference_ok sound run

theorem addFieldRef_ok (sound : p.Sound) {owner name descriptor : String} {i : UInt16}
    (run : addFieldRef owner name descriptor p = .ok i q) :
    p.Beyond q ∧ q.HoldsField i owner name descriptor :=
  addReference_ok sound run

theorem addString_ok (sound : p.Sound) {text : String} {i : UInt16}
    (run : addString text p = .ok i q) :
    p.Beyond q ∧ ∃ n, q.entries[i.toNat]? = some (.string n) ∧ q.holdsText n text = true := by
  obtain ⟨n, p₁, added, run⟩ := state_bind_ok_iff.mp run
  obtain ⟨beyond₁, holds⟩ := addUtf8_ok sound added
  obtain ⟨beyond₂, here⟩ := add_ok beyond₁.sound run
  exact ⟨⟨beyond₂.sound, grows_trans beyond₁.grows beyond₂.grows⟩, n, here,
    holdsText_of_grows beyond₂.grows holds⟩

section Compared
open Text.ModifiedUtf8

theorem utf8_ok_iff {p : Pool} {i : UInt16} {text : String} :
    p.utf8 i = .ok text ↔ ∃ bytes, p.get i = .ok (.utf8 bytes) ∧ decode bytes = .ok text := by
  constructor
  · intro read
    obtain ⟨c, here, decoded⟩ := bind_ok_iff.mp read
    cases c with
    | utf8 bytes => exact ⟨bytes, here, decoded⟩
    | _ => cases decoded
  · rintro ⟨bytes, here, decoded⟩
    exact bind_ok_iff.mpr ⟨_, here, decoded⟩

theorem entry_of_get {p : Pool} {i : UInt16} {c : Constant} (here : p.get i = .ok c) :
    p.entries[i.toNat]? = some c := by
  unfold get at here
  split at here
  · cases here
  · cases here
  · rename_i found
    cases here
    exact found

/-- Reading accepts every form of each unit, and the encoding of a text is what is read as the text
and holds no longer form. So a slot is found by the bytes of a text exactly if it is read as that
text and written without longer forms. -/
theorem texts_compared (bytes : Bytes) (text : String) (p : Pool) (i : UInt16) :
    (decode bytes = .ok text ↔
      ∃ forms, bytes = forms.flatten ∧ List.Forall₂ Form (text.toList.flatMap units) forms) ∧
    (encode text = bytes ↔ decode bytes = .ok text ∧ Shortest bytes) ∧
    (p.holdsText i text = true ↔
      p.utf8 i = .ok text ∧ ∃ held, p.get i = .ok (.utf8 held) ∧ Shortest held) := by
  refine ⟨decode_ok_iff, encode_eq_iff, ?_⟩
  rw [holdsText_iff]
  constructor
  · intro here
    have found := get_of_entry here nofun
    exact ⟨utf8_ok_iff.mpr ⟨_, found, decode_encoded text⟩, _, found, shortest_encode text⟩
  · rintro ⟨read, held, here, shortest⟩
    obtain ⟨held', here', decoded⟩ := utf8_ok_iff.mp read
    rw [here] at here'
    cases here'
    rw [encode_eq_iff.mpr ⟨decoded, shortest⟩]
    exact entry_of_get here

/-- The letter `A` in two bytes: read as that letter, but not found by its encoding. -/
theorem longForm_misread : decode [0xC1, 0x81] = .ok "A" ∧ encode "A" ≠ [0xC1, 0x81] ∧
    (empty.append (.utf8 [0xC1, 0x81])).utf8 1 = .ok "A" ∧
    (empty.append (.utf8 [0xC1, 0x81])).holdsText 1 "A" = false := by
  have form : Form 0x41 [0xC1, 0x81] := @Form.two 1 1 (by decide) (by decide)
  have read : decode [0xC1, 0x81] = .ok "A" :=
    decode_ok_iff.mpr ⟨[[0xC1, 0x81]], rfl, .cons form .nil⟩
  exact ⟨read, by decide, utf8_ok_iff.mpr ⟨_, rfl, read⟩, by decide⟩

end Compared

end Pool
end ClassHooks
