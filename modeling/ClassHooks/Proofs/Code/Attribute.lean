import ClassHooks.Code.Attribute
import ClassHooks.Proofs.Bytes.Taking

/-!
Attributes as bytes, both ways: what is read is written as the bytes that were there, and what is
written is read back. Which code attributes have a payload is decided by the sizes of their parts,
each within the field that counts it.
-/
namespace ClassHooks

open Reader

theorem tabled_iff_mapM {write : α → Except Error Bytes} (what : Counted)
    (xs : List α) {bs : Bytes} : Bytes.Tabled (fun x b => write x = .ok b) xs bs ↔
      ∃ count parts, Bytes.countField what xs.length = .ok count ∧ xs.mapM write = .ok parts ∧
        bs = count ++ parts.flatten := by
  simp only [Bytes.Tabled, Bytes.countField_ok_iff, mapM_ok_iff]
  constructor
  · rintro ⟨small, parts, related, rfl⟩
    exact ⟨_, parts, ⟨small, rfl⟩, related, rfl⟩
  · rintro ⟨count, parts, ⟨small, rfl⟩, related, rfl⟩
    exact ⟨small, parts, related, rfl⟩

theorem tabled_iff_flatMap {write : α → Bytes} (what : Counted) (xs : List α) {bs : Bytes} :
    Bytes.Tabled (fun x b => b = write x) xs bs ↔
      ∃ count, Bytes.countField what xs.length = .ok count ∧ bs = count ++ xs.flatMap write := by
  simp only [Bytes.countField_ok_iff, List.flatMap_def]
  constructor
  · rintro ⟨small, parts, related, rfl⟩
    exact ⟨_, ⟨small, rfl⟩, by rw [eq_map_of_related related]⟩
  · rintro ⟨count, ⟨small, rfl⟩, rfl⟩
    exact ⟨small, _, related_of_eq_map rfl, rfl⟩

namespace Attribute

abbrev WrittenAs (a : Attribute) (bs : Bytes) : Prop := a.write = .ok bs

theorem writtenAs_iff {a : Attribute} {bs : Bytes} : a.WrittenAs bs ↔
    a.payload.length < 4294967296 ∧
      bs = Bytes.u16 a.name ++ (Bytes.ofNat 4 a.payload.length ++ a.payload) := by
  unfold WrittenAs write
  rw [bind_ok_iff]
  simp only [Bytes.lengthField_ok_iff]
  constructor
  · rintro ⟨length, ⟨small, rfl⟩, whole⟩
    cases whole
    exact ⟨small, rfl⟩
  · rintro ⟨small, rfl⟩
    exact ⟨_, ⟨small, rfl⟩, rfl⟩

theorem writeAll_ok_iff {as : List Attribute} {bs : Bytes} :
    writeAll as = .ok bs ↔ Bytes.Tabled WrittenAs as bs := by
  unfold writeAll
  simp only [bind_ok_iff, pure_ok_iff]
  rw [tabled_iff_mapM .attributes]
  constructor
  · rintro ⟨count, counted, parts, each, rfl⟩
    exact ⟨count, parts, counted, each, rfl⟩
  · rintro ⟨count, parts, counted, each, rfl⟩
    exact ⟨count, counted, parts, each, rfl⟩

theorem takes_read (p : Nat) : TakesAt read p WrittenAs := by
  refine takes_field takes_u16 fun name => takes_field takes_u32 fun n => ?_
  refine takes_map (takes_mono (takes_bytes _) ?_)
  rintro payload bs ⟨rfl, length⟩
  refine writtenAs_iff.mpr ⟨length ▸ n.toNat_lt, ?_⟩
  rw [length]
  rfl

theorem takes_readAll (p : Nat) : TakesAt readAll p fun as bs => writeAll as = .ok bs :=
  takes_mono (takes_table takes_read p) fun _ _ => writeAll_ok_iff.mpr

theorem reads_written {a : Attribute} {bs : Bytes} (written : a.WrittenAs bs) (p : Nat) :
    ReadsAt read p bs a := by
  obtain ⟨small, rfl⟩ := writtenAs_iff.mp written
  refine reads_bind (reads_u16 _ p) ?_
  refine reads_bind (reads_length small _) ?_
  rw [UInt32.toNat_ofNat_of_lt' small]
  exact reads_map _ (reads_bytes a.payload _)

theorem reads_writtenAll {as : List Attribute} {bs : Bytes} (written : writeAll as = .ok bs)
    (p : Nat) : ReadsAt readAll p bs as :=
  reads_tabled (writeAll_ok_iff.mp written) (fun _ _ _ here => reads_written here) p

end Attribute

namespace Handler

theorem takes_read (p : Nat) : TakesAt read p fun h bs => bs = h.write := by
  refine takes_field takes_u16 fun start => takes_field takes_u16 fun finish => ?_
  refine takes_field takes_u16 fun handler => takes_map (takes_mono takes_u16 ?_)
  rintro catchType _ rfl
  rfl

theorem reads_write (h : Handler) (p : Nat) : ReadsAt read p h.write h :=
  reads_bind (reads_u16 _ _) (reads_bind (reads_u16 _ _) (reads_bind (reads_u16 _ _)
    (reads_map _ (reads_u16 _ _))))

end Handler

namespace CodeAttribute

theorem write_ok_iff {c : CodeAttribute} {bs : Bytes} : c.write = .ok bs ↔
    admitsLength c.code.length = true ∧ ∃ handlers attributes,
      Bytes.Tabled (fun h b => b = h.write) c.handlers handlers ∧
      Attribute.writeAll c.attributes = .ok attributes ∧
      bs = Bytes.u16 c.maxStack ++ (Bytes.u16 c.maxLocals ++ (Bytes.ofNat 4 c.code.length
        ++ (c.code ++ (handlers ++ attributes)))) := by
  unfold write
  by_cases admitted : admitsLength c.code.length = true
  · have small : c.code.length < 4294967296 := by
      simp only [admitsLength, Bool.and_eq_true, decide_eq_true_eq] at admitted
      omega
    rw [if_neg (by simp [admitted])]
    simp only [bind_ok_iff, pure_ok_iff, tabled_iff_flatMap .handlers c.handlers,
      Bytes.lengthField_ok_iff]
    constructor
    · rintro ⟨length, ⟨_, rfl⟩, handlers, handled, attributes, attributed, rfl⟩
      exact ⟨admitted, _, attributes, ⟨handlers, handled, rfl⟩, attributed,
        by simp only [List.append_assoc]⟩
    · rintro ⟨_, _, attributes, ⟨handlers, handled, rfl⟩, attributed, rfl⟩
      exact ⟨_, ⟨small, rfl⟩, handlers, handled, attributes, attributed,
        by simp only [List.append_assoc]⟩
  · rw [if_pos (by simpa using admitted)]
    constructor
    · intro written
      cases written
    · rintro ⟨yes, _⟩
      exact absurd yes admitted

theorem takes_read (p : Nat) : TakesAt read p fun c bs => c.write = .ok bs := by
  refine takes_field takes_u16 fun maxStack => takes_field takes_u16 fun maxLocals => ?_
  refine takes_field takes_u32 fun n => takes_guard fun admitted => ?_
  refine takes_bind (takes_bytes _) fun code bs same => ?_
  obtain ⟨rfl, length⟩ := same
  refine takes_bind (takes_table Handler.takes_read _) fun handlers _ handled => ?_
  refine takes_bind (Attribute.takes_readAll _) fun attributes _ attributed => takes_atEnd ?_
  refine write_ok_iff.mpr ⟨by simpa [length] using admitted, _, _, handled, attributed, ?_⟩
  rw [List.append_nil, length]
  rfl

theorem finishes_read : Finishes read :=
  finishes_bind fun _ => finishes_bind fun _ => finishes_bind fun _ => finishes_guard <|
    finishes_bind fun _ => finishes_bind fun _ => finishes_bind fun _ => finishes_atEnd

/-- A payload that is accepted is written back byte for byte. -/
theorem write_read_back {payload : Bytes} {c : CodeAttribute} (parsed : parse payload = .ok c) :
    c.write = .ok payload :=
  taken_of_run (takes_read 0) finishes_read parsed

theorem parse_written {c : CodeAttribute} {payload : Bytes} (written : c.write = .ok payload) :
    parse payload = .ok c := by
  obtain ⟨admitted, handlers, attributes, handled, attributed, rfl⟩ := write_ok_iff.mp written
  have small : c.code.length < 4294967296 := by
    simp only [admitsLength, Bool.and_eq_true, decide_eq_true_eq] at admitted
    omega
  have length := UInt32.toNat_ofNat_of_lt' small
  refine run_of_ends (ends_bind (reads_u16 _ _) (ends_bind (reads_u16 _ _) ?_))
  refine ends_bind (reads_length small _) (ends_guard ?_ ?_)
  · rw [length, admitted]
    decide
  · rw [length]
    refine ends_bind (reads_bytes _ _) ?_
    refine ends_bind (reads_tabled handled (fun h _ _ same => same ▸ h.reads_write) _) ?_
    rw [← List.append_nil attributes]
    exact ends_bind (Attribute.reads_writtenAll attributed _) (ends_atEnd _ _)

end CodeAttribute
namespace Attribute

theorem write_succeeds_iff {a : Attribute} :
    (∃ bs, a.write = .ok bs) ↔ a.payload.length ≤ 4294967295 := by
  constructor
  · intro written
    obtain ⟨bs, run⟩ := written
    have small := (writtenAs_iff.mp run).1
    omega
  · intro small
    exact ⟨_, writtenAs_iff.mpr ⟨by omega, rfl⟩⟩

theorem writeAll_succeeds_iff {as : List Attribute} : (∃ bs, writeAll as = .ok bs) ↔
    as.length ≤ 65535 ∧ ∀ a ∈ as, a.payload.length ≤ 4294967295 := by
  constructor
  · intro written
    obtain ⟨bs, run⟩ := written
    obtain ⟨few, parts, related, _⟩ := writeAll_ok_iff.mp run
    refine ⟨by omega, ?_⟩
    intro a inside
    obtain ⟨part, _, here⟩ := related_of_mem related inside
    exact write_succeeds_iff.mp ⟨part, here⟩
  · intro sizes
    obtain ⟨few, small⟩ := sizes
    have each : ∀ a ∈ as, ∃ bs, a.write = .ok bs := by
      intro a inside
      exact write_succeeds_iff.mpr (small a inside)
    obtain ⟨parts, run⟩ := ok_of_forall each
    exact ⟨_, writeAll_ok_iff.mpr ⟨by omega, parts, mapM_ok_iff.mp run, rfl⟩⟩

end Attribute

theorem Handler.table_exists {hs : List Handler} (few : hs.length ≤ 65535) :
    ∃ bs, Bytes.Tabled (fun h b => b = h.write) hs bs :=
  ⟨_, by omega, _, related_of_eq_map rfl, rfl⟩

namespace CodeAttribute

/-- The counts and lengths fit their fields, and there is code. -/
structure Fits (c : CodeAttribute) : Prop where
  some : 1 ≤ c.code.length
  code : c.code.length ≤ 65535
  handlers : c.handlers.length ≤ 65535
  attributes : c.attributes.length ≤ 65535
  payloads : ∀ a ∈ c.attributes, a.payload.length ≤ 4294967295

theorem admitsLength_iff {n : Nat} : admitsLength n = true ↔ 1 ≤ n ∧ n ≤ 65535 := by
  simp only [admitsLength, Bool.and_eq_true, decide_eq_true_eq]
  omega

theorem write_succeeds_iff {c : CodeAttribute} : (∃ payload, c.write = .ok payload) ↔ c.Fits := by
  constructor
  · intro written
    obtain ⟨payload, run⟩ := written
    obtain ⟨admitted, handlers, attributes, handled, attributed, _⟩ := write_ok_iff.mp run
    obtain ⟨some, code⟩ := admitsLength_iff.mp admitted
    obtain ⟨few, small⟩ := Attribute.writeAll_succeeds_iff.mp ⟨attributes, attributed⟩
    have fewHandlers := handled.1
    exact ⟨some, code, by omega, few, small⟩
  · intro fits
    have admitted := admitsLength_iff.mpr ⟨fits.some, fits.code⟩
    obtain ⟨handlers, handled⟩ := Handler.table_exists fits.handlers
    obtain ⟨attributes, attributed⟩ :=
      Attribute.writeAll_succeeds_iff.mpr ⟨fits.attributes, fits.payloads⟩
    exact ⟨_, write_ok_iff.mpr ⟨admitted, handlers, attributes, handled, attributed, rfl⟩⟩

/-- Reading and writing code attributes undo each other: a payload that is accepted is written again
byte for byte, exactly the attributes whose parts fit their fields are written, and what was written
is read as the attribute it came from. -/
theorem codeAttribute_codec :
    (∀ payload c, parse payload = .ok c → c.write = .ok payload) ∧
    ∀ c : CodeAttribute, ((∃ payload, c.write = .ok payload) ↔ c.Fits) ∧
      ∀ payload, c.write = .ok payload → parse payload = .ok c := by
  constructor
  · intro payload c parsed
    exact write_read_back parsed
  · intro c
    constructor
    · exact write_succeeds_iff
    · intro payload written
      exact parse_written written

def guardedLoop : Bytes :=
  [0, 1, 0, 2, 0, 0, 0, 3, 0xA7, 0, 0, 0, 1, 0, 0, 0, 3, 0, 0, 0, 9,
    0, 2, 0, 7, 0, 0, 0, 2, 0xFF, 0, 0, 8, 0, 0, 0, 0]

def idle (length : Nat) : CodeAttribute := ⟨0, 0, List.replicate length 0, [], []⟩

theorem idle_fits_iff (length : Nat) : (idle length).Fits ↔ 1 ≤ length ∧ length ≤ 65535 := by
  have size : (idle length).code.length = length := List.length_replicate
  constructor
  · intro fits
    have some := fits.some
    have code := fits.code
    omega
  · intro bounds
    obtain ⟨some, code⟩ := bounds
    exact ⟨by omega, by omega, Nat.zero_le _, Nat.zero_le _, fun a inside => nomatch inside⟩

theorem guardedLoop_codec :
    (∃ c, parse guardedLoop = .ok c ∧ c.attributes.length = 2 ∧ c.write = .ok guardedLoop) ∧
    (∃ payload, (idle 65535).write = .ok payload ∧ parse payload = .ok (idle 65535)) ∧
    ∀ length, length = 0 ∨ length = 65536 → ¬ ∃ payload, (idle length).write = .ok payload := by
  have parsed : parse guardedLoop = .ok ⟨1, 2, [0xA7, 0, 0], [⟨0, 3, 0, 9⟩],
      [⟨7, [0xFF, 0]⟩, ⟨8, []⟩]⟩ := by decide +kernel
  have longest : (idle 65535).Fits := (idle_fits_iff 65535).mpr (by omega)
  obtain ⟨payload, written⟩ := (codeAttribute_codec.2 (idle 65535)).1.mpr longest
  refine ⟨⟨_, parsed, rfl, codeAttribute_codec.1 _ _ parsed⟩,
    ⟨payload, written, (codeAttribute_codec.2 _).2 payload written⟩, ?_⟩
  intro length outside written
  have fits := (idle_fits_iff length).mp ((codeAttribute_codec.2 _).1.mp written)
  omega

end CodeAttribute
end ClassHooks
