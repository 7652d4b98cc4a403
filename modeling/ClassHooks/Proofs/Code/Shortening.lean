import ClassHooks.Proofs.Bytes.Taking
import ClassHooks.Proofs.Code.StackMap

/-!
Stack maps written again. Frames can be written exactly if there are not too many of them, they
stand at rising positions, and each has as many parts as its kind can count. Frames that were read
can be written in no more bytes, for a distance is written in its short form wherever it has one.
-/
namespace ClassHooks
open Reader

theorem VerificationType.takes_read (p : Nat) :
    TakesAt VerificationType.read p fun t bs => bs = t.write := by
  unfold VerificationType.read
  refine takes_bind takes_u8 ?_
  rintro tag _ rfl
  split
  case h_8 => exact takes_field takes_u16 fun c => takes_pure rfl
  case h_9 => exact takes_field takes_u16 fun created => takes_pure rfl
  case h_10 => exact takes_throw _
  all_goals exact takes_pure rfl

namespace Frame
open VerificationType

def Shortens (r : UInt16 × FrameKind UInt16) (bs : Bytes) : Prop :=
  ∀ position, ∃ again, write ⟨position, r.2⟩ r.1 = .ok again ∧ again.length ≤ bs.length

theorem shortens_same {d : UInt16} {bs : Bytes} (long : d < 64 ∨ 2 < bs.length)
    (some : 0 < bs.length) : Shortens (d, .same) bs := by
  intro position
  refine ⟨_, rfl, ?_⟩
  split
  · exact some
  · rename_i far
    exact long.resolve_left far

theorem shortens_sameOneItem {d : UInt16} {t : VerificationType UInt16} {bs : Bytes}
    (long : d < 64 ∨ 2 < bs.length) (some : 0 < bs.length) :
    Shortens (d, .sameOneItem t) (bs ++ t.write) := by
  intro position
  refine ⟨_, rfl, ?_⟩
  rw [List.length_append, List.length_append]
  apply Nat.add_le_add_right
  split
  · exact some
  · rename_i far
    exact long.resolve_left far

theorem short_of_tag {tag : UInt8} (low : tag < 128) :
    (tag < 64 → tag.toUInt16 < 64) ∧ (¬ tag < 64 → (tag - 64).toUInt16 < 64) := by
  simp only [UInt8.lt_iff_toNat_lt, UInt16.lt_iff_toNat_lt, UInt8.toNat_toUInt16,
    UInt8.reduceToNat] at low ⊢
  refine ⟨fun small => small, fun large => ?_⟩
  have least : 64 ≤ tag := by
    rw [UInt8.le_iff_toNat_le]
    exact Nat.not_lt.mp large
  rw [UInt8.toNat_sub_of_le _ _ least]
  change tag.toNat - 64 < 64
  omega

theorem takes_readKind (p : Nat) : TakesAt readKind p Shortens := by
  unfold readKind
  refine takes_bind takes_u8 ?_
  rintro tag _ rfl
  split
  · rename_i same
    have low : tag < 128 := UInt8.lt_trans same (by decide)
    exact takes_pure (shortens_same (.inl ((short_of_tag low).1 same)) Nat.one_pos)
  rename_i above
  split
  · rename_i low
    refine takes_map (takes_mono (takes_read _) ?_)
    rintro t _ rfl
    exact shortens_sameOneItem (.inl ((short_of_tag low).2 above)) Nat.one_pos
  split
  · exact takes_throw _
  rename_i long
  refine takes_field takes_u16 fun d => ?_
  have extended : 2 < (tag :: Bytes.u16 d).length := by simp
  split
  · refine takes_map (takes_mono (takes_read _) ?_)
    rintro t _ rfl
    exact shortens_sameOneItem (.inr extended) (Nat.zero_lt_of_lt extended)
  rename_i other
  split
  · rename_i chop
    have counted : 1 ≤ 251 - tag ∧ 251 - tag ≤ 3 := by
      simp only [UInt8.le_iff_toNat_le, UInt8.lt_iff_toNat_lt, ← UInt8.toNat_inj, UInt8.toNat_sub,
        UInt8.reduceToNat] at long other chop ⊢
      omega
    exact takes_pure fun position => ⟨_, if_pos counted, by simp⟩
  rename_i above
  split
  · refine takes_pure (shortens_same (.inr ?_) ?_) <;> simp
  rename_i same
  split
  · rename_i append
    refine takes_map (takes_mono (takes_repeated takes_read _ _) ?_)
    rintro ls _ ⟨count, parts, related, rfl⟩ position
    have counted : 1 ≤ ls.length ∧ ls.length ≤ 3 := by
      simp only [count, UInt8.lt_iff_toNat_lt, ← UInt8.toNat_inj, UInt8.toNat_sub,
        UInt8.reduceToNat] at above same append ⊢
      omega
    refine ⟨_, if_pos counted, ?_⟩
    rw [eq_map_of_related related]
    simp [List.flatMap_def]
  · refine takes_bind (takes_table takes_read _) ?_
    rintro ls _ ⟨few, parts, related, rfl⟩
    refine takes_map (takes_mono (takes_table takes_read _) ?_)
    rintro ss _ ⟨few', parts', related', rfl⟩ position
    refine ⟨_, bind_ok_iff.mpr ⟨_, Bytes.countField_ok_iff.mpr ⟨few, rfl⟩,
      bind_ok_iff.mpr ⟨_, Bytes.countField_ok_iff.mpr ⟨few', rfl⟩, rfl⟩⟩, ?_⟩
    rw [eq_map_of_related related, eq_map_of_related related']
    simp [List.flatMap_def]

theorem delta_place {previous : Option UInt16} {d : UInt16} (inside : place previous d ≤ 65535) :
    delta previous (UInt16.ofNat (place previous d)) = .ok d := by
  cases previous with
  | none => exact congrArg Except.ok UInt16.ofNat_toNat
  | some q =>
    have exact16 : (UInt16.ofNat (place (some q) d)).toNat = q.toNat + d.toNat + 1 :=
      UInt16.toNat_ofNat_of_lt' (Nat.lt_succ_of_le inside)
    have one : (1 : UInt16).toNat = 1 := rfl
    have behind : q < UInt16.ofNat (place (some q) d) := by
      rw [UInt16.lt_iff_toNat_lt, exact16]
      omega
    have distance : UInt16.ofNat (place (some q) d) - q - 1 = d := by
      change q.toNat + d.toNat + 1 ≤ 65535 at inside
      rw [← UInt16.toNat_inj, UInt16.toNat_sub, UInt16.toNat_sub, exact16, one]
      omega
    rw [delta, if_pos behind, distance]

theorem takes_readFrames (n : Nat) (previous : Option UInt16) (read : List (Frame UInt16))
    (p : Nat) : TakesAt (readFrames previous read n) p fun fs bs =>
      ∃ frames, fs = read.reverse ++ frames ∧ ∀ written, ∃ parts,
        writeFrames previous written frames = .ok (written.reverse ++ parts) ∧
          parts.flatten.length ≤ bs.length := by
  induction n generalizing previous read p with
  | zero =>
    refine takes_pure ⟨[], (List.append_nil _).symm, fun written => ⟨[], ?_, Nat.le_refl _⟩⟩
    rw [List.append_nil]
    rfl
  | succ n ih =>
    rw [readFrames]
    refine takes_bind (takes_readKind p) ?_
    rintro ⟨d, kind⟩ bs here
    dsimp only
    refine takes_guard fun inside => ?_
    refine takes_mono (ih (some (UInt16.ofNat (place previous d)))
      (⟨UInt16.ofNat (place previous d), kind⟩ :: read) _) ?_
    rintro fs more ⟨frames, rfl, later⟩
    refine ⟨⟨UInt16.ofNat (place previous d), kind⟩ :: frames, by simp, fun written => ?_⟩
    obtain ⟨again, first, less⟩ := here (UInt16.ofNat (place previous d))
    obtain ⟨parts, rest, less'⟩ := later (again :: written)
    refine ⟨again :: parts, ?_, ?_⟩
    · rw [writeFrames]
      refine bind_ok_iff.mpr ⟨d, delta_place (Nat.not_lt.mp inside), ?_⟩
      refine bind_ok_iff.mpr ⟨again, first, ?_⟩
      rw [rest, List.reverse_cons, List.append_assoc, List.singleton_append]
    · rw [List.flatten_cons, List.length_append, List.length_append]
      exact Nat.add_le_add less less'

theorem takes_readTable (p : Nat) : TakesAt readTable p fun frames bs =>
    frames.length < 65536 → ∃ again, writeTable frames = .ok again ∧ again.length ≤ bs.length := by
  unfold readTable
  refine takes_field takes_u16 fun n => ?_
  refine takes_bind (takes_readFrames n.toNat none [] _) ?_
  rintro frames bs ⟨_, rfl, written⟩
  refine takes_atEnd fun few => ?_
  obtain ⟨parts, each, less⟩ := written []
  rw [List.reverse_nil, List.nil_append] at each
  refine ⟨Bytes.ofNat 2 frames.length ++ parts.flatten, bind_ok_iff.mpr
    ⟨_, Bytes.countField_ok_iff.mpr ⟨few, rfl⟩, bind_ok_iff.mpr ⟨parts, each, rfl⟩⟩, ?_⟩
  simpa using less

/-- What was read can be written, in no more bytes. -/
theorem shorter_of_parse {payload : Bytes} {frames : List (Frame UInt16)}
    (parsed : parseTable payload = .ok frames) :
    ∃ again, writeTable frames = .ok again ∧ again.length ≤ payload.length := by
  have finishes : Finishes readTable :=
    finishes_bind fun n => finishes_bind fun frames => finishes_atEnd
  exact taken_of_run (takes_readTable 0) finishes parsed (writable_of_parse parsed).1

theorem writeTable_ok_iff {frames : List (Frame UInt16)} :
    (∃ payload, writeTable frames = .ok payload) ↔ frames.length ≤ 65535 ∧
      frames.Pairwise (fun f g => f.position < g.position) ∧ ∀ f ∈ frames, Writable f.kind := by
  constructor
  · rintro ⟨payload, written⟩
    have parsed := parse_written written
    obtain ⟨few, writable⟩ := writable_of_parse parsed
    exact ⟨Nat.le_of_lt_succ few, rising_of_parseTable parsed, writable⟩
  · rintro ⟨few, rising, writable⟩
    exact writes (Nat.lt_succ_of_le few) writable rising

/-- Stack maps hold the lists of frames that rise, are not too long and are of kinds that can be
written, and no others. They are read as they were written; what was read is written in no more
bytes, and is read from them again. -/
theorem stackMap_codec :
    (∀ frames, ((∃ payload, writeTable frames = .ok payload) ↔ frames.length ≤ 65535 ∧
        frames.Pairwise (fun f g => f.position < g.position) ∧ ∀ f ∈ frames, Writable f.kind) ∧
      ∀ payload, writeTable frames = .ok payload → parseTable payload = .ok frames) ∧
    ∀ payload frames, parseTable payload = .ok frames → ∃ again,
      writeTable frames = .ok again ∧ again.length ≤ payload.length ∧
        parseTable again = .ok frames := by
  refine ⟨fun frames => ⟨writeTable_ok_iff, fun payload => parse_written⟩, ?_⟩
  intro payload frames parsed
  obtain ⟨again, written, less⟩ := shorter_of_parse parsed
  exact ⟨again, written, less, parse_written written⟩

def mixedForms : Bytes :=
  [0, 3, 251, 0, 63, 127, 5, 247, 0, 64, 8, 0, 2]

theorem mixedForms_codec : ∃ frames, parseTable mixedForms = .ok frames ∧
    frames.map Frame.position = [63, 127, 192] ∧ ∃ again, writeTable frames = .ok again ∧
      again.length ≤ mixedForms.length ∧ parseTable again = .ok frames := by
  have parsed : parseTable mixedForms = .ok
      [⟨63, .same⟩, ⟨127, .sameOneItem .null⟩, ⟨192, .sameOneItem (.uninitialized 2)⟩] := by
    decide +kernel
  exact ⟨_, parsed, rfl, stackMap_codec.2 _ _ parsed⟩

end Frame
end ClassHooks
