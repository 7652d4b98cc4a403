import ClassHooks.Proofs.Bytes.Progress
import ClassHooks.Proofs.Bytes.Reading
import ClassHooks.Proofs.Code.Frame
import ClassHooks.Code.StackMap

/-!
Stack maps are read as they were written. The frames read from one stand at rising positions, and
frames of their kinds at rising positions can be written.
-/
namespace ClassHooks
open Reader

theorem VerificationType.reads_write (t : VerificationType UInt16) (p : Nat) :
    ReadsAt VerificationType.read p t.write t := by
  cases t with
  | object c => exact reads_cons (reads_map _ (reads_u16 c _))
  | uninitialized created => exact reads_cons (reads_map _ (reads_u16 created _))
  | _ => exact reads_cons (reads_pure _ _)

namespace Frame
open VerificationType

theorem place_delta {previous : Option UInt16} {position d : UInt16}
    (behind : delta previous position = .ok d) : place previous d = position.toNat := by
  cases previous with
  | none =>
    cases behind
    rfl
  | some q =>
    unfold delta at behind
    dsimp only at behind
    split at behind
    · rename_i order
      cases behind
      rw [UInt16.lt_iff_toNat_lt] at order
      have one : (1 : UInt16).toNat = 1 := rfl
      have bound := position.toNat_lt
      simp only [place, UInt16.toNat_sub, one]
      omega
    · cases behind

theorem short_tag {d : UInt16} (short : d < 64) :
    (d.toUInt8 < 64 ∧ d.toUInt8.toUInt16 = d) ∧
      ¬ 64 + d.toUInt8 < 64 ∧ 64 + d.toUInt8 < 128 ∧ (64 + d.toUInt8 - 64).toUInt16 = d := by
  have small : d.toNat < 64 := UInt16.lt_iff_toNat_lt.mp short
  simp only [UInt8.lt_iff_toNat_lt, ← UInt16.toNat_inj, UInt8.toNat_toUInt16, UInt8.toNat_add,
    UInt8.toNat_sub, UInt16.toNat_toUInt8, UInt8.reduceToNat]
  omega

theorem reads_long {tag : UInt8} (large : 247 ≤ tag.toNat) {d : UInt16} {p : Nat} {rest : Bytes}
    {kind : UInt16 × FrameKind UInt16}
    (next : ReadsAt (do
      if tag = 247 then return (d, .sameOneItem (← VerificationType.read))
      else if tag < 251 then return (d, .chop (251 - tag))
      else if tag = 251 then return (d, .same)
      else if tag < 255 then
        return (d, .append (← Reader.repeated VerificationType.read (tag - 251).toNat))
      else
        let locals ← Reader.table VerificationType.read
        let stack ← Reader.table VerificationType.read
        return (d, .full locals stack)) (p + 1 + (Bytes.u16 d).length) rest kind) :
    ReadsAt readKind p (tag :: (Bytes.u16 d ++ rest)) kind := by
  refine reads_cons ?_
  have above : ∀ n : UInt8, n.toNat ≤ 247 → ¬ tag < n := by
    intro n bound
    rw [UInt8.lt_iff_toNat_lt]
    omega
  rw [if_neg (above 64 (by decide)), if_neg (above 128 (by decide)), if_neg (above 247 (by decide))]
  exact reads_bind (reads_u16 d _) next

theorem reads_write {frame : Frame UInt16} {d : UInt16} {bytes : Bytes}
    (written : write frame d = .ok bytes) (p : Nat) :
    ReadsAt readKind p bytes (d, frame.kind) := by
  obtain ⟨position, kind⟩ := frame
  unfold write at written
  cases kind with
  | same =>
    cases written
    split
    · rename_i short
      obtain ⟨⟨low, back⟩, _⟩ := short_tag short
      refine reads_cons ?_
      rw [if_pos low, back]
      exact reads_pure _ _
    · rw [← List.append_nil (Bytes.u16 d)]
      exact reads_long (by decide) (reads_pure _ _)
  | sameOneItem t =>
    cases written
    split
    · rename_i short
      obtain ⟨_, above, low, back⟩ := short_tag short
      refine reads_cons ?_
      rw [if_neg above, if_pos low, back]
      exact reads_map _ (t.reads_write _)
    · exact reads_long (by decide) (reads_map _ (t.reads_write _))
  | chop n =>
    dsimp only at written
    split at written
    · rename_i bounds
      cases written
      have small : n = 1 ∨ n = 2 ∨ n = 3 := by
        simp only [UInt8.le_iff_toNat_le, ← UInt8.toNat_inj, UInt8.reduceToNat] at bounds ⊢
        omega
      rw [← List.append_nil (Bytes.u16 d)]
      rcases small with rfl | rfl | rfl <;> exact reads_long (by decide) (reads_pure _ _)
    · cases written
  | append locals =>
    dsimp only at written
    split at written
    · rename_i bounds
      cases written
      have small : locals.length = 1 ∨ locals.length = 2 ∨ locals.length = 3 := by omega
      have types := reads_map (fun ls => (d, FrameKind.append ls))
        (reads_all locals (fun t _ => t.reads_write) (p + 1 + (Bytes.u16 d).length))
      rcases small with count | count | count <;>
        (rw [count] at types ⊢; exact reads_long (by decide) types)
    · cases written
  | full locals stack =>
    obtain ⟨localCount, counted, written⟩ := bind_ok_iff.mp written
    obtain ⟨stackCount, counted', made⟩ := bind_ok_iff.mp written
    obtain ⟨small, rfl⟩ := Bytes.countField_ok_iff.mp counted
    obtain ⟨small', rfl⟩ := Bytes.countField_ok_iff.mp counted'
    cases made
    have types : ∀ ts : List (VerificationType UInt16), ts.length < 65536 → ∀ q,
        ReadsAt (table VerificationType.read) q
          (Bytes.ofNat 2 ts.length ++ ts.flatMap VerificationType.write) ts :=
      fun ts few q => reads_table ts (fun t _ => t.reads_write) few q
    refine reads_long (by decide) ?_
    rw [← List.append_assoc (Bytes.ofNat 2 locals.length)]
    exact reads_bind (types locals small _) (reads_map _ (types stack small' _))

theorem reads_frames {previous : Option UInt16} {written : List Bytes}
    {frames : List (Frame UInt16)} {parts : List Bytes}
    (run : writeFrames previous written frames = .ok parts) (p : Nat)
    (read : List (Frame UInt16)) : ∃ rest, parts = written.reverse ++ rest ∧
      ReadsAt (readFrames previous read frames.length) p rest.flatten (read.reverse ++ frames) := by
  induction frames generalizing previous written p read with
  | nil =>
    cases run
    refine ⟨[], (List.append_nil _).symm, ?_⟩
    rw [List.append_nil]
    exact reads_pure _ _
  | cons frame frames ih =>
    rw [writeFrames] at run
    obtain ⟨d, behind, run⟩ := bind_ok_iff.mp run
    obtain ⟨bytes, here, run⟩ := bind_ok_iff.mp run
    obtain ⟨rest, rfl, later⟩ := ih run (p + bytes.length) (frame :: read)
    refine ⟨bytes :: rest, by simp, ?_⟩
    rw [List.flatten_cons]
    refine reads_bind (reads_write here p) ?_
    have position := place_delta behind
    have bound := frame.position.toNat_lt
    dsimp only
    rw [position, if_neg (by omega), UInt16.ofNat_toNat]
    rwa [List.reverse_cons, List.append_assoc, List.singleton_append] at later

theorem parse_written {frames : List (Frame UInt16)} {payload : Bytes}
    (written : writeTable frames = .ok payload) : parseTable payload = .ok frames := by
  obtain ⟨count, counted, written⟩ := bind_ok_iff.mp written
  obtain ⟨small, rfl⟩ := Bytes.countField_ok_iff.mp counted
  obtain ⟨parts, each, made⟩ := bind_ok_iff.mp written
  cases made
  have exact16 : (UInt16.ofNat frames.length).toNat = frames.length :=
    UInt16.toNat_ofNat_of_lt' small
  have first := reads_u16 (UInt16.ofNat frames.length) 0 parts.flatten
  rw [Bytes.u16, exact16] at first
  obtain ⟨_, rfl, read⟩ := reads_frames each (0 + (Bytes.ofNat 2 frames.length).length) []
  have second := read []
  rw [List.append_nil] at second
  rw [parseTable, Reader.run, Cursor.start, readTable]
  simp only [bind, EStateM.bind, List.reverse_nil, List.nil_append] at first second ⊢
  rw [first]
  dsimp only
  rw [exact16, second]
  rfl

theorem rising_of_readFrames {previous : Option UInt16} {read frames : List (Frame UInt16)}
    {n : Nat} {c c' : Cursor} (run : readFrames previous read n c = .ok frames c') :
    ∃ rest, frames = read.reverse ++ rest ∧ rest.Pairwise (fun f g => f.position < g.position) ∧
      ∀ q, previous = some q → ∀ f ∈ rest, q < f.position := by
  induction n generalizing previous read c with
  | zero =>
    cases run
    exact ⟨[], (List.append_nil _).symm, .nil, fun _ _ _ member => (List.not_mem_nil member).elim⟩
  | succ n ih =>
    rw [readFrames] at run
    obtain ⟨⟨d, kind⟩, c₁, _, run⟩ := state_bind_ok_iff.mp run
    dsimp only at run
    split at run
    · cases run
    · rename_i bound
      obtain ⟨rest, rfl, rising, behind⟩ := ih run
      refine ⟨⟨UInt16.ofNat (place previous d), kind⟩ :: rest, ?_,
        List.pairwise_cons.mpr ⟨behind _ rfl, rising⟩, ?_⟩
      · rw [List.reverse_cons, List.append_assoc, List.singleton_append]
      · rintro q rfl f member
        have here : q < UInt16.ofNat (place (some q) d) := by
          rw [UInt16.lt_iff_toNat_lt, UInt16.toNat_ofNat_of_lt' (by change _ < 65536; omega)]
          change q.toNat < q.toNat + d.toNat + 1
          omega
        rcases List.mem_cons.mp member with rfl | later
        · exact here
        · have further := behind _ rfl f later
          rw [UInt16.lt_iff_toNat_lt] at here further ⊢
          omega

theorem rising_of_parseTable {payload : Bytes} {frames : List (Frame UInt16)}
    (parsed : parseTable payload = .ok frames) :
    frames.Pairwise fun f g => f.position < g.position := by
  unfold parseTable Reader.run at parsed
  split at parsed
  · rename_i read
    cases parsed
    obtain ⟨n, c₁, _, read⟩ := state_bind_ok_iff.mp read
    obtain ⟨fs, c₂, run, read⟩ := state_bind_ok_iff.mp read
    obtain ⟨done, c₃, _, read⟩ := state_bind_ok_iff.mp read
    obtain ⟨rest, rfl, rising, _⟩ := rising_of_readFrames run
    split at read
    · obtain ⟨_, _, _, read⟩ := state_bind_ok_iff.mp read
      obtain ⟨_, _, thrown, _⟩ := state_bind_ok_iff.mp read
      cases thrown
    · cases read
      exact rising
  · cases parsed

def Writable : FrameKind π → Prop
  | .chop n => 1 ≤ n ∧ n ≤ 3
  | .append locals => 1 ≤ locals.length ∧ locals.length ≤ 3
  | .full locals stack => locals.length < 65536 ∧ stack.length < 65536
  | _ => True

theorem writable_map {f : π → ρ} {kind : FrameKind π} : Writable (kind.map f) ↔ Writable kind := by
  cases kind <;> simp [FrameKind.map, Writable]

theorem gives_readKind : Gives readKind 0 fun r => Writable r.2 := by
  have half : Gives u16 0 fun _ => True := gives_weaken gives_u16 (Nat.zero_le _) fun _ h => h
  have item : Gives VerificationType.read 0 fun _ => True := by
    unfold VerificationType.read
    refine gives_after (gives_weaken gives_u8 (Nat.zero_le _) fun _ holds => holds) fun tag _ => ?_
    split <;> first
      | exact gives_pure trivial
      | exact gives_after half fun _ _ => gives_pure trivial
      | exact gives_throw _
  unfold readKind
  refine gives_after (gives_weaken gives_u8 (Nat.zero_le _) fun _ holds => holds) fun tag _ => ?_
  split
  · exact gives_pure trivial
  split
  · exact gives_after item fun _ _ => gives_pure trivial
  split
  · exact gives_throw _
  rename_i long
  refine gives_after half fun d _ => ?_
  split
  · exact gives_after item fun _ _ => gives_pure trivial
  rename_i extended
  split
  · rename_i chop
    refine gives_pure ?_
    simp only [Writable, UInt8.le_iff_toNat_le, UInt8.lt_iff_toNat_lt, ← UInt8.toNat_inj,
      UInt8.toNat_sub, UInt8.reduceToNat] at long extended chop ⊢
    omega
  rename_i above
  split
  · exact gives_pure trivial
  rename_i same
  split
  · rename_i append
    refine gives_after (gives_repeated item _) fun ls ⟨length, _⟩ => gives_pure ?_
    simp only [Writable, length, UInt8.lt_iff_toNat_lt, ← UInt8.toNat_inj, UInt8.toNat_sub,
      UInt8.reduceToNat] at above same append ⊢
    omega
  · exact gives_after (gives_table item) fun ls ⟨few, _⟩ =>
      gives_after (gives_table item) fun ss ⟨few', _⟩ => gives_pure ⟨few, few'⟩

theorem gives_readFrames (n : Nat) (previous : Option UInt16) (read : List (Frame UInt16))
    (before : ∀ f ∈ read, Writable f.kind) :
    Gives (readFrames previous read n) 0 fun fs =>
      fs.length = read.length + n ∧ ∀ f ∈ fs, Writable f.kind := by
  induction n generalizing previous read with
  | zero => exact gives_pure ⟨by simp, fun f member => before f (List.mem_reverse.mp member)⟩
  | succ n ih =>
    refine gives_after gives_readKind fun r kind => ?_
    obtain ⟨d, kind'⟩ := r
    dsimp only
    split
    · intro c a c' run
      cases run
    · refine gives_weaken (ih _ _ (List.forall_mem_cons.mpr ⟨kind, before⟩)) (Nat.le_refl _)
        fun fs ⟨length, all⟩ => ⟨?_, all⟩
      rw [length, List.length_cons]
      omega

theorem writable_of_parse {payload : Bytes} {frames : List (Frame UInt16)}
    (parsed : parseTable payload = .ok frames) :
    frames.length < 65536 ∧ ∀ f ∈ frames, Writable f.kind := by
  have half : Gives u16 0 fun _ => True := gives_weaken gives_u16 (Nat.zero_le _) fun _ h => h
  have whole : Gives readTable 0 fun fs : List (Frame UInt16) =>
      fs.length < 65536 ∧ ∀ f ∈ fs, Writable f.kind := by
    unfold readTable
    refine gives_after half fun n _ => ?_
    refine gives_after (gives_readFrames n.toNat none [] nofun) fun fs ⟨length, all⟩ => ?_
    rw [List.length_nil, Nat.zero_add] at length
    refine gives_atEnd ⟨length ▸ n.toNat_lt, all⟩
  exact holds_of_run whole parsed

theorem writes_frame {frame : Frame UInt16} (writable : Writable frame.kind) (d : UInt16) :
    ∃ bytes, write frame d = .ok bytes := by
  obtain ⟨position, kind⟩ := frame
  cases kind with
  | chop n => exact ⟨_, if_pos writable⟩
  | append locals => exact ⟨_, if_pos writable⟩
  | full locals stack =>
    exact ⟨_, bind_ok_iff.mpr ⟨_, Bytes.countField_ok_iff.mpr ⟨writable.1, rfl⟩,
      bind_ok_iff.mpr ⟨_, Bytes.countField_ok_iff.mpr ⟨writable.2, rfl⟩, rfl⟩⟩⟩
  | _ => exact ⟨_, rfl⟩

theorem writes_frames {frames : List (Frame UInt16)} (writable : ∀ f ∈ frames, Writable f.kind)
    (rising : frames.Pairwise fun f g => f.position < g.position) (previous : Option UInt16)
    (behind : ∀ p ∈ previous, ∀ f ∈ frames, p < f.position) (written : List Bytes) :
    ∃ parts, writeFrames previous written frames = .ok parts := by
  induction frames generalizing previous written with
  | nil => exact ⟨_, rfl⟩
  | cons frame frames ih =>
    obtain ⟨here, later⟩ := List.forall_mem_cons.mp writable
    obtain ⟨first, rising⟩ := List.pairwise_cons.mp rising
    obtain ⟨d, distance⟩ : ∃ d, delta previous frame.position = .ok d := by
      cases previous with
      | none => exact ⟨_, rfl⟩
      | some p => exact ⟨_, if_pos (behind p rfl frame (List.mem_cons_self ..))⟩
    obtain ⟨bytes, one⟩ := writes_frame here d
    obtain ⟨parts, others⟩ := ih later rising (some frame.position)
      (fun p same => by cases same; exact first) (bytes :: written)
    exact ⟨parts, bind_ok_iff.mpr ⟨d, distance, bind_ok_iff.mpr ⟨bytes, one, others⟩⟩⟩

theorem writes {frames : List (Frame UInt16)} (few : frames.length < 65536)
    (writable : ∀ f ∈ frames, Writable f.kind)
    (rising : frames.Pairwise fun f g => f.position < g.position) :
    ∃ payload, writeTable frames = .ok payload := by
  obtain ⟨parts, each⟩ := writes_frames writable rising none nofun []
  exact ⟨_, bind_ok_iff.mpr ⟨_, Bytes.countField_ok_iff.mpr ⟨few, rfl⟩,
    bind_ok_iff.mpr ⟨parts, each, rfl⟩⟩⟩

end Frame
end ClassHooks
