import ClassHooks.Proofs.Bytes.Progress
import ClassHooks.Proofs.Bytes.Reading
import ClassHooks.Code.DebugTable

/-!
Tables of lines and of local variables are read as they were written, and what was read has not too
many entries to be written.
-/
namespace ClassHooks
open Reader

theorem LineEntry.reads_write (e : LineEntry) (p : Nat) : ReadsAt LineEntry.read p e.write e :=
  reads_bind (reads_u16 e.start p) (reads_map _ (reads_u16 e.line _))

theorem LineEntry.parse_written {entries : List LineEntry} {payload : Bytes}
    (written : writeTable entries = .ok payload) : parseTable payload = .ok entries := by
  obtain ⟨count, counted, made⟩ := bind_ok_iff.mp written
  obtain ⟨small, rfl⟩ := Bytes.countField_ok_iff.mp counted
  cases made
  exact run_of_reads (reads_table entries (fun e _ => e.reads_write) small 0)

theorem LineEntry.few_of_parse {entries : List LineEntry} {payload : Bytes}
    (parsed : parseTable payload = .ok entries) : entries.length < 65536 := by
  have half : Gives u16 0 fun _ => True := gives_weaken gives_u16 (Nat.zero_le _) fun _ h => h
  have entry : Gives LineEntry.read 0 fun _ => True :=
    gives_after half fun _ _ => gives_after half fun _ _ => gives_pure trivial
  exact (holds_of_run (gives_table entry) parsed).1

theorem LineEntry.writes {entries : List LineEntry} (few : entries.length < 65536) :
    ∃ payload, writeTable entries = .ok payload :=
  ⟨_, bind_ok_iff.mpr ⟨_, Bytes.countField_ok_iff.mpr ⟨few, rfl⟩, rfl⟩⟩

theorem VariableEntry.reads_write (e : VariableEntry) (p : Nat) :
    ReadsAt VariableEntry.read p e.write e :=
  reads_bind (reads_u16 e.start p) (reads_bind (reads_u16 e.length _)
    (reads_bind (reads_u16 e.name _) (reads_bind (reads_u16 e.descriptor _)
      (reads_map _ (reads_u16 e.index _)))))

theorem VariableEntry.parse_written {entries : List VariableEntry} {payload : Bytes}
    (written : writeTable entries = .ok payload) : parseTable payload = .ok entries := by
  obtain ⟨count, counted, made⟩ := bind_ok_iff.mp written
  obtain ⟨small, rfl⟩ := Bytes.countField_ok_iff.mp counted
  cases made
  exact run_of_reads (reads_table entries (fun e _ => e.reads_write) small 0)

theorem VariableEntry.few_of_parse {entries : List VariableEntry} {payload : Bytes}
    (parsed : parseTable payload = .ok entries) : entries.length < 65536 := by
  have half : Gives u16 0 fun _ => True := gives_weaken gives_u16 (Nat.zero_le _) fun _ h => h
  have entry : Gives VariableEntry.read 0 fun _ => True :=
    gives_after half fun _ _ => gives_after half fun _ _ => gives_after half fun _ _ =>
      gives_after half fun _ _ => gives_after half fun _ _ => gives_pure trivial
  exact (holds_of_run (gives_table entry) parsed).1

theorem VariableEntry.writes {entries : List VariableEntry} (few : entries.length < 65536) :
    ∃ payload, writeTable entries = .ok payload :=
  ⟨_, bind_ok_iff.mpr ⟨_, Bytes.countField_ok_iff.mpr ⟨few, rfl⟩, rfl⟩⟩

end ClassHooks
