import ClassHooks.Jar.Weaving
import ClassHooks.Proofs.Build.Items

/-!
What a jar becomes, told by its bytes alone: its entries with the classes among them woven. Weaving a
jar stores this at its destination.
-/
namespace ClassHooks.Jar

def wovenData (weave : Bytes → Except Error Outcome) (e : Entry) : Except Error Bytes :=
  if e.isClass then (weave e.data).map (·.written e.data) else .ok e.data

def renewal (weave : Bytes → Except Error Outcome) (bytes : Bytes) : Except Error Bytes := do
  let entries ← readEntries bytes
  let renewed ← entries.mapM fun e => (wovenData weave e).map e.renewed
  return writeEntries renewed

section Renewal
variable {weave : Bytes → Except Error Outcome} {s s' : Session}

theorem newData_ok {jar : Path} {e : Entry} {data : Bytes}
    (run : newData weave jar e s = .ok data s') :
    wovenData weave e = .ok data ∧ s'.tree = s.tree := by
  unfold newData at run
  unfold wovenData
  split at run
  · rename_i kind
    rw [if_pos kind]
    obtain ⟨outcome, s₁, first, run⟩ := state_bind_ok_iff.mp run
    obtain ⟨_, s₂, lifted, noted⟩ := state_bind_ok_iff.mp first
    obtain ⟨woven, rfl⟩ := RunM.lift_ok_iff.mp lifted
    obtain ⟨_, s₃, recorded, ended⟩ := state_bind_ok_iff.mp noted
    obtain rfl := RunM.record_ok_iff.mp recorded
    cases ended
    rw [mapError_ok_iff.mp woven]
    cases outcome <;> (cases run; exact ⟨rfl, rfl⟩)
  · rename_i kind
    rw [if_neg kind]
    cases run
    exact ⟨rfl, rfl⟩

theorem renewed_ok {jar : Path} {entries renewed : List Entry}
    (run : (entries.mapM fun e => do return e.renewed (← newData weave jar e)) s = .ok renewed s') :
    (entries.mapM fun e => (wovenData weave e).map e.renewed) = .ok renewed ∧ s'.tree = s.tree := by
  induction entries generalizing s renewed with
  | nil =>
    cases run
    exact ⟨rfl, rfl⟩
  | cons e entries ih =>
    rw [List.mapM_cons] at run ⊢
    obtain ⟨new, s₁, first, run⟩ := state_bind_ok_iff.mp run
    obtain ⟨data, s₂, woven, ended⟩ := state_bind_ok_iff.mp first
    cases ended
    obtain ⟨same, kept⟩ := newData_ok woven
    obtain ⟨others, s₃, rest, run⟩ := state_bind_ok_iff.mp run
    cases run
    obtain ⟨sames, kepts⟩ := ih rest
    rw [same, sames]
    exact ⟨rfl, kepts.trans kept⟩

theorem load_ok {jar : Path} {entries : List Entry} (run : load jar s = .ok entries s') :
    s = s' ∧ ∃ o bytes, s.tree.entry jar = .ok (o, .file bytes) ∧
      readEntries bytes = .ok entries := by
  unfold load at run
  split at run
  · cases run
  · rename_i o bytes found
    split at run
    · rename_i read
      cases run
      exact ⟨rfl, o, bytes, found, read⟩
    · cases run
  · cases run

theorem renew_stores {t : FileTree} {zone l o : Location} {source destination : Path}
    (sound : t.Sound) (within : FileTree.Within zone t s.tree)
    (target : t.Target zone destination l) (reads : t.ReadsAt zone source o) {done : PUnit}
    (run : renew weave source destination s = .ok done s') :
    ∃ bytes new, t.fileAt o = some bytes ∧ renewal weave bytes = .ok new ∧
      FileTree.Stores s.tree s'.tree l new ∧ FileTree.EndsNamed destination.segments := by
  obtain ⟨entries, s₁, loaded, run⟩ := state_bind_ok_iff.mp run
  obtain ⟨rfl, place, bytes, found, read⟩ := load_ok loaded
  obtain ⟨s₂, warned, run⟩ := state_when_bind_ok_iff.mp run
  have quiet : s₂.tree = s.tree := by
    split at warned <;> (cases warned; rfl)
  obtain ⟨renewed, s₃, woven, run⟩ := state_bind_ok_iff.mp run
  obtain ⟨same, kept⟩ := renewed_ok woven
  obtain ⟨_, s₄, made, run⟩ := state_bind_ok_iff.mp run
  obtain ⟨v, parent, rfl⟩ := RunM.change_ok_iff.mp made
  obtain ⟨_, s₅, stored, run⟩ := state_bind_ok_iff.mp run
  obtain ⟨w, written, rfl⟩ := RunM.change_ok_iff.mp stored
  have counted : s'.tree = w :=
    holds_of_keeps (I := fun s => s.tree = w)
      (keeps_forM (f := fun _ => RunM.record Ledger.recordResource) (fun _ _ holds => holds) _) rfl run
  rw [kept, quiet] at parent
  refine ⟨bytes, writeEntries renewed, reads.fileAt within found,
    bind_ok_iff.mpr ⟨entries, read, bind_ok_iff.mpr ⟨renewed, same, rfl⟩⟩, ?_,
    target.write_endsNamed sound within parent written⟩
  rw [counted]
  exact target.write_stores sound within parent written

end Renewal
end ClassHooks.Jar
