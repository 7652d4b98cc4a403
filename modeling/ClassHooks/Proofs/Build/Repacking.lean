import Mathlib
import ClassHooks.Proofs.Build.Renewal
import ClassHooks.Proofs.Weaving.Unit

/-!
Packing a jar anew with its classes woven by workers, which push their results in any order. The
results are put back by index, so the new jar and the counts are those of weaving in order.
-/
namespace ClassHooks

def Outcome.replacement : Outcome → Option Bytes
  | .woven bytes _ _ => some bytes
  | .unchanged => none

theorem Outcome.getD_replacement (outcome : Outcome) (bytes : Bytes) :
    outcome.replacement.getD bytes = outcome.written bytes := by
  cases outcome <;> rfl

namespace Jar

/-- A library that reads and writes jars as lists of entries. -/
structure Library where
  read : Bytes → Except Error (List Entry)
  write : List Entry → Except Error Bytes

/-- The entry for the new jar. A directory is handed over without data. -/
def Entry.handed (e : Entry) (replacement : Option Bytes) : Entry :=
  if e.isDirectory then ⟨e.name, [], e.stored, .earliest⟩
  else ⟨e.name, replacement.getD e.data, e.stored, .earliest⟩

def Entry.laid (e : Entry) : Entry := if e.isDirectory then { e with stored := true } else e

def zip : Library := ⟨readEntries, fun entries => .ok (writeEntries (entries.map Entry.laid))⟩

def classesFrom (first : Nat) (entries : List Entry) : List (Entry × Nat) :=
  (entries.zipIdx first).filter fun p => p.1.isClass

/-- The order in which the workers take the classes, and that in which they push their results. -/
structure Schedule where
  work : List Entry → List (Entry × Nat)
  push : List (Nat × Option Bytes) → List (Nat × Option Bytes)
  works : ∀ entries, (work entries).Perm (classesFrom 0 entries)
  pushes : ∀ results, (push results).Perm results

def Schedule.sequential : Schedule := ⟨classesFrom 0, id, fun _ => .refl _, fun _ => .refl _⟩

def weaveClasses (weave : Bytes → Except Error Outcome) (jar : Path) (work : List (Entry × Nat)) :
    RunM (List (Nat × Option Bytes)) :=
  work.mapM fun p => do return (p.2, (← weaveEntry weave jar p.1).replacement)

def gather (count : Nat) (results : List (Nat × Option Bytes)) : List (Option Bytes) :=
  results.foldl (fun found r => found.set r.1 r.2) (List.replicate count none)

def Library.load (library : Library) (jar : Path) : RunM (List Entry) := fun s =>
  match s.tree.entry jar with
  | .error fault => .error (.file fault) s
  | .ok (_, .file bytes) =>
    match library.read bytes with
    | .ok entries => .ok entries s
    | .error e => .error e s
  | .ok _ => .error .archive s

def deliver (library : Library) (destination : Path) (entries : List Entry)
    (found : List (Option Bytes)) : RunM Unit := do
  let bytes ← RunM.lift (library.write (List.zipWith Entry.handed entries found))
  RunM.change (·.createParent destination) none
  RunM.change (·.writeFile destination bytes) none
  (entries.zip found).forM fun p =>
    if !p.1.isDirectory && !p.1.isClass && p.2.isNone then RunM.record Ledger.recordResource
    else pure ()

def repack (library : Library) (schedule : Schedule) (weave : Bytes → Except Error Outcome)
    (source destination : Path) : RunM Unit := do
  let entries ← library.load source
  if entries.any Entry.isSignature then
    RunM.warn (source.text ++ " is signed; rewriting its classes invalidates the signature")
  let results ← weaveClasses weave source (schedule.work entries)
  deliver library destination entries (gather entries.length (schedule.push results))

section Weaving
variable (weave : Bytes → Except Error Outcome)

def outcomeOf (e : Entry) : Outcome := (weave e.data).toOption.getD .unchanged

def resultOf (p : Entry × Nat) : Nat × Option Bytes := (p.2, (outcomeOf weave p.1).replacement)

def replacementOf (e : Entry) : Option Bytes :=
  if e.isClass then (outcomeOf weave e).replacement else none

def note (ledger : Ledger) (p : Entry × Nat) : Ledger := ledger.recordUnit (outcomeOf weave p.1)

variable {weave : Bytes → Except Error Outcome} {s s' : Session} {jar : Path}

theorem outcomeOf_eq {e : Entry} {outcome : Outcome} (woven : weave e.data = .ok outcome) :
    outcomeOf weave e = outcome := by
  rw [outcomeOf, woven]
  rfl

theorem weaveEntry_ok_iff {e : Entry} {outcome : Outcome} :
    weaveEntry weave jar e s = .ok outcome s' ↔
      weave e.data = .ok outcome ∧ s' = { s with ledger := s.ledger.recordUnit outcome } := by
  constructor
  · intro run
    obtain ⟨_, s₁, lifted, run⟩ := state_bind_ok_iff.mp run
    obtain ⟨woven, rfl⟩ := RunM.lift_ok_iff.mp lifted
    cases run
    exact ⟨mapError_ok_iff.mp woven, rfl⟩
  · rintro ⟨woven, rfl⟩
    exact state_bind_ok_iff.mpr ⟨_, _, RunM.lift_ok_iff.mpr ⟨mapError_ok_iff.mpr woven, rfl⟩, rfl⟩

theorem weaveClasses_cons (p : Entry × Nat) (work : List (Entry × Nat)) :
    weaveClasses weave jar (p :: work) = do
      let outcome ← weaveEntry weave jar p.1
      let results ← weaveClasses weave jar work
      return (p.2, outcome.replacement) :: results := by
  unfold weaveClasses
  rw [List.mapM_cons, bind_assoc]
  simp only [pure_bind]

theorem weaveClasses_ok_iff {work : List (Entry × Nat)} {results : List (Nat × Option Bytes)} :
    weaveClasses weave jar work s = .ok results s' ↔
      (∀ p ∈ work, weave p.1.data = .ok (outcomeOf weave p.1)) ∧
        results = work.map (resultOf weave) ∧
        s' = { s with ledger := work.foldl (note weave) s.ledger } := by
  induction work generalizing s results with
  | nil =>
    rw [weaveClasses, List.mapM_nil, state_pure_ok_iff]
    simp [eq_comm]
  | cons p work ih =>
    rw [weaveClasses_cons, List.forall_mem_cons, List.map_cons, List.foldl_cons]
    constructor
    · intro run
      obtain ⟨outcome, s₁, woven, run⟩ := state_bind_ok_iff.mp run
      obtain ⟨holds, rfl⟩ := weaveEntry_ok_iff.mp woven
      obtain ⟨others, s₂, rest, run⟩ := state_bind_ok_iff.mp run
      cases run
      obtain ⟨all, rfl, rfl⟩ := ih.mp rest
      have same := outcomeOf_eq holds
      exact ⟨⟨same ▸ holds, all⟩, by rw [resultOf, same], by rw [note, same]⟩
    · rintro ⟨⟨holds, all⟩, rfl, rfl⟩
      refine state_bind_ok_iff.mpr ⟨_, _, weaveEntry_ok_iff.mpr ⟨holds, rfl⟩, ?_⟩
      exact state_bind_ok_iff.mpr ⟨_, _, ih.mpr ⟨all, rfl, rfl⟩, rfl⟩

end Weaving

section Order
variable {weave : Bytes → Except Error Outcome} {entries : List Entry}

theorem classesFrom_cons (first : Nat) (e : Entry) (entries : List Entry) :
    classesFrom first (e :: entries) =
      if e.isClass then (e, first) :: classesFrom (first + 1) entries
      else classesFrom (first + 1) entries := by
  rw [classesFrom, List.zipIdx_cons, List.filter_cons]
  rfl

theorem classesFrom_indices (first : Nat) (entries : List Entry) :
    ((classesFrom first entries).map Prod.snd).Nodup := by
  have part : ((classesFrom first entries).map Prod.snd).Sublist
      ((entries.zipIdx first).map Prod.snd) := List.filter_sublist.map _
  rw [List.zipIdx_map_snd] at part
  exact part.nodup List.nodup_range'

theorem classesFrom_entries (first : Nat) (entries : List Entry) :
    (classesFrom first entries).map Prod.fst = entries.filter Entry.isClass := by
  induction entries generalizing first with
  | nil => rfl
  | cons e entries ih =>
    rw [classesFrom_cons, List.filter_cons]
    split
    · rw [List.map_cons, ih]
    · exact ih _

theorem gather_perm {results results' : List (Nat × Option Bytes)} (count : Nat)
    (perm : results.Perm results') (once : (results.map Prod.fst).Nodup) :
    gather count results = gather count results' := by
  refine perm.foldl_eq' ?_ _
  intro r member r' member' found
  by_cases same : r.1 = r'.1
  · obtain rfl := List.inj_on_of_nodup_map once member member' same
    rfl
  · exact List.set_comm _ _ same

theorem foldl_set_classes (pre : List (Option Bytes)) (entries : List Entry) :
    ((classesFrom pre.length entries).map (resultOf weave)).foldl
        (fun found r => found.set r.1 r.2) (pre ++ List.replicate entries.length none) =
      pre ++ entries.map (replacementOf weave) := by
  induction entries generalizing pre with
  | nil => simp [classesFrom]
  | cons e entries ih =>
    have next := ih (pre ++ [replacementOf weave e])
    simp only [List.length_append, List.length_singleton, List.append_assoc,
      List.singleton_append] at next
    rw [classesFrom_cons, List.length_cons, List.replicate_succ, List.map_cons, ← next]
    split
    · rename_i kind
      rw [List.map_cons, List.foldl_cons, resultOf, List.set_append_right _ _ (Nat.le_refl _)]
      simp [replacementOf, kind]
    · rename_i kind
      simp [replacementOf, kind]

theorem gather_classes (entries : List Entry) :
    gather entries.length ((classesFrom 0 entries).map (resultOf weave)) =
      entries.map (replacementOf weave) :=
  foldl_set_classes [] entries

theorem recordUnit_comm (ledger : Ledger) (one two : Outcome) :
    (ledger.recordUnit one).recordUnit two = (ledger.recordUnit two).recordUnit one := by
  cases one <;> cases two <;> simp [Ledger.recordUnit, Nat.add_right_comm]

theorem notes_perm {work work' : List (Entry × Nat)} (perm : work.Perm work') (ledger : Ledger) :
    work.foldl (note weave) ledger = work'.foldl (note weave) ledger :=
  perm.foldl_eq' (fun _ _ _ _ _ => recordUnit_comm _ _ _) _

theorem gather_schedule (schedule : Schedule) (entries : List Entry) :
    gather entries.length (schedule.push ((schedule.work entries).map (resultOf weave))) =
      entries.map (replacementOf weave) := by
  have perm := (schedule.pushes _).trans ((schedule.works entries).map (resultOf weave))
  rw [← gather_classes]
  refine gather_perm _ perm ((perm.map Prod.fst).nodup_iff.mpr ?_)
  have same : ((classesFrom 0 entries).map (resultOf weave)).map Prod.fst =
      (classesFrom 0 entries).map Prod.snd := List.map_map ..
  rw [same]
  exact classesFrom_indices 0 entries

end Order

section Sequential
variable {weave : Bytes → Except Error Outcome}

theorem newData_class {jar : Path} {e : Entry} {s s' : Session} {outcome : Outcome}
    (kind : e.isClass = true) (run : weaveEntry weave jar e s = .ok outcome s') :
    newData weave jar e s = .ok ((replacementOf weave e).getD e.data) s' := by
  have holds := outcomeOf_eq (weaveEntry_ok_iff.mp run).1
  unfold newData
  rw [if_pos kind, replacementOf, if_pos kind, holds, state_bind_of_ok run]
  cases outcome <;> rfl

theorem newData_class_error {jar : Path} {e : Entry} {s s' : Session} {err : Error}
    (kind : e.isClass = true) (run : weaveEntry weave jar e s = .error err s') :
    newData weave jar e s = .error err s' := by
  unfold newData
  rw [if_pos kind]
  exact state_bind_of_error run

theorem newData_plain {jar : Path} {e : Entry} (kind : ¬ e.isClass = true) (s : Session) :
    newData weave jar e s = .ok ((replacementOf weave e).getD e.data) s := by
  unfold newData
  rw [if_neg kind, replacementOf, if_neg kind]
  rfl

/-- Weaving entry by entry is weaving the classes among them. -/
theorem renewed_eq (weave : Bytes → Except Error Outcome) (jar : Path) (first : Nat)
    (entries : List Entry) (s : Session) :
    (entries.mapM fun e => do return e.renewed (← newData weave jar e)) s =
      match weaveClasses weave jar (classesFrom first entries) s with
      | .ok _ s' =>
        .ok (entries.map fun e => e.renewed ((replacementOf weave e).getD e.data)) s'
      | .error e s' => .error e s' := by
  induction entries generalizing first s with
  | nil => rfl
  | cons e entries ih =>
    rw [List.mapM_cons, classesFrom_cons, bind_assoc]
    simp only [pure_bind]
    -- What is left after the first entry.
    have rest : ∀ (data : Bytes) (t : Session), data = (replacementOf weave e).getD e.data →
        ((entries.mapM fun e => do return e.renewed (← newData weave jar e)) >>= fun others =>
          pure (e.renewed data :: others)) t =
        match weaveClasses weave jar (classesFrom (first + 1) entries) t with
        | .ok _ s' => .ok ((e :: entries).map fun e =>
            e.renewed ((replacementOf weave e).getD e.data)) s'
        | .error e s' => .error e s' := by
      rintro _ t rfl
      have here := ih (first + 1) t
      split at here
      · rename_i run
        rw [state_bind_of_ok here]
        rfl
      · rename_i run
        rw [state_bind_of_error here]
    by_cases kind : e.isClass = true
    · rw [if_pos kind, weaveClasses_cons]
      cases run : weaveEntry weave jar e s with
      | error err s₁ =>
        rw [state_bind_of_error (newData_class_error kind run), state_bind_of_error run]
      | ok outcome s₁ =>
        rw [state_bind_of_ok (newData_class kind run), rest _ _ rfl, state_bind_of_ok run]
        cases later : weaveClasses weave jar (classesFrom (first + 1) entries) s₁ with
        | error err s₂ => rw [state_bind_of_error later]
        | ok results s₂ =>
          rw [state_bind_of_ok later]
          rfl
    · rw [if_neg kind, state_bind_of_ok (newData_plain kind s), rest _ _ rfl]

theorem laid_handed (e : Entry) (replacement : Option Bytes) :
    (e.handed replacement).laid = e.renewed (replacement.getD e.data) := by
  unfold Entry.handed Entry.laid Entry.renewed
  split
  · rename_i directory
    exact if_pos directory
  · rename_i file
    exact if_neg file

theorem forM_resources (entries : List Entry) :
    ((entries.zip (entries.map (replacementOf weave))).forM fun p =>
      if !p.1.isDirectory && !p.1.isClass && p.2.isNone then RunM.record Ledger.recordResource
      else pure ()) =
    (entries.filter Entry.isResource).forM fun _ => RunM.record Ledger.recordResource := by
  induction entries with
  | nil => rfl
  | cons e entries ih =>
    have kind : (!e.isDirectory && !e.isClass && (replacementOf weave e).isNone) =
        e.isResource := by
      unfold replacementOf Entry.isResource
      cases e.isClass <;> simp
    rw [List.map_cons, List.zip_cons_cons, List.forM, List.filter_cons, kind, ih]
    cases e.isResource
    · exact pure_bind ..
    · rfl

theorem zipWith_handed (entries : List Entry) :
    List.zipWith Entry.handed entries (entries.map (replacementOf weave)) =
      entries.map fun e => e.handed (replacementOf weave e) := by
  rw [List.zipWith_map_right, List.zipWith_self]

theorem write_handed (entries : List Entry) :
    zip.write (entries.map fun e => e.handed (replacementOf weave e)) =
      .ok (writeEntries (entries.map fun e =>
        e.renewed ((replacementOf weave e).getD e.data))) := by
  refine congrArg (fun es => Except.ok (writeEntries es)) ?_
  rw [List.map_map]
  exact List.map_congr_left fun e _ => laid_handed e _

theorem renew_eq (weave : Bytes → Except Error Outcome) (source destination : Path) :
    renew weave source destination = repack zip .sequential weave source destination := by
  have after : ∀ entries : List Entry, (do
      let renewed ← entries.mapM fun e => do return e.renewed (← newData weave source e)
      RunM.change (·.createParent destination) none
      RunM.change (·.writeFile destination (writeEntries renewed)) none
      (entries.filter Entry.isResource).forM fun _ => RunM.record Ledger.recordResource) = (do
      let results ← weaveClasses weave source (classesFrom 0 entries)
      deliver zip destination entries (gather entries.length results)) := by
    intro entries
    funext s
    have woven := renewed_eq weave source 0 entries s
    cases run : weaveClasses weave source (classesFrom 0 entries) s with
    | error e s' =>
      rw [run] at woven
      rw [state_bind_of_error woven, state_bind_of_error run]
    | ok results s' =>
      rw [run] at woven
      obtain ⟨_, rfl, _⟩ := weaveClasses_ok_iff.mp run
      rw [state_bind_of_ok woven, state_bind_of_ok run, gather_classes, deliver, zipWith_handed,
        forM_resources, write_handed]
      rfl
  unfold renew repack
  refine bind_congr fun entries => ?_
  split
  · exact bind_congr fun _ => after entries
  · exact after entries

end Sequential

section Runs
variable {library : Library} {schedule : Schedule} {weave : Bytes → Except Error Outcome}
  {source destination : Path} {s s' : Session}

def warnings (source : Path) (entries : List Entry) (before : List String) : List String :=
  if entries.any Entry.isSignature then
    before ++ [source.text ++ " is signed; rewriting its classes invalidates the signature"]
  else before

theorem warn_eq (source : Path) (entries : List Entry) (s : Session) :
    (if entries.any Entry.isSignature then RunM.warn
        (source.text ++ " is signed; rewriting its classes invalidates the signature")
      else pure ()) s = .ok () { s with warnings := warnings source entries s.warnings } := by
  unfold warnings
  split <;> rfl

/-- How a jar is packed anew. Nothing in it is about the order in which classes are woven. -/
inductive Repacks (library : Library) (weave : Bytes → Except Error Outcome)
    (source destination : Path) (s : Session) : Session → Prop where
  | mk {place : Location} {bytes new : Bytes} {entries : List Entry} {made written : FileTree}
      (found : s.tree.entry source = .ok (place, .file bytes))
      (read : library.read bytes = .ok entries)
      (weaves : ∀ e ∈ entries, e.isClass = true → weave e.data = .ok (outcomeOf weave e))
      (packed : library.write (entries.map fun e => e.handed (replacementOf weave e)) = .ok new)
      (parent : s.tree.createParent destination = .ok made)
      (stored : made.writeFile destination new = .ok written) :
      Repacks library weave source destination s
        { tree := written
          ledger := (entries.filter Entry.isResource).foldl (fun l _ => l.recordResource)
            ((classesFrom 0 entries).foldl (note weave) s.ledger)
          warnings := warnings source entries s.warnings }

theorem library_load_ok_iff {jar : Path} {entries : List Entry} :
    library.load jar s = .ok entries s' ↔ s = s' ∧ ∃ place bytes,
      s.tree.entry jar = .ok (place, .file bytes) ∧ library.read bytes = .ok entries := by
  unfold Library.load
  constructor
  · intro run
    split at run
    · cases run
    · rename_i place bytes found
      split at run
      · rename_i read
        cases run
        exact ⟨rfl, place, bytes, found, read⟩
      · cases run
    · cases run
  · rintro ⟨rfl, place, bytes, found, read⟩
    rw [found]
    dsimp only
    rw [read]

theorem forM_record_ok_iff {α : Type} {f : Ledger → Ledger} {xs : List α} {done : PUnit} :
    (xs.forM fun _ => RunM.record f) s = .ok done s' ↔
      s' = { s with ledger := xs.foldl (fun l _ => f l) s.ledger } := by
  induction xs generalizing s with
  | nil =>
    change (pure PUnit.unit : RunM PUnit) s = _ ↔ _
    rw [state_pure_ok_iff]
    simp [eq_comm]
  | cons x xs ih =>
    rw [forM_cons_ok_iff]
    simp only [RunM.record_ok_iff, exists_eq_left, ih, List.foldl_cons]

theorem deliver_ok_iff {entries : List Entry} {done : Unit} :
    deliver library destination entries (entries.map (replacementOf weave)) s = .ok done s' ↔
      ∃ new made written,
        library.write (entries.map fun e => e.handed (replacementOf weave e)) = .ok new ∧
        s.tree.createParent destination = .ok made ∧
        made.writeFile destination new = .ok written ∧
        s' = { s with
          tree := written
          ledger := (entries.filter Entry.isResource).foldl (fun l _ => l.recordResource)
            s.ledger } := by
  rw [deliver, zipWith_handed, forM_resources]
  constructor
  · intro run
    obtain ⟨new, s₁, lifted, run⟩ := state_bind_ok_iff.mp run
    obtain ⟨packed, rfl⟩ := RunM.lift_ok_iff.mp lifted
    obtain ⟨_, s₂, changed, run⟩ := state_bind_ok_iff.mp run
    obtain ⟨made, parent, rfl⟩ := RunM.change_ok_iff.mp changed
    obtain ⟨_, s₃, changed, run⟩ := state_bind_ok_iff.mp run
    obtain ⟨written, stored, rfl⟩ := RunM.change_ok_iff.mp changed
    obtain rfl := forM_record_ok_iff.mp run
    exact ⟨new, made, written, packed, parent, stored, rfl⟩
  · rintro ⟨new, made, written, packed, parent, stored, rfl⟩
    refine state_bind_ok_iff.mpr ⟨_, _, RunM.lift_ok_iff.mpr ⟨packed, rfl⟩, ?_⟩
    refine state_bind_ok_iff.mpr ⟨(), _, RunM.change_ok_iff.mpr ⟨made, parent, rfl⟩, ?_⟩
    refine state_bind_ok_iff.mpr ⟨(), _, RunM.change_ok_iff.mpr ⟨written, stored, rfl⟩, ?_⟩
    exact forM_record_ok_iff.mpr rfl

theorem forall_work_iff (P : Entry → Prop) {entries : List Entry} :
    (∀ p ∈ schedule.work entries, P p.1) ↔ ∀ e ∈ entries, e.isClass = true → P e := by
  have same : ∀ e, e ∈ (schedule.work entries).map Prod.fst ↔ e ∈ entries ∧ e.isClass = true := by
    intro e
    rw [((schedule.works entries).map Prod.fst).mem_iff, classesFrom_entries, List.mem_filter]
  rw [← List.forall_mem_map (f := Prod.fst)]
  simp only [same, and_imp]

/-- A jar is packed anew in the same way on every schedule. -/
theorem repack_ok_iff : repack library schedule weave source destination s = .ok () s' ↔
    Repacks library weave source destination s s' := by
  unfold repack
  constructor
  · intro run
    obtain ⟨entries, s₁, loaded, after⟩ := state_bind_ok_iff.mp run
    obtain ⟨rfl, place, bytes, found, read⟩ := library_load_ok_iff.mp loaded
    obtain ⟨s₁, warned, run⟩ := state_when_bind_ok_iff.mp after
    rw [warn_eq] at warned
    cases warned
    obtain ⟨results, s₂, woven, run⟩ := state_bind_ok_iff.mp run
    obtain ⟨all, rfl, rfl⟩ := weaveClasses_ok_iff.mp woven
    rw [gather_schedule] at run
    obtain ⟨new, made, written, packed, parent, stored, rfl⟩ := deliver_ok_iff.mp run
    have weaves := (forall_work_iff fun e => weave e.data = .ok (outcomeOf weave e)).mp all
    rw [notes_perm (schedule.works entries)]
    exact .mk found read weaves packed parent stored
  · rintro ⟨found, read, weaves, packed, parent, stored⟩
    rename_i place bytes new entries made written
    refine state_bind_ok_iff.mpr ⟨_, _, library_load_ok_iff.mpr ⟨rfl, _, _, found, read⟩, ?_⟩
    refine state_when_bind_ok_iff.mpr ⟨_, warn_eq source entries s, ?_⟩
    refine state_bind_ok_iff.mpr
      ⟨_, _, weaveClasses_ok_iff.mpr ⟨(forall_work_iff _).mpr weaves, rfl, rfl⟩, ?_⟩
    rw [gather_schedule, notes_perm (schedule.works entries)]
    exact deliver_ok_iff.mpr ⟨new, made, written, packed, parent, stored, rfl⟩

end Runs

section Faithful
variable {weave : Bytes → Except Error Outcome}

/-- What is handed over for an entry. -/
structure Repacked (weave : Bytes → Except Error Outcome) (e e' : Entry) : Prop where
  name : e'.name = e.name
  stored : e'.stored = e.stored
  directory : e'.isDirectory = e.isDirectory
  woven : e.isClass = true → ∃ outcome, weave e.data = .ok outcome ∧
    e'.data = outcome.written e.data
  resource : e.isResource = true → e'.data = e.data

/-- Every class counts as a unit, and every other entry that is no directory as a resource. -/
structure Counted (entries : List Entry) (before after : Report) : Prop where
  units : after.unitsWoven + after.unitsUnchanged =
    before.unitsWoven + before.unitsUnchanged + entries.countP Entry.isClass
  resources : after.resourcesCopied = before.resourcesCopied + entries.countP Entry.isResource

theorem repacked_handed {e : Entry}
    (weaves : e.isClass = true → weave e.data = .ok (outcomeOf weave e)) :
    Repacked weave e (e.handed (replacementOf weave e)) := by
  have name : (e.handed (replacementOf weave e)).name = e.name := by
    unfold Entry.handed
    split <;> rfl
  have data : e.isDirectory = false →
      (e.handed (replacementOf weave e)).data = (replacementOf weave e).getD e.data := by
    intro file
    rw [Entry.handed, if_neg (ne_true_of_eq_false file)]
  constructor
  case name => exact name
  case stored =>
    unfold Entry.handed
    split <;> rfl
  case directory =>
    unfold Entry.isDirectory
    rw [name]
  case woven =>
    intro kind
    obtain ⟨file, _⟩ := Bool.and_eq_true_iff.mp kind
    refine ⟨_, weaves kind, ?_⟩
    rw [data (Bool.not_eq_true' _ ▸ file), replacementOf, if_pos kind, Outcome.getD_replacement]
  case resource =>
    intro kind
    obtain ⟨file, other⟩ := Bool.and_eq_true_iff.mp kind
    rw [Bool.not_eq_true'] at file other
    rw [data file, replacementOf, if_neg (ne_true_of_eq_false other)]
    rfl

theorem units_noted (weave : Bytes → Except Error Outcome) (work : List (Entry × Nat))
    (ledger : Ledger) : (work.foldl (note weave) ledger).report.unitsWoven +
        (work.foldl (note weave) ledger).report.unitsUnchanged =
      ledger.report.unitsWoven + ledger.report.unitsUnchanged + work.length ∧
    (work.foldl (note weave) ledger).report.resourcesCopied = ledger.report.resourcesCopied := by
  induction work generalizing ledger with
  | nil => exact ⟨rfl, rfl⟩
  | cons p work ih =>
    obtain ⟨units, resources⟩ := ih (note weave ledger p)
    rw [List.foldl_cons, List.length_cons, units, resources]
    unfold note Ledger.recordUnit
    cases outcomeOf weave p.1
    · refine ⟨?_, rfl⟩
      dsimp only
      omega
    · refine ⟨?_, rfl⟩
      dsimp only
      omega

theorem resources_noted (resources : List Entry) (ledger : Ledger) :
    (resources.foldl (fun l _ => l.recordResource) ledger).report =
      { ledger.report with
        resourcesCopied := ledger.report.resourcesCopied + resources.length } := by
  induction resources generalizing ledger with
  | nil => rfl
  | cons e resources ih =>
    rw [List.foldl_cons, ih, List.length_cons, Ledger.recordResource, Nat.add_right_comm]
    rfl

theorem counted_of_noted (entries : List Entry) (ledger : Ledger) :
    Counted entries ledger.report ((entries.filter Entry.isResource).foldl
      (fun l _ => l.recordResource)
      ((classesFrom 0 entries).foldl (note weave) ledger)).report := by
  obtain ⟨units, resources⟩ := units_noted weave (classesFrom 0 entries) ledger
  have length : (classesFrom 0 entries).length = entries.countP Entry.isClass := by
    rw [List.countP_eq_length_filter, ← classesFrom_entries 0, List.length_map]
  rw [resources_noted, ← List.countP_eq_length_filter]
  exact ⟨by rw [← length]; exact units, by rw [resources]⟩

/-- A jar that is packed anew has the entries of the old one in their order, with their names and
flags; classes are woven and everything else is kept. No schedule makes a difference to the files,
the counts and the warnings. -/
theorem repack_faithful {library : Library} {schedule : Schedule} {chain : Chain}
    {selector : Selector} {source destination : Path} {s s' : Session}
    (run : repack library schedule (weaveUnit chain selector) source destination s = .ok () s') :
    ∃ place bytes entries out new made, s.tree.entry source = .ok (place, .file bytes) ∧
      library.read bytes = .ok entries ∧
      List.Forall₂ (Repacked (weaveUnit chain selector)) entries out ∧
      library.write out = .ok new ∧
      s.tree.createParent destination = .ok made ∧ made.writeFile destination new = .ok s'.tree ∧
      Counted entries s.ledger.report s'.ledger.report ∧
      repack library .sequential (weaveUnit chain selector) source destination s = .ok () s' ∧
      (library = zip → renew (weaveUnit chain selector) source destination s = .ok () s') := by
  have repacks := repack_ok_iff.mp run
  have same : repack library .sequential (weaveUnit chain selector) source destination s =
      .ok () s' := repack_ok_iff.mpr repacks
  obtain ⟨found, read, weaves, packed, parent, stored⟩ := repacks
  refine ⟨_, _, _, _, _, _, found, read, ?_, packed, parent, stored, counted_of_noted _ _, same,
    fun own => by rw [renew_eq, ← own, same]⟩
  rw [List.forall₂_map_right_iff]
  exact List.forall₂_same.mpr fun e member => repacked_handed (weaves e member)

def backwards : Schedule :=
  ⟨fun entries => (classesFrom 0 entries).reverse, List.reverse, fun _ => List.reverse_perm _,
    fun _ => List.reverse_perm _⟩

def twoClasses : List Entry :=
  [⟨"a/", [], true, .earliest⟩, ⟨"a/A.class", Weaving.threeMethods, true, .earliest⟩,
    ⟨"a/b", [1], false, .earliest⟩, ⟨"C.class", Weaving.threeMethods, false, .earliest⟩]

def knowing (entries : List Entry) : Library :=
  ⟨fun bytes => if bytes = writeEntries entries then .ok entries else zip.read bytes, zip.write⟩

def jarAlone (bytes : Bytes) : Session := ⟨⟨[(["in.jar"], .file bytes)], []⟩, .start .full, []⟩

theorem twoClasses_faithful : ∃ s', repack (knowing twoClasses) backwards
      (weaveUnit Weaving.reporting .default) (.parse "/in.jar") (.parse "/out.jar")
      (jarAlone (writeEntries twoClasses)) = .ok () s' ∧
    ∃ out new, List.Forall₂ (Repacked (weaveUnit Weaving.reporting .default)) twoClasses out ∧
      zip.write out = .ok new ∧ s'.tree.entries.lookup ["out.jar"] = some (.file new) ∧
      Counted twoClasses (Report.start .full) s'.ledger.report ∧
      repack (knowing twoClasses) .sequential (weaveUnit Weaving.reporting .default)
        (.parse "/in.jar") (.parse "/out.jar") (jarAlone (writeEntries twoClasses)) =
          .ok () s' := by
  have found : ∀ bytes, (jarAlone bytes).tree.entry (.parse "/in.jar") =
      .ok (["in.jar"], .file bytes) := by
    intro bytes
    cbv
  have known : (knowing twoClasses).read (writeEntries twoClasses) = .ok twoClasses := if_pos rfl
  have parent : ∀ bytes, (jarAlone bytes).tree.createParent (.parse "/out.jar") =
      .ok (jarAlone bytes).tree := by
    intro bytes
    cbv
  have stored : ∀ bytes new, (jarAlone bytes).tree.writeFile (.parse "/out.jar") new =
      .ok ⟨[(["in.jar"], .file bytes), (["out.jar"], .file new)], []⟩ := by
    intro bytes new
    cbv
  have weaves : (weaveUnit Weaving.reporting .default Weaving.threeMethods).toOption.isSome =
      true := by decide +kernel
  obtain ⟨outcome, woven⟩ := ok_of_isSome weaves
  obtain ⟨s', run⟩ : ∃ s', repack (knowing twoClasses) backwards
      (weaveUnit Weaving.reporting .default) (.parse "/in.jar") (.parse "/out.jar")
      (jarAlone (writeEntries twoClasses)) = .ok () s' := by
    refine ⟨_, repack_ok_iff.mpr (.mk (found _) known ?_ rfl (parent _) (stored _ _))⟩
    intro e member kind
    have data : e.data = Weaving.threeMethods := by
      simp only [twoClasses, List.mem_cons, List.not_mem_nil, or_false] at member
      rcases member with rfl | rfl | rfl | rfl
      · exact absurd kind (by decide)
      · rfl
      · exact absurd kind (by decide)
      · rfl
    have same := data ▸ woven
    rw [outcomeOf_eq same, same]
  obtain ⟨place, bytes, entries, out, new, made, there, read, related, packed, above, written,
    counted, same, _⟩ := repack_faithful run
  rw [found] at there
  cases there
  rw [known] at read
  cases read
  rw [parent] at above
  cases above
  rw [stored] at written
  refine ⟨s', run, out, new, related, packed, ?_, counted, same⟩
  rw [← Except.ok.inj written]
  rfl

end Faithful

end Jar
end ClassHooks
