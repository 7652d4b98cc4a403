import ClassHooks.Proofs.Build.Repacking
import ClassHooks.Proofs.Weaving.Failure

/-!
A jar with a class that cannot be woven is given up before anything is written. The workers are a
step relation here: in each step one class, wherever it stands, is taken and woven, which is a whole
since it depends on the bytes of the class alone. Workers that go on after a failure are not stopped.
-/
namespace ClassHooks.Jar

/-- The classes that no worker has taken, what was pushed, and the errors that were met. -/
structure Workshop where
  waiting : List (Entry × Nat)
  results : List (Nat × Option Bytes)
  failures : List Error
  session : Session

def Workshop.opened (entries : List Entry) (s : Session) : Workshop :=
  ⟨classesFrom 0 entries, [], [], s⟩

inductive Works (weave : Bytes → Except Error Outcome) (jar : Path) : Workshop → Workshop → Prop where
  | weaves {before after : List (Entry × Nat)} {p : Entry × Nat}
      {results : List (Nat × Option Bytes)} {failures : List Error} {s s' : Session}
      {outcome : Outcome} (woven : weaveEntry weave jar p.1 s = .ok outcome s') :
      Works weave jar ⟨before ++ p :: after, results, failures, s⟩
        ⟨before ++ after, results ++ [(p.2, outcome.replacement)], failures, s'⟩
  | fails {before after : List (Entry × Nat)} {p : Entry × Nat}
      {results : List (Nat × Option Bytes)} {failures : List Error} {s s' : Session}
      {err : Error} (failed : weaveEntry weave jar p.1 s = .error err s') :
      Works weave jar ⟨before ++ p :: after, results, failures, s⟩
        ⟨before ++ after, results, failures ++ [err], s'⟩

abbrev Worked (weave : Bytes → Except Error Outcome) (jar : Path) : Workshop → Workshop → Prop :=
  Relation.ReflTransGen (Works weave jar)

def signed (source : Path) (entries : List Entry) (s : Session) : Session :=
  { s with warnings := warnings source entries s.warnings }

/-- What packing a jar anew with workers can come to. One of the errors that were met is reported as
soon as there is one; the new jar is written when all classes are taken and none has failed. -/
inductive Packs (library : Library) (weave : Bytes → Except Error Outcome)
    (source destination : Path) (s : Session) : EStateM.Result Error Session Unit → Prop where
  | unread {err : Error} {s' : Session} (failed : library.load source s = .error err s') :
      Packs library weave source destination s (.error err s')
  | abandoned {entries : List Entry} {w : Workshop} {err : Error}
      (loaded : library.load source s = .ok entries s)
      (run : Worked weave source (.opened entries (signed source entries s)) w)
      (met : err ∈ w.failures) :
      Packs library weave source destination s (.error err w.session)
  | delivered {entries : List Entry} {w : Workshop} {pushed : List (Nat × Option Bytes)}
      (loaded : library.load source s = .ok entries s)
      (run : Worked weave source (.opened entries (signed source entries s)) w)
      (taken : w.waiting = []) (sound : w.failures = []) (order : pushed.Perm w.results) :
      Packs library weave source destination s
        (deliver library destination entries (gather entries.length pushed) w.session)

section Entries
variable {weave : Bytes → Except Error Outcome} {jar : Path} {s s' : Session}

theorem weaveEntry_error_iff {e : Entry} {err : Error} :
    weaveEntry weave jar e s = .error err s' ↔ s' = s ∧
      ∃ cause, weave e.data = .error cause ∧ err = cause.within (jar.text ++ "!" ++ e.name) := by
  unfold weaveEntry
  cases woven : weave e.data with
  | ok outcome =>
    constructor
    · intro run
      cases run
    · rintro ⟨_, cause, failed, _⟩
      cases failed
  | error cause =>
    constructor
    · intro run
      cases run
      exact ⟨rfl, cause, rfl, rfl⟩
    · rintro ⟨rfl, cause', failed, rfl⟩
      cases failed
      rfl

theorem weaveEntry_files {e : Entry} {outcome : Outcome}
    (run : weaveEntry weave jar e s = .ok outcome s') : s'.tree = s.tree := by
  obtain ⟨_, rfl⟩ := weaveEntry_ok_iff.mp run
  rfl

end Entries

section Workers
variable {weave : Bytes → Except Error Outcome} {jar : Path} {entries : List Entry}

def FaultOf (weave : Bytes → Except Error Outcome) (jar : Path) (entries : List Entry)
    (err : Error) : Prop :=
  ∃ x ∈ entries, x.isClass = true ∧ ∃ cause, weave x.data = .error cause ∧
    err = cause.within (jar.text ++ "!" ++ x.name)

/-- While the workers are at it, the files are those of `tree`, and a class that cannot be woven is
either still waiting or has been met. -/
structure Abides (weave : Bytes → Except Error Outcome) (jar : Path) (entries : List Entry)
    (tree : FileTree) (w : Workshop) : Prop where
  tree : w.session.tree = tree
  waiting : ∀ p ∈ w.waiting, p.1 ∈ entries ∧ p.1.isClass = true
  faults : ∀ err ∈ w.failures, FaultOf weave jar entries err
  broken : ∀ x ∈ entries, x.isClass = true → ∀ cause, weave x.data = .error cause →
    (∃ p ∈ w.waiting, p.1 = x) ∨ w.failures ≠ []

theorem abides_opened (weave : Bytes → Except Error Outcome) (jar : Path) (entries : List Entry)
    (s : Session) : Abides weave jar entries s.tree (.opened entries s) where
  tree := rfl
  waiting := by
    intro p taken
    have named : p.1 ∈ entries.filter Entry.isClass := by
      rw [← classesFrom_entries 0]
      exact List.mem_map_of_mem taken
    exact List.mem_filter.mp named
  faults := by
    intro err none
    cases none
  broken := by
    intro x member kind cause failed
    have named : x ∈ (classesFrom 0 entries).map Prod.fst := by
      rw [classesFrom_entries]
      exact List.mem_filter.mpr ⟨member, kind⟩
    exact .inl (List.mem_map.mp named)

theorem waiting_before {before after : List (Entry × Nat)} {p q : Entry × Nat}
    (left : q ∈ before ++ after) : q ∈ before ++ p :: after :=
  ((List.sublist_cons_self p after).append_left before).subset left

/-- One step of one worker. -/
theorem abides_step {tree : FileTree} {w w' : Workshop} (abides : Abides weave jar entries tree w)
    (step : Works weave jar w w') : Abides weave jar entries tree w' := by
  obtain ⟨same, waiting, faults, broken⟩ := abides
  cases step with
  | @weaves before after p results failures s s' outcome woven =>
    constructor
    case tree => exact (weaveEntry_files woven).trans same
    case waiting =>
      intro q left
      exact waiting q (waiting_before left)
    case faults => exact faults
    case broken =>
      intro x member kind cause failed
      rcases broken x member kind cause failed with ⟨q, stands, rfl⟩ | met
      · refine .inl ⟨q, ?_, rfl⟩
        -- The class that was taken is another one, since it could be woven.
        rcases List.mem_append.mp stands with front | rest
        · exact List.mem_append_left _ front
        rcases List.mem_cons.mp rest with rfl | back
        · have fine := (weaveEntry_ok_iff.mp woven).1
          rw [failed] at fine
          cases fine
        · exact List.mem_append_right _ back
      · exact .inr met
  | @fails before after p results failures s s' err failed =>
    obtain ⟨rfl, cause, found, rfl⟩ := weaveEntry_error_iff.mp failed
    obtain ⟨member, kind⟩ := waiting p (by simp)
    constructor
    case tree => exact same
    case waiting =>
      intro q left
      exact waiting q (waiting_before left)
    case faults =>
      intro err met
      rcases List.mem_append.mp met with old | new
      · exact faults err old
      · obtain rfl := List.mem_singleton.mp new
        exact ⟨p.1, member, kind, cause, found, rfl⟩
    case broken =>
      intro x _ _ _ _
      exact .inr (List.append_ne_nil_of_right_ne_nil _ (List.cons_ne_nil _ _))

theorem abides_run {tree : FileTree} {w w' : Workshop} (abides : Abides weave jar entries tree w)
    (run : Worked weave jar w w') : Abides weave jar entries tree w' := by
  induction run with
  | refl => exact abides
  | tail _ step ih => exact abides_step ih step

theorem worked_of_schedule {work waiting : List (Entry × Nat)} (order : work.Perm waiting)
    (results : List (Nat × Option Bytes)) (s : Session) :
    match weaveClasses weave jar work s with
    | .ok pushed s' => Worked weave jar ⟨waiting, results, [], s⟩ ⟨[], results ++ pushed, [], s'⟩
    | .error err s' => ∃ w, Worked weave jar ⟨waiting, results, [], s⟩ w ∧ err ∈ w.failures ∧
        w.session = s' := by
  induction work generalizing waiting results s with
  | nil =>
    obtain rfl := order.nil_eq
    change Worked weave jar _ ⟨[], results ++ [], [], s⟩
    rw [List.append_nil]
  | cons p work ih =>
    obtain ⟨before, after, rfl⟩ := List.append_of_mem (order.subset List.mem_cons_self)
    have others : work.Perm (before ++ after) := (order.trans List.perm_middle).cons_inv
    rw [weaveClasses_cons]
    cases woven : weaveEntry weave jar p.1 s with
    | error err s' =>
      rw [state_bind_of_error woven]
      exact ⟨_, .single (.fails woven), List.mem_singleton_self err, rfl⟩
    | ok outcome s₁ =>
      have step : Works weave jar ⟨before ++ p :: after, results, [], s⟩ _ := .weaves woven
      have rest := ih others (results ++ [(p.2, outcome.replacement)]) s₁
      rw [state_bind_of_ok woven]
      cases run : weaveClasses weave jar work s₁ with
      | error err s' =>
        rw [run] at rest
        obtain ⟨w, worked, met, same⟩ := rest
        rw [state_bind_of_error run]
        exact ⟨w, .head step worked, met, same⟩
      | ok pushed s' =>
        rw [run] at rest
        rw [state_bind_of_ok run]
        dsimp only at rest
        rw [List.append_assoc] at rest
        exact .head step rest

end Workers

section Packing
variable {library : Library} {weave : Bytes → Except Error Outcome} {source destination : Path}
  {s : Session}

theorem warn_bind {f : Unit → RunM α} (source : Path) (entries : List Entry) (s : Session) :
    (if entries.any Entry.isSignature then RunM.warn
        (source.text ++ " is signed; rewriting its classes invalidates the signature") >>= f
      else f ()) s = f () (signed source entries s) := by
  unfold signed warnings
  split
  · rfl
  · rfl

theorem repack_of_load {schedule : Schedule} {entries : List Entry}
    (loaded : library.load source s = .ok entries s) :
    repack library schedule weave source destination s = (do
      let results ← weaveClasses weave source (schedule.work entries)
      deliver library destination entries (gather entries.length (schedule.push results)))
        (signed source entries s) := by
  unfold repack
  rw [state_bind_of_ok loaded]
  exact warn_bind source entries s

/-- Weaving on a schedule comes to something that the workers can come to. -/
theorem packs_repack (schedule : Schedule) : Packs library weave source destination s
    (repack library schedule weave source destination s) := by
  cases loaded : library.load source s with
  | error err s' =>
    rw [repack, state_bind_of_error loaded]
    exact .unread loaded
  | ok entries s' =>
    obtain ⟨rfl, _⟩ := library_load_ok_iff.mp loaded
    have worked := @worked_of_schedule weave source _ _ (schedule.works entries) []
      (signed source entries s)
    rw [repack_of_load loaded]
    cases woven : weaveClasses weave source (schedule.work entries) (signed source entries s) with
    | error err s' =>
      rw [woven] at worked
      obtain ⟨w, run, met, rfl⟩ := worked
      rw [state_bind_of_error woven]
      exact .abandoned loaded run met
    | ok pushed s' =>
      rw [woven] at worked
      rw [state_bind_of_ok woven]
      exact .delivered loaded worked rfl rfl (schedule.pushes pushed)

inductive Refused (weave : Bytes → Except Error Outcome) (source : Path) (entries : List Entry)
    (s : Session) : EStateM.Result Error Session Unit → Prop where
  | mk {x : Entry} {cause : Error} {s' : Session} (member : x ∈ entries)
      (kind : x.isClass = true) (failed : weave x.data = .error cause)
      (files : s'.tree = s.tree) :
      Refused weave source entries s
        (.error (.inUnit (source.text ++ "!" ++ x.name) cause) s')

theorem refused_of_fault {chain : Chain} {selector : Selector} {entries : List Entry} {err : Error}
    {s' : Session} (fault : FaultOf (weaveUnit chain selector) source entries err)
    (files : s'.tree = s.tree) :
    Refused (weaveUnit chain selector) source entries s (.error err s') := by
  obtain ⟨x, member, kind, cause, failed, rfl⟩ := fault
  rw [within_of_blames (weaveUnit_blames failed)]
  exact .mk member kind failed files

/-- If a class of a jar cannot be woven, packing the jar anew fails and names such a class, whatever
the workers do and however far they have come, and no file is touched: neither is a new jar written
nor a directory made for it. The same holds on every schedule, and entry by entry. -/
theorem unweavable_jar_refused {chain : Chain} {selector : Selector} {place : Location}
    {bytes : Bytes} {entries : List Entry} {e : Entry} {fault : Error}
    (found : s.tree.entry source = .ok (place, .file bytes))
    (read : library.read bytes = .ok entries) (member : e ∈ entries) (kind : e.isClass = true)
    (unweavable : weaveUnit chain selector e.data = .error fault) :
    (∀ r, Packs library (weaveUnit chain selector) source destination s r →
      Refused (weaveUnit chain selector) source entries s r) ∧
    (∀ schedule, Refused (weaveUnit chain selector) source entries s
      (repack library schedule (weaveUnit chain selector) source destination s)) ∧
    (library = zip → Refused (weaveUnit chain selector) source entries s
      (renew (weaveUnit chain selector) source destination s)) := by
  have loads : library.load source s = .ok entries s :=
    library_load_ok_iff.mpr ⟨rfl, place, bytes, found, read⟩
  have all : ∀ r, Packs library (weaveUnit chain selector) source destination s r →
      Refused (weaveUnit chain selector) source entries s r := by
    intro r packs
    cases packs with
    | unread failed =>
      rw [loads] at failed
      cases failed
    | abandoned loaded run met =>
      rw [loads] at loaded
      cases loaded
      have abides := abides_run (abides_opened _ source entries _) run
      exact refused_of_fault (abides.faults _ met) abides.tree
    | delivered loaded run taken sound order =>
      rw [loads] at loaded
      cases loaded
      have abides := abides_run (abides_opened _ source entries _) run
      rcases abides.broken e member kind fault unweavable with ⟨p, waits, _⟩ | met
      · rw [taken] at waits
        cases waits
      · exact absurd sound met
  refine ⟨all, fun schedule => all _ (packs_repack schedule), ?_⟩
  rintro rfl
  rw [renew_eq]
  exact all _ (packs_repack .sequential)

theorem knowing_read (entries : List Entry) :
    (knowing entries).read (writeEntries entries) = .ok entries :=
  if_pos rfl

def cutShort : Entry := ⟨"a/B.class", [0xCA], true, .earliest⟩

def brokenBetween : List Entry :=
  [⟨"a/A.class", Weaving.threeMethods, true, .earliest⟩, cutShort, ⟨"a/b", [1], false, .earliest⟩,
    ⟨"C.class", Weaving.threeMethods, false, .earliest⟩]

def jarBesides (bytes old : Bytes) : Session :=
  ⟨⟨[(["in.jar"], .file bytes), (["out.jar"], .file old)], []⟩, .start .full, []⟩

theorem brokenBetween_refused : ∃ s', repack (knowing brokenBetween) backwards
      (weaveUnit Weaving.reporting .default) (.parse "/in.jar") (.parse "/out.jar")
      (jarBesides (writeEntries brokenBetween) [7]) =
        .error (.inUnit "/in.jar!a/B.class" .outOfBounds) s' ∧
    s'.tree = (jarBesides (writeEntries brokenBetween) [7]).tree := by
  have found : ∀ bytes, (jarBesides bytes [7]).tree.entry (.parse "/in.jar") =
      .ok (["in.jar"], .file bytes) := by
    intro bytes
    cbv
  have weaves : (weaveUnit Weaving.reporting .default Weaving.threeMethods).toOption.isSome =
      true := by decide +kernel
  obtain ⟨outcome, woven⟩ := ok_of_isSome weaves
  have ends : weaveUnit Weaving.reporting .default cutShort.data = .error .outOfBounds := by
    decide +kernel
  have name : (Path.parse "/in.jar").text ++ "!" ++ cutShort.name = "/in.jar!a/B.class" := by
    decide +kernel
  have inside : cutShort ∈ brokenBetween := List.mem_cons_of_mem _ List.mem_cons_self
  have refused : Refused (weaveUnit Weaving.reporting .default) (.parse "/in.jar") brokenBetween
      (jarBesides (writeEntries brokenBetween) [7]) (repack (knowing brokenBetween) backwards
        (weaveUnit Weaving.reporting .default) (.parse "/in.jar") (.parse "/out.jar")
        (jarBesides (writeEntries brokenBetween) [7])) :=
    (unweavable_jar_refused (found _) (knowing_read _) inside (by decide +kernel) ends).2.1 backwards
  generalize repack (knowing brokenBetween) backwards _ _ _ _ = r at refused ⊢
  obtain ⟨member, kind, failed, files⟩ := refused
  rename_i x cause s'
  simp only [brokenBetween, List.mem_cons, List.not_mem_nil, or_false] at member
  rcases member with rfl | rfl | rfl | rfl
  · rw [woven] at failed
    cases failed
  · rw [ends] at failed
    cases failed
    exact ⟨s', by rw [name], files⟩
  · exact absurd kind (by decide)
  · rw [woven] at failed
    cases failed

end Packing

end ClassHooks.Jar
