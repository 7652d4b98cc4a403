import ClassHooks.Proofs.Build.Isolation
import ClassHooks.Proofs.Build.Order
import ClassHooks.Proofs.Failure

/-!
A directory of which one file has no place is rejected as a whole. Planning takes all targets before
the first file is processed, so what is wrong with one file, wherever it stands, is found while all
files are as they were.
-/
namespace ClassHooks

open ClassHooks.Path (named)

section Counterpart
variable {root destination file : Path} {err : Error}

def Path.NamesBelow (file root : Path) : Prop :=
  ∃ ns, ns ≠ [] ∧ file.components = root.components ++ named ns

theorem counterpart_error (under : file.absolute = true ∨ file.startsWith root = true)
    (run : counterpart root destination file = .error err) :
    (file.startsWith root = false ∧
      err = .invalidDestination (.outsideRoot file.text root.text)) ∨
    (¬ file.NamesBelow root ∧
      err = .invalidDestination (.noFileUnderRoot file.text root.text)) := by
  cases rest : file.relativeTo? root with
  | none =>
    left
    unfold counterpart at run
    rw [if_pos (by simpa using under), rest] at run
    cases run
    refine ⟨?_, rfl⟩
    unfold Path.relativeTo? at rest
    split at rest
    · dsimp only at rest
      split at rest <;> cases rest
    · rename_i outside
      exact eq_false_of_ne_true outside
  | some below =>
    right
    constructor
    · rintro ⟨ns, more, spelled⟩
      obtain ⟨target, goes⟩ := counterpart_ok more spelled destination
      rw [goes] at run
      cases run
    · rw [counterpart_of_relative under rest] at run
      split at run
      · cases run
        rfl
      · cases run

end Counterpart

namespace Build
variable {d : DirectoryInput} {destination : Path} {s s' : Session} {err : Error}

theorem claim_error {path : Path} (run : RunM.claim path s = .error err s') :
    err = .destinationConflict path.text ∧
      ∃ c ∈ s.ledger.claimed, c.components = path.components := by
  rcases state_bind_error_iff.mp run with got | ⟨_, _, got, run⟩
  · cases got
  cases got
  rcases state_bind_error_iff.mp run with lifted | ⟨_, _, _, modified⟩
  · unfold Ledger.claim at lifted
    split at lifted
    · rename_i taken
      cases lifted
      exact ⟨rfl, by simpa [Path.sameAs] using taken⟩
    · cases lifted
  · cases modified

theorem plan_error {file : Path} {action : Action}
    (run : plan d destination file action s = .error err s') :
    counterpart d.root destination file = .error err ∨
      ∃ target, counterpart d.root destination file = .ok target ∧
        err = .destinationConflict target.text ∧
        ∃ c ∈ s.ledger.claimed, c.components = target.components := by
  rcases state_bind_error_iff.mp run with lifted | ⟨target, _, lifted, run⟩
  · left
    cases goes : counterpart d.root destination file with
    | ok target =>
      rw [goes] at lifted
      cases lifted
    | error e =>
      rw [goes] at lifted
      cases lifted
      rfl
  · right
    obtain ⟨goes, rfl⟩ := RunM.lift_ok_iff.mp lifted
    rcases state_bind_error_iff.mp run with claimed | ⟨_, _, _, done⟩
    · exact ⟨target, goes, claim_error claimed⟩
    · cases done

/-- A listed file that cannot be planned. -/
inductive Unplannable (d : DirectoryInput) (destination : Path) (s : Session)
    (files : List (Path × Action)) : Prop where
  | outside {f : Path × Action} (listed : f ∈ files) (outside : f.1.startsWith d.root = false)
  | nameless {f : Path × Action} (listed : f ∈ files) (nameless : ¬ f.1.NamesBelow d.root)
  | claimed {f : Path × Action} {ns : List String} {c : Path} (listed : f ∈ files)
      (spelled : f.1.components = d.root.components ++ named ns) (taken : c ∈ s.ledger.claimed)
      (same : c.components = destination.components ++ named ns)
  | twice {f g : Path × Action} (order : [f, g].Sublist files)
      (same : f.1.components = g.1.components)

inductive Rejection (d : DirectoryInput) (destination : Path) (s : Session)
    (files : List (Path × Action)) : Error → Prop where
  | outside {f : Path × Action} (listed : f ∈ files) (outside : f.1.startsWith d.root = false) :
      Rejection d destination s files (.invalidDestination (.outsideRoot f.1.text d.root.text))
  | nameless {f : Path × Action} (listed : f ∈ files) (nameless : ¬ f.1.NamesBelow d.root) :
      Rejection d destination s files (.invalidDestination (.noFileUnderRoot f.1.text d.root.text))
  | claimed {f : Path × Action} {target c : Path} (listed : f ∈ files)
      (goes : counterpart d.root destination f.1 = .ok target) (taken : c ∈ s.ledger.claimed)
      (same : c.components = target.components) :
      Rejection d destination s files (.destinationConflict target.text)
  | twice {f g : Path × Action} {target : Path} (order : [f, g].Sublist files)
      (goes : counterpart d.root destination g.1 = .ok target)
      (same : f.1.components = g.1.components) :
      Rejection d destination s files (.destinationConflict target.text)

section Plans
variable {mode : BuildMode} {files : List (Path × Action)} {items : List PlannedFile}

theorem Plans.distinct_files (worked : work mode d s = .ok files s')
    (plans : Plans d destination s files items) :
    files.Pairwise fun f g => f.1.components ≠ g.1.components := by
  have apart : items.Pairwise fun x y => x.file.components ≠ y.file.components := by
    refine plans.distinct.imp_of_mem ?_
    intro x y inside inside' targets same
    obtain ⟨ns, _, spelled, placed, _⟩ := plans.spelled worked inside
    obtain ⟨ns', _, spelled', placed', _⟩ := plans.spelled worked inside'
    rw [spelled, spelled', List.append_cancel_left_eq] at same
    exact targets (by rw [placed, placed', same])
  refine pairwise_of_related plans.targets.flip apart ?_
  intro x y f g one two ne
  rwa [← one.1, ← two.1]

theorem not_plans_of_unplannable (worked : work mode d s = .ok files s)
    (bad : Unplannable d destination s files) : ¬ Plans d destination s files items := by
  intro plans
  have placed : ∀ f ∈ files, ∃ x ∈ items, ∃ ns, ns ≠ [] ∧
      f.1.components = d.root.components ++ named ns ∧
      x.target.components = destination.components ++ named ns := by
    intro f listed
    obtain ⟨x, inside, file, _⟩ := related_of_mem plans.targets listed
    obtain ⟨ns, more, spelled, placed, _⟩ := plans.spelled worked inside
    exact ⟨x, inside, ns, more, file ▸ spelled, placed⟩
  cases bad with
  | outside listed outside =>
    obtain ⟨x, _, ns, _, spelled, _⟩ := placed _ listed
    rw [Path.startsWith_of_spelled spelled] at outside
    cases outside
  | nameless listed nameless =>
    obtain ⟨x, _, ns, more, spelled, _⟩ := placed _ listed
    exact nameless ⟨ns, more, spelled⟩
  | claimed listed spelled taken same =>
    obtain ⟨x, inside, ns', _, spelled', there⟩ := placed _ listed
    rw [spelled, List.append_cancel_left_eq] at spelled'
    exact plans.fresh x inside _ taken (by rw [same, there, spelled'])
  | twice order same =>
    exact List.pairwise_iff_forall_sublist.mp (plans.distinct_files worked) order same

/-- Planning stops at a file that it can tell of, and has done nothing but take targets. -/
theorem plans_error (under : ∀ f ∈ files, f.1.absolute = true ∨ f.1.startsWith d.root = true)
    (run : (files.mapM fun f => plan d destination f.1 f.2) s = .error err s') :
    Rejection d destination s files err ∧
      ∃ taken, s' = { s with ledger := s.ledger.taking taken } := by
  obtain ⟨before, f, after, items, t, rfl, planned, failed⟩ := mapM_error run
  obtain ⟨plans, rfl⟩ := plans_ok_iff.mp planned
  have listed : f ∈ before ++ f :: after := List.mem_append_right _ List.mem_cons_self
  refine ⟨?_, _, state_of_plan_error failed⟩
  rcases plan_error failed with nowhere | ⟨target, goes, rfl, c, taken, same⟩
  · rcases counterpart_error (under f listed) nowhere with ⟨outside, rfl⟩ | ⟨nameless, rfl⟩
    · exact .outside listed outside
    · exact .nameless listed nameless
  rcases List.mem_append.mp taken with earlier | before'
  · -- The target was taken for a file that stands before this one.
    obtain ⟨x, inside, rfl⟩ := List.mem_map.mp (List.mem_reverse.mp earlier)
    obtain ⟨g, there, _, _, goes'⟩ := related_of_mem_right plans.targets inside
    have listed' : g ∈ before ++ f :: after := List.mem_append_left _ there
    obtain ⟨ns, _, spelled, placed, _⟩ := counterpart_spelled (under f listed) goes
    obtain ⟨ns', _, spelled', placed', _⟩ := counterpart_spelled (under g listed') goes'
    rw [placed, placed', List.append_cancel_left_eq] at same
    have order : [g, f].Sublist (before ++ f :: after) :=
      (List.singleton_sublist.mpr there).append (List.singleton_sublist.mpr List.mem_cons_self)
    exact .twice order goes (by rw [spelled, spelled', same])
  · exact .claimed listed goes before' same

/-- If one file of a directory cannot be planned, wherever it stands among the others, the whole
directory is rejected with an error that tells of such a file, before any file is processed: whatever
would be done with the plan, in whatever order, no file is changed and nothing is reported. -/
theorem unplannable_directory_rejected {b : Build} (worked : work mode d s = .ok files s)
    (bad : Unplannable d destination s files) :
    ∃ err s', Rejection d destination s files err ∧
      b.processDirectory mode d destination s = .error err s' ∧
      (∀ execute : List PlannedFile → RunM Unit,
        (schedule mode d destination >>= execute) s = .error err s') ∧
      s'.tree = s.tree ∧ s'.ledger.report = s.ledger.report ∧ s'.warnings = s.warnings := by
  cases run : (files.mapM fun f => plan d destination f.1 f.2) s with
  | ok items s' =>
    obtain ⟨plans, _⟩ := plans_ok_iff.mp run
    exact absurd plans (not_plans_of_unplannable worked bad)
  | error err s' =>
    obtain ⟨rejection, taken, rfl⟩ := plans_error (work_under worked).2 run
    have planning : schedule mode d destination s =
        .error err { s with ledger := s.ledger.taking taken } := by
      rw [schedule, state_bind_of_ok worked]
      exact run
    refine ⟨err, _, rejection, ?_, fun execute => state_bind_of_error planning, rfl, rfl, rfl⟩
    rw [processDirectory, state_bind_of_ok worked]
    exact state_bind_of_error run

def failure? : EStateM.Result Error Session α → Option Error
  | .ok _ _ => none
  | .error e _ => some e

def twiceTold : DirectoryInput :=
  directoryWith "/w/in" [("/w/in/a", .addedOrChanged), ("a", .removed), ("b", .addedOrChanged)]

def twiceListed : List (Path × Action) :=
  [(.parse "/w/in/a", .weave), (.parse "/w/in/a", .delete), (.parse "/w/in/b", .weave)]

def twoFiles : FileTree :=
  workspace [(["in"], .directory), (["in", "a"], .file [1]), (["in", "b"], .file [2]),
    (["out"], .directory), (["out", "a"], .file [3])]

theorem twiceTold_rejected : ∃ s', (hookless .always).processDirectory .incremental twiceTold
      (.parse "out") ⟨twoFiles, .start .incremental, []⟩ =
        .error (.destinationConflict "out/a") s' ∧ s'.tree = twoFiles := by
  have worked : work .incremental twiceTold ⟨twoFiles, .start .incremental, []⟩ =
      .ok twiceListed ⟨twoFiles, .start .incremental, []⟩ := by cbv
  have order : [(Path.parse "/w/in/a", Action.weave), (Path.parse "/w/in/a", .delete)].Sublist
      twiceListed := ((List.nil_sublist _).cons_cons _).cons_cons _
  have bad : Unplannable twiceTold (.parse "out") ⟨twoFiles, .start .incremental, []⟩ twiceListed :=
    .twice order rfl
  obtain ⟨err, s', _, run, _, same, _⟩ :=
    unplannable_directory_rejected (b := hookless .always) worked bad
  have told : failure? ((hookless .always).processDirectory .incremental twiceTold (.parse "out")
      ⟨twoFiles, .start .incremental, []⟩) = some (.destinationConflict "out/a") := by cbv
  rw [run] at told
  obtain rfl := Option.some.inj told
  exact ⟨s', run, same⟩

end Plans
end Build
end ClassHooks
