import ClassHooks.Proofs.Build.Fitting
import ClassHooks.Proofs.Build.Keys

/-!
When an incremental run cannot fail: where it is told the changes since a full run, no removal comes
behind a change below it, and no file takes the place of a directory.
-/
namespace ClassHooks

open ClassHooks.Path (named)

namespace Build

theorem target_spelled {root destination file target : Path} {ns : List String}
    (spelled : file.components = root.components ++ named ns)
    (goes : counterpart root destination file = .ok target) :
    target.components = destination.components ++ named ns := by
  obtain ⟨ms, _, spelled', whole, _⟩ :=
    counterpart_spelled (.inr (Path.startsWith_of_spelled spelled)) goes
  rw [whole, names_of_spelled ns spelled spelled']

def tasksOf (d : DirectoryInput) : Tasks :=
  (marksOf d).map fun x => (x.1, Action.decide x.2 .incremental)

section Directory
variable {d : DirectoryInput} {destination : Path} {s : Session}

theorem mem_tasksOf (plannable : Plannable d) {x : List String × Action} :
    x ∈ tasksOf d ↔ ∃ status, (Input.directory d).Marks x.1 status ∧
      x.2 = Action.decide status .incremental := by
  simp only [marks_iff plannable.spelled]
  constructor
  · intro inside
    obtain ⟨⟨ns, status⟩, there, rfl⟩ := List.mem_map.mp inside
    exact ⟨status, there, rfl⟩
  · rintro ⟨status, there, same⟩
    exact List.mem_map.mpr ⟨_, there, by rw [← same]⟩

theorem Plannable.proper (plannable : Plannable d) {x : List String × Action}
    (inside : x ∈ tasksOf d) : x.1 ≠ [] := by
  obtain ⟨status, marks, _⟩ := (mem_tasksOf plannable).mp inside
  cases marks with
  | file _ more _ => exact more

theorem targets_ok {files : List (Path × Action)}
    (spelled : ∀ f ∈ files, ∃ ns, ns ≠ [] ∧ f.1.components = d.root.components ++ named ns) :
    ∃ planned, List.Forall₂ (fun f (x : PlannedFile) => x.file = f.1 ∧ x.action = f.2 ∧
        counterpart d.root destination f.1 = .ok x.target) files planned := by
  obtain ⟨planned, all⟩ : ∃ planned, files.mapM (fun f =>
      (fun target => PlannedFile.mk f.1 target f.2) <$> counterpart d.root destination f.1) =
        .ok planned := by
    refine ok_of_forall fun f inside => ?_
    obtain ⟨ns, more, names⟩ := spelled f inside
    obtain ⟨target, goes⟩ := counterpart_ok more names destination
    exact ⟨_, map_ok_iff.mpr ⟨target, goes, rfl⟩⟩
  refine ⟨planned, (mapM_ok_iff.mp all).imp fun f x made => ?_⟩
  obtain ⟨target, goes, rfl⟩ := map_ok_iff.mp made
  exact ⟨rfl, rfl, goes⟩

theorem schedule_ok (plannable : Plannable d) (free : ∀ c ∈ s.ledger.claimed, ∀ ns, ns ≠ [] →
      c.components ≠ destination.components ++ named ns) :
    ∃ planned s₀, schedule .incremental d destination s = .ok planned s₀ ∧
      planned.map (taskOf destination) = tasksOf d ∧ s₀.tree = s.tree ∧
      ∀ c ∈ s₀.ledger.claimed, c ∈ s.ledger.claimed ∨
        ∃ ns, c.components = destination.components ++ named ns := by
  let files := d.changes.map fun c => (d.root.join c.1, Action.decide c.2 .incremental)
  have spelled : ∀ f ∈ files, ∃ ns, ns ≠ [] ∧ f.1.components = d.root.components ++ named ns := by
    intro f inside
    obtain ⟨c, there, rfl⟩ := List.mem_map.mp inside
    exact plannable.spelled c there
  have unlike : files.Pairwise fun f g => f.1.components ≠ g.1.components :=
    List.pairwise_map.mpr plannable.distinct
  obtain ⟨planned, targets⟩ := targets_ok spelled
  have related := (List.forall₂_and_left _ _).mpr ⟨spelled, targets⟩
  have plans : Plans d destination s files planned := by
    refine ⟨targets, fun x inside c taken => ?_, pairwise_of_related related unlike ?_⟩
    · obtain ⟨f, _, ⟨ns, more, names⟩, _, _, goes⟩ := related_of_mem_right related inside
      rw [target_spelled names goes]
      exact free c taken ns more
    · rintro f g x y ⟨⟨ns, _, names⟩, _, _, goes⟩ ⟨⟨ms, _, names'⟩, _, _, goes'⟩ other same
      rw [target_spelled names goes, target_spelled names' goes'] at same
      rw [names, names', List.append_cancel_left same] at other
      exact other rfl
  have tasks : List.Forall₂ (fun f task => task = (namesBelow d.root f.1, f.2)) files
      (planned.map (taskOf destination)) := by
    refine List.forall₂_map_right_iff.mpr (related.imp ?_)
    rintro f x ⟨⟨ns, _, names⟩, _, action, goes⟩
    unfold taskOf
    rw [namesBelow_eq (target_spelled names goes), namesBelow_eq names, action]
  refine ⟨planned, _, schedule_ok_iff.mpr ⟨files, work_incremental_ok_iff.mpr ⟨rfl, rfl⟩, plans, rfl⟩,
    ?_, rfl, fun c taken => ?_⟩
  · rw [eq_map_of_related tasks, tasksOf, marksOf, List.map_map, List.map_map]
    rfl
  · rcases List.mem_append.mp taken with new | old
    · obtain ⟨x, inside, rfl⟩ := List.mem_map.mp (List.mem_reverse.mp new)
      obtain ⟨f, _, ⟨ns, _, names⟩, _, _, goes⟩ := related_of_mem_right related inside
      exact .inr ⟨ns, target_spelled names goes⟩
    · exact .inl old

theorem fitting_of_accurate {t : FileTree} {before after : List String → Option Bytes}
    (plannable : Plannable d) (accurate : Accurate t (.directory d) before after) :
    Fitting before after (tasksOf d) where
  proper _ := plannable.proper
  wanted x inside kept := by
    obtain ⟨status, marks, action⟩ := (mem_tasksOf plannable).mp inside
    have described := accurate.described _ _ marks
    cases status with
    | addedOrChanged => exact described
    | removed => exact absurd action kept
    | unchanged => exact described.2 ▸ described.1
  known x inside other := by
    obtain ⟨status, marks, action⟩ := (mem_tasksOf plannable).mp inside
    have described := accurate.described _ _ marks
    cases status with
    | addedOrChanged => exact absurd action other
    | removed => exact described.1
    | unchanged => exact described.1
  ordered := by
    refine List.pairwise_map.mpr (List.pairwise_map.mpr (plannable.ordered.imp_of_mem ?_))
    intro x y inside there apart written removed above
    obtain ⟨ns, _, names⟩ := plannable.spelled x inside
    obtain ⟨ms, _, names'⟩ := plannable.spelled y there
    have unrelated := apart (decide_weave_iff.mp written) (decide_delete_iff.mp removed)
    dsimp only at above
    rw [namesBelow_eq names, namesBelow_eq names'] at above
    exact Bool.false_ne_true (unrelated.symm.trans (Path.startsWith_of_names names names' above))

theorem apart_of_source {t : FileTree} {zone R : Location} (source : SourceAt t zone d.root R)
    (sound : t.Sound) {ms more : List String} (upper : (Input.directory d).content t ms ≠ none)
    (lower : (Input.directory d).content t (ms ++ more) ≠ none) : more = [] := by
  have proper : ms ≠ [] := by
    rintro rfl
    exact upper rfl
  rw [source.content sound proper] at upper
  rw [source.content sound (by simp [proper])] at lower
  obtain ⟨bytes, file⟩ := Option.ne_none_iff_exists'.mp upper
  obtain ⟨other, file'⟩ := Option.ne_none_iff_exists'.mp lower
  rw [FileTree.fileAt_eq_some_iff] at file file'
  by_contra further
  rw [sound.blank_below file (by simp) (by simpa using further)] at file'
  cases file'

end Directory

structure Doable (b : Build) (t : FileTree) (before : List String → Option Bytes)
    (d : DirectoryInput) : Prop where
  resolved : ∃ destination, b.resolver.resolve d.name .directory = .ok destination
  plannable : Plannable d
  fitting : Fitting before ((Input.directory d).content t) (tasksOf d)
  untangled : Untangled before ((Input.directory d).content t)
  weavable : ∀ ns bytes, (Input.directory d).content t ns = some bytes →
    ∃ new, b.output .directory ns bytes = .ok new

theorem reads_ok {b : Build} {t : FileTree} {zone R : Location} {d : DirectoryInput}
    {destination : Path} {before : List String → Option Bytes} {s s' : Session}
    {files : List (Path × Action)} {planned : List PlannedFile} (sound : t.Sound)
    (source : SourceAt t zone d.root R) (doable : Doable b t before d)
    (worked : work .incremental d s = .ok files s') (plans : Plans d destination s files planned)
    (tasks : planned.map (taskOf destination) = tasksOf d) {x : PlannedFile} (inside : x ∈ planned)
    (wanted : x.action ≠ .delete) : ∃ o bytes, ¬ zone <+: o ∧
      (∀ u, FileTree.Within zone t u → u.entry x.file = .ok (o, .file bytes)) ∧
      (x.file.extension? = some "class" → x.action = .weave →
        ∃ outcome, b.weave bytes = .ok outcome) := by
  obtain ⟨ns, more, spelled, goes, _⟩ := plans.spelled worked inside
  obtain ⟨f, listed, file, _⟩ := related_of_mem_right plans.targets inside
  obtain ⟨rfl, _⟩ := work_incremental_ok_iff.mp worked
  obtain ⟨c, told, rfl⟩ := List.mem_map.mp listed
  have ends : FileTree.EndsNamed x.file.segments := file ▸ doable.plannable.ends c told
  have member : taskOf destination x ∈ tasksOf d := tasks ▸ List.mem_map_of_mem inside
  have full := doable.fitting.wanted _ member wanted
  unfold taskOf at full
  rw [namesBelow_eq goes] at full
  obtain ⟨bytes, held⟩ := Option.ne_none_iff_exists'.mp full
  have found := held
  rw [source.content sound more, FileTree.fileAt_eq_some_iff] at found
  have outside := source.outside_below (List.prefix_append R ns)
  refine ⟨R ++ ns, bytes, outside, fun u inner =>
    (source.leads_file spelled).entry_of_file outside ends found inner, fun kind _ => ?_⟩
  obtain ⟨new, made⟩ := doable.weavable ns bytes held
  rw [extension_of_named more spelled] at kind
  unfold output at made
  dsimp only at made
  rw [if_pos kind] at made
  obtain ⟨outcome, woven, _⟩ := map_ok_iff.mp made
  exact ⟨outcome, woven⟩

theorem directory_ok {b : Build} {t : FileTree} {zone P R : Location} {d : DirectoryInput}
    {destination : Path} {before : List String → Option Bytes} {s : Session} (sound : t.Sound)
    (within : FileTree.Within zone t s.tree)
    (resolved : b.resolver.resolve d.name .directory = .ok destination)
    (leads : t.Leads zone destination P) (inside : zone <+: P) (source : SourceAt t zone d.root R)
    (doable : Doable b t before d)
    (free : ∀ c ∈ s.ledger.claimed, ∀ ns, c.components ≠ destination.components ++ named ns)
    (passable : Passable before ((Input.directory d).content t) P (tasksOf d) s.tree) :
    ∃ s', b.processInput .incremental (.directory d) s = .ok () s' ∧
      ∀ c ∈ s'.ledger.claimed, c ∈ s.ledger.claimed ∨
        ∃ ns, c.components = destination.components ++ named ns := by
  let s₁ : Session := { s with ledger := s.ledger.taking [destination] }
  have claimed : RunM.claim destination s = .ok () s₁ := by
    refine RunM.claim_ok_iff.mpr ⟨fun c taken => ?_, rfl⟩
    simpa [named] using free c taken []
  have free₁ : ∀ c ∈ s₁.ledger.claimed, ∀ ns, ns ≠ [] →
      c.components ≠ destination.components ++ named ns := by
    intro c taken ns more same
    rcases List.mem_cons.mp taken with rfl | taken
    · exact more (by simpa [named] using same)
    · exact free c taken ns same
  obtain ⟨planned, s₂, plan, tasks, tree, taken⟩ := schedule_ok doable.plannable free₁
  obtain ⟨files, worked, plans, _⟩ := schedule_ok_iff.mp plan
  rw [← tasks] at passable
  obtain ⟨s', run, kept⟩ := items_ok (s := s₂) doable.untangled sound (tree ▸ within)
    (fun x there => plans.target worked leads inside there)
    (fun x there wanted => reads_ok sound source doable worked plans tasks there wanted)
    (tasks ▸ doable.fitting) (tree ▸ passable)
  refine ⟨s', ?_, fun c there => ?_⟩
  · unfold processInput
    change (RunM.lift (b.resolver.resolve d.name .directory) >>= _) s = _
    rw [state_bind_of_ok (RunM.lift_ok_iff.mpr ⟨resolved, rfl⟩),
      state_bind_of_ok (a := ()) claimed]
    exact processDirectory_ok_iff.mpr ⟨planned, s₂, plan, run⟩
  · rw [kept] at there
    rcases taken c there with mine | below
    · rcases List.mem_cons.mp mine with rfl | old
      · exact .inr ⟨[], by simp [named]⟩
      · exact .inl old
    · exact .inr below

section Trees
variable {b : Build} {all trees : List DirectoryInput} {area : Location}
  {place : Identity → Location} {t : FileTree} {before : Identity → List String → Option Bytes}
  {s : Session} (places : Places (all.map Input.directory) area place)
  (site : Site b .incremental (all.map Input.directory) area place t)
include places

theorem passable_beside {i j : Input} (one : i ∈ all.map Input.directory)
    (two : j ∈ all.map Input.directory) (other : i.identity ≠ j.identity) {mode : BuildMode}
    {v v' : FileTree} {work : Work} (handled : Handled b t mode i (place i.identity) v v' work)
    {before after : List String → Option Bytes} {tasks : Tasks}
    (passable : Passable before after (place j.identity) tasks v) :
    Passable before after (place j.identity) tasks v' := by
  have targets : ∀ x ∈ work, place i.identity <+: x.1 := by
    intro x inside
    obtain ⟨ns, _, same, _⟩ := handled.asked x inside
    rw [same]
    exact List.prefix_append _ ns
  refine passable.beside (fun ns => ?_) fun m above => ?_
  · refine (handled.performed.beside targets (places.beside one two other ns)).resolve_right ?_
    rintro ⟨_, upper⟩
    exact other (places.apart j two i one ((List.prefix_append _ ns).trans upper)).symm
  · refine (handled.performed.beside targets fun lower => ?_).imp_right And.left
    exact other (places.apart i one j two (lower.trans above))

include site

/-- Directories whose changes can be made can be processed one after the other: each leaves the places
of the others as they are. -/
theorem trees_ok (part : trees ⊆ all)
    (distinct : (trees.map fun d => (Input.directory d).identity).Nodup)
    (doable : ∀ d ∈ trees, Doable b t (before (Input.directory d).identity) d)
    (within : FileTree.Within area t s.tree)
    (free : ∀ c ∈ s.ledger.claimed, ∀ d ∈ trees, ∃ l, t.Leads area c l ∧
      ¬ place (Input.directory d).identity <+: l)
    (passable : ∀ d ∈ trees, Passable (before (Input.directory d).identity)
      ((Input.directory d).content t) (place (Input.directory d).identity) (tasksOf d) s.tree) :
    ∃ s', (trees.map Input.directory).forM (b.processInput .incremental) s = .ok () s' := by
  induction trees generalizing s with
  | nil => exact ⟨s, rfl⟩
  | cons d trees ih =>
    have member : Input.directory d ∈ all.map Input.directory :=
      List.mem_map_of_mem (part (by simp))
    rw [List.map_cons, List.nodup_cons] at distinct
    have other : ∀ e ∈ trees, (Input.directory e).identity ≠ (Input.directory d).identity :=
      fun e later same => distinct.1 (List.mem_map.mpr ⟨e, later, same⟩)
    have members : ∀ e ∈ trees, Input.directory e ∈ all.map Input.directory :=
      fun e later => List.mem_map_of_mem (part (by simp [later]))
    have inside := places.inside _ member
    obtain ⟨R, source⟩ := site.apart _ member
    have doable₁ := doable d (by simp)
    obtain ⟨destination, resolved⟩ := doable₁.resolved
    have leads := site.leads _ member destination resolved
    -- A path taken for this directory leads below its place, and so to none of the others.
    have below {c : Path} {ns : List String}
        (spelled : c.components = destination.components ++ named ns) :
        t.Leads area c (place (Input.directory d).identity ++ ns) :=
      leads.below spelled fun i lower target => FileTree.erased_linkless inside lower target
    obtain ⟨s₁, first, taken⟩ := directory_ok site.sound within resolved leads inside source doable₁
      (fun c there ns spelled => by
        obtain ⟨l, goes, outside⟩ := free c there d (by simp)
        refine outside ?_
        rw [goes.unique site.sound rfl (below spelled)]
        exact List.prefix_append _ ns)
      (passable d (by simp))
    obtain ⟨work, handled, within₁⟩ := handled_of_processes places site (fun jar there => by
      obtain ⟨_, _, same⟩ := List.mem_map.mp there
      cases same) member within (processes_of_processInput first)
    obtain ⟨s', rest⟩ := ih (s := s₁) (fun e later => part (by simp [later])) distinct.2
      (fun e later => doable e (by simp [later])) within₁
      (fun c there e later => by
        rcases taken c there with old | ⟨ns, spelled⟩
        · exact free c old e (by simp [later])
        · exact ⟨_, below spelled, places.beside (members e later) member (other e later) ns⟩)
      fun e later => passable_beside places member (members e later) (other e later).symm handled
        (passable e (by simp [later]))
    exact ⟨s', forM_cons_ok_iff.mpr ⟨s₁, first, rest⟩⟩

end Trees

section Occupied
variable {b : Build} {all inputs : List Input} {area : Location} {place : Identity → Location}
  {t : FileTree} {s s' : Session}

theorem resolved_of_all {mode : BuildMode} (run : b.ProcessesAll mode inputs s s') {i : Input}
    (inside : i ∈ inputs) : ∃ p, b.resolver.resolve i.name i.format = .ok p := by
  induction run with
  | nil => cases inside
  | cons first _ ih =>
    rcases List.mem_cons.mp inside with rfl | inside
    · cases first with
      | archive resolved => exact ⟨_, resolved⟩
      | directory resolved => exact ⟨_, resolved⟩
    · exact ih inside

/-- What is there after a full run and was not before is at or above what the inputs hold. -/
theorem occupied_of_all (places : Places all area place) (site : Site b .full all area place t)
    (part : inputs ⊆ all) (run : b.ProcessesAll .full inputs s s')
    (within : FileTree.Within area t s.tree) {l : Location} (gone : s.tree.find? l = none)
    (there : s'.tree.find? l ≠ none) :
    ∃ i ∈ inputs, ∃ ns, i.content t ns ≠ none ∧ l <+: place i.identity ++ ns := by
  induction run with
  | nil => exact absurd gone there
  | @cons i inputs s s₁ s' first rest ih =>
    obtain ⟨work, handled, within₁⟩ := handled_of_processes places site (fun jar _ copies => by
      rw [decide_full] at copies
      cases copies) (part (by simp)) within first
    by_cases still : s₁.tree.find? l = none
    · obtain ⟨j, inside, found⟩ := ih (fun j later => part (by simp [later])) within₁ still there
      exact ⟨j, by simp [inside], found⟩
    · obtain ⟨x, inside, _, _, above⟩ :=
        FileTree.stored_of_performed handled.performed gone still
      obtain ⟨ns, _, same, full, _⟩ := handled.asked x inside
      exact ⟨i, by simp, ns, full, same ▸ above⟩

end Occupied

theorem contentOf_directory_nil {inputs : List Input} {t : FileTree} {d : DirectoryInput} :
    contentOf inputs t (Input.directory d).identity [] = none := by
  by_contra full
  unfold contentOf at full
  split at full
  · rename_i i found
    have identity := List.find?_some found
    rw [decide_eq_true_eq] at identity
    cases i with
    | archive jar => cases congrArg Prod.snd identity
    | directory e => exact full rfl
  · exact full rfl

section First
variable {b : Build} {all inputs : List Input} {area : Location} {place : Identity → Location}
  {t : FileTree} {s' : Session} (places : Places all area place) (part : inputs ⊆ all)
  (site : Site b .full inputs area place t) (run : b.Runs .full inputs t s')
include places part site run

/-- After a full run, what stands in the output area stands at or above something that the inputs
hold. -/
theorem occupied_of_full {l : Location} (inside : area <+: l) (there : s'.tree.find? l ≠ none) :
    ∃ i ∈ inputs, ∃ ns, i.content t ns ≠ none ∧ l <+: place i.identity ++ ns := by
  obtain ⟨s, cleared, all⟩ := run
  obtain ⟨within, gone, _⟩ := prepare_full site cleared
  exact occupied_of_all (places.part part) site (List.Subset.refl _) all within (gone l inside) there

theorem opened_of_full {d : DirectoryInput} (member : .directory d ∈ all) {m : Location}
    (above : m <+: place (Input.directory d).identity) {e : Entry}
    (found : s'.tree.find? m = some e) : e = .directory := by
  obtain ⟨each, none⟩ := mirrors_of_full places part site run
  obtain ⟨_, _, within⟩ := files_of_full (places.part part) site run
  by_cases inside : area <+: m
  · cases e with
    | directory => rfl
    | link target => exact absurd found (within.linkless m inside target)
    | file bytes =>
      exfalso
      rw [← FileTree.fileAt_eq_some_iff] at found
      by_cases placed : ∃ i ∈ all, place i.identity <+: m
      · obtain ⟨i, there, upper⟩ := placed
        have same := places.apart i there _ member (upper.trans above)
        obtain rfl := (same ▸ upper).eq_of_length_le above.length_le
        have mirrors := each _ member []
        rw [contentOf_directory_nil, List.append_nil, found] at mirrors
        cases mirrors
      · rw [none m inside fun i there upper => placed ⟨i, there, upper⟩] at found
        cases found
  · have upper := (List.prefix_or_prefix_of_prefix above (places.inside _ member)).resolve_right
      inside
    obtain ⟨s, cleared, _⟩ := run
    obtain ⟨_, _, opened⟩ := prepare_full site cleared
    have apart : m ≠ area := by
      rintro rfl
      exact inside (List.prefix_refl _)
    exact (within.made m e inside found).elim (opened m upper apart e) id

theorem held_of_full {i : Input} (member : i ∈ all) {ms : List String} {bytes : Bytes}
    (found : s'.tree.find? (place i.identity ++ ms) = some (.file bytes)) :
    contentOf inputs t i.identity ms ≠ none := by
  obtain ⟨each, _⟩ := mirrors_of_full places part site run
  intro blank
  have mirrors := each _ member ms
  rw [blank, FileTree.fileAt_eq_some_iff.mpr found] at mirrors
  cases mirrors

theorem held_below_of_full {i : Input} (member : i ∈ all) {ms : List String}
    (there : s'.tree.find? (place i.identity ++ ms) ≠ none) :
    ∃ more, contentOf inputs t i.identity (ms ++ more) ≠ none := by
  have below : area <+: place i.identity ++ ms :=
    (places.inside _ member).trans (List.prefix_append _ ms)
  obtain ⟨j, inside, ns, full, above⟩ := occupied_of_full places part site run below there
  have same : j.identity = i.identity := by
    have here := (List.prefix_append _ ms).trans above
    rcases List.prefix_or_prefix_of_prefix here (List.prefix_append (place j.identity) ns) with
      up | down
    · exact (places.apart _ member j (part inside) up).symm
    · exact places.apart j (part inside) _ member down
  rw [← contentOf_mem site.distinct inside, same] at full
  rw [same, List.prefix_append_right_inj] at above
  obtain ⟨more, rfl⟩ := above
  exact ⟨more, full⟩

/-- What a full run has left can be passed on the way to the targets of the changes since then. -/
theorem passable_of_full {d : DirectoryInput} (member : .directory d ∈ all) {u : FileTree}
    {after : List String → Option Bytes}
    (left : ∀ l e, l <+: area ∨ area <+: l → u.find? l = some e → s'.tree.find? l = some e)
    (plannable : Plannable d)
    (accurate : Accurate u (.directory d) (contentOf inputs t (Input.directory d).identity) after) :
    Passable (contentOf inputs t (Input.directory d).identity) after
      (place (Input.directory d).identity) (tasksOf d) u := by
  obtain ⟨each, _⟩ := mirrors_of_full places part site run
  obtain ⟨_, _, within⟩ := files_of_full (places.part part) site run
  have zone := places.inside _ member
  have below (ms : List String) : area <+: place (Input.directory d).identity ++ ms :=
    zone.trans (List.prefix_append _ ms)
  refine ⟨fun m above e found => ?_, fun ms bytes found => ?_, fun ms _ found => ?_,
    fun ms target found => ?_⟩
  · exact opened_of_full places part site run member above
      (left m e (List.prefix_or_prefix_of_prefix above zone) found)
  · have old := held_of_full places part site run member (left _ _ (.inr (below ms)) found)
    by_cases marked : ∃ status, (Input.directory d).Marks ms status
    · obtain ⟨status, marks⟩ := marked
      have described := accurate.described ms status marks
      cases status with
      | addedOrChanged => exact .inl described
      | removed => exact .inr ⟨old, (mem_tasksOf plannable).mpr ⟨.removed, marks, rfl⟩⟩
      | unchanged => exact .inl (described.2 ▸ old)
    · exact .inl (accurate.omitted ms (fun status marks => marked ⟨status, marks⟩) ▸ old)
  · have stood := left _ _ (.inr (below ms)) found
    have there : s'.tree.find? (place (Input.directory d).identity ++ ms) ≠ none := by
      rw [stood]
      nofun
    obtain ⟨more, full⟩ := held_below_of_full places part site run member there
    refine ⟨more, ?_, .inl full⟩
    rintro rfl
    rw [List.append_nil] at full
    obtain ⟨bytes, file⟩ := Handled.file_of_mirrors full (each _ member ms)
    rw [stood] at file
    cases file
  · exact within.linkless _ (below ms) target (left _ _ (.inr (below ms)) found)

end First

theorem apart_of_contentOf {b : Build} {mode : BuildMode} {inputs : List Input} {area : Location}
    {place : Identity → Location} {t : FileTree} (site : Site b mode inputs area place t)
    {d : DirectoryInput} {ms more : List String}
    (upper : contentOf inputs t (Input.directory d).identity ms ≠ none)
    (lower : contentOf inputs t (Input.directory d).identity (ms ++ more) ≠ none) : more = [] := by
  obtain ⟨i, known, same⟩ := exists_of_contentOf upper
  rw [← same, contentOf_mem site.distinct known] at upper lower
  cases i with
  | archive jar => cases congrArg Prod.snd same
  | directory e =>
    obtain ⟨R, source⟩ := site.apart _ known
    exact apart_of_source source site.sound upper lower

/-- An incremental run over directories completes, if it is told the changes since the full run whose
outputs it finds, or what is left of them. Every class can be woven; no file has come where there were
files below its path; and each file that has changed is named once, a removal not behind a change
below it. -/
theorem incremental_succeeds {b : Build} {c₀ : Config} {I₀ : List Input} {trees : List DirectoryInput}
    {area : Location} {place : Identity → Location} {t₀ t₁ : FileTree} {s₀ : Session}
    (places : Places (I₀ ++ trees.map Input.directory) area place)
    (site₀ : Site { b with config := c₀ } .full I₀ area place t₀)
    (site₁ : Site b .incremental (trees.map Input.directory) area place t₁)
    (first : Runs { b with config := c₀ } .full I₀ t₀ s₀)
    (left : ∀ l e, l <+: area ∨ area <+: l → t₁.find? l = some e → s₀.tree.find? l = some e)
    (resolved : ∀ d ∈ trees, (∃ i ∈ I₀, i.identity = (Input.directory d).identity) ∨
      ∃ p, b.resolver.resolve d.name .directory = .ok p)
    (plannable : ∀ d ∈ trees, Plannable d)
    (accurate : ∀ d ∈ trees, Accurate t₁ (.directory d)
      (contentOf I₀ t₀ (Input.directory d).identity) ((Input.directory d).content t₁))
    (weavable : ∀ d ∈ trees, ∀ ns bytes, (Input.directory d).content t₁ ns = some bytes →
      ∃ new, b.output .directory ns bytes = .ok new)
    (flat : ∀ d ∈ trees, ∀ ms more, (Input.directory d).content t₁ ms ≠ none →
      contentOf I₀ t₀ (Input.directory d).identity (ms ++ more) ≠ none → more = []) :
    ∃ report s₁, b.run .incremental (trees.map Input.directory) t₁ = (.ok report, s₁) := by
  have part : I₀ ⊆ I₀ ++ trees.map Input.directory := fun i inside => by simp [inside]
  have members : ∀ d ∈ trees, Input.directory d ∈ trees.map Input.directory :=
    fun d inside => List.mem_map_of_mem inside
  have linkless : ∀ l, area <+: l → ∀ target, t₁.find? l ≠ some (.link target) :=
    fun l inside target found => (files_of_full (places.part part) site₀ first).2.2.linkless l inside
      target (left l _ (.inr inside) found)
  have goes : ∀ d ∈ trees, ∃ p, b.resolver.resolve d.name .directory = .ok p := by
    intro d inside
    refine (resolved d inside).elim (fun ⟨i, known, same⟩ => ?_) id
    obtain ⟨_, _, all⟩ := first
    obtain ⟨p, found⟩ := resolved_of_all all known
    have name : i.name = d.name := congrArg Prod.fst same
    have format : i.format = .directory := congrArg Prod.snd same
    exact ⟨p, by rw [← name, ← format]; exact found⟩
  have doable : ∀ d ∈ trees, Doable b t₁ (contentOf I₀ t₀ (Input.directory d).identity) d := by
    intro d inside
    obtain ⟨R, source⟩ := site₁.apart _ (members d inside)
    exact {
      resolved := goes d inside
      plannable := plannable d inside
      fitting := fitting_of_accurate (plannable d inside) (accurate d inside)
      untangled := ⟨fun _ _ => apart_of_contentOf site₀, fun _ _ => apart_of_source source site₁.sound,
        flat d inside⟩
      weavable := weavable d inside }
  have distinct := site₁.distinct
  rw [List.map_map] at distinct
  obtain ⟨s₁, run⟩ := trees_ok (s := ⟨t₁, .start .incremental, []⟩)
    (places.part fun i inside => by simp [inside]) site₁ (List.Subset.refl trees) distinct doable
    (.refl site₁.sound linkless) nofun
    fun d inside => passable_of_full places part site₀ first
      (List.mem_append_right _ (members d inside)) left (plannable d inside) (accurate d inside)
  have processed : b.process .incremental (trees.map Input.directory)
      ⟨t₁, .start .incremental, []⟩ = .ok s₁.ledger.report s₁ := by
    change ((trees.map Input.directory).forM (b.processInput .incremental) >>= _) _ = _
    rw [state_bind_of_ok run]
    rfl
  refine ⟨s₁.ledger.report, s₁, ?_⟩
  unfold Build.run
  rw [processed]

instance {status : ChangeStatus} {before after : Option Bytes} :
    Decidable (Describes status before after) :=
  match status with
  | .addedOrChanged => inferInstanceAs (Decidable (after ≠ none))
  | .removed => inferInstanceAs (Decidable (before ≠ none ∧ after = none))
  | .unchanged => inferInstanceAs (Decidable (before ≠ none ∧ before = after))

/-- What tells that the changes describe all that is different: the files of the trees, looked at one
by one. -/
structure Compared (t u : FileTree) (zone : Location) (d₀ d : DirectoryInput) (R : Location) :
    Prop where
  identity : d₀.name = d.name
  old : SourceAt t zone d₀.root R
  new : SourceAt u zone d.root R
  spelled : Spelled d
  described : ∀ x ∈ marksOf d, Describes x.2 (t.fileAt (R ++ x.1)) (u.fileAt (R ++ x.1))
  omitted : ∀ e ∈ t.entries ++ u.entries, ¬ R <+: e.1 ∨
    e.1.drop R.length ∈ (marksOf d).map Prod.fst ∨ t.fileAt e.1 = u.fileAt e.1

section Checked
variable {t u : FileTree} {zone R : Location} {d₀ d : DirectoryInput}

theorem mem_of_content (source : SourceAt t zone d.root R) (sound : t.Sound)
    {ns : List String} {bytes : Bytes} (held : (Input.directory d).content t ns = some bytes) :
    ns ≠ [] ∧ (R ++ ns, .file bytes) ∈ t.entries := by
  have more : ns ≠ [] := by
    rintro rfl
    cases held
  rw [source.content sound more, FileTree.fileAt_eq_some_iff] at held
  exact ⟨more, FileTree.mem_of_find? (by simp [more]) held⟩

theorem Compared.accurate (compared : Compared t u zone d₀ d R) (sound : t.Sound)
    (sound' : u.Sound) : Accurate u (.directory d) ((Input.directory d₀).content t)
      ((Input.directory d).content u) where
  described ns status marks := by
    have inside := (marks_iff compared.spelled).mp marks
    cases marks with
    | file _ more _ =>
      rw [compared.old.content sound more, compared.new.content sound' more]
      exact compared.described _ inside
  current _ _ _ _ := rfl
  omitted ns unmarked := by
    have either {bytes : Bytes} (there : (R ++ ns, .file bytes) ∈ t.entries ++ u.entries) :
        t.fileAt (R ++ ns) = u.fileAt (R ++ ns) := by
      rcases compared.omitted _ there with outside | named | same
      · exact absurd (List.prefix_append R ns) outside
      · rw [List.drop_left] at named
        obtain ⟨⟨_, status⟩, inside, rfl⟩ := List.mem_map.mp named
        exact absurd ((marks_iff compared.spelled).mpr inside) (unmarked status)
      · exact same
    refine Option.ext fun bytes => ⟨fun held => ?_, fun held => ?_⟩
    · obtain ⟨more, there⟩ := mem_of_content compared.old sound held
      rw [compared.new.content sound' more, ← either (List.mem_append_left _ there)]
      rwa [compared.old.content sound more] at held
    · obtain ⟨more, there⟩ := mem_of_content compared.new sound' held
      rw [compared.old.content sound more, either (List.mem_append_right _ there)]
      rwa [compared.new.content sound' more] at held

theorem writable_of_entries {b : Build} (source : SourceAt u zone d.root R) (sound : u.Sound)
    (none : ∀ e ∈ u.entries, (⟨false, e.1.drop R.length⟩ : Path).extension? ≠ some "class")
    {ns : List String} {bytes : Bytes} (held : (Input.directory d).content u ns = some bytes) :
    ∃ new, b.output .directory ns bytes = .ok new := by
  have kind := none _ (mem_of_content source sound held).2
  rw [List.drop_left] at kind
  unfold output
  dsimp only
  rw [if_neg kind]
  exact ⟨bytes, rfl⟩

theorem left_of_reported {b : Build} {mode : BuildMode} {inputs : List Input} (proper : zone ≠ [])
    (stored : (b.reported mode inputs t).map (fun s =>
        s.tree.entries.filter fun e => zone.isPrefixOf e.1) =
      some (u.entries.filter fun e => zone.isPrefixOf e.1)) :
    ∃ s, b.reported mode inputs t = some s ∧ ∀ l, zone <+: l → u.find? l = s.tree.find? l := by
  obtain ⟨s, told, same⟩ := Option.map_eq_some_iff.mp stored
  exact ⟨s, told, fun l inside => FileTree.find?_congr proper same.symm inside⟩

theorem left_of_same (sound : t.Sound) (sound' : u.Sound) (there : t.find? zone = some .directory)
    (same : ∀ l, zone <+: l → t.find? l = u.find? l) (l : Location) (e : Entry)
    (around : l <+: zone ∨ zone <+: l) (found : t.find? l = some e) : u.find? l = some e := by
  rcases around with above | below
  · by_cases here : l = zone
    · rw [here] at found ⊢
      rw [← same zone (List.prefix_refl zone), found]
    · rw [sound.above there above here] at found
      rw [← found]
      exact sound'.above ((same zone (List.prefix_refl zone)).symm.trans there) above here
  · rw [← same l below, found]

end Checked

theorem staleTree_content (ns : List String) :
    (Input.directory toldChanges).content staleTree ns =
      (Input.directory (directoryWith "in" [])).content secondTree ns := by
  by_cases more : ns = []
  · rw [more]
    rfl
  change (Input.directory (directoryWith "in" [])).content staleTree ns = _
  unfold staleTree secondTree
  rw [content_of_workspace (by decide) (by decide) (by decide) more,
    content_of_workspace (by decide) (by decide) (by decide) more]
  simp [FileTree.fileAt, FileTree.find?, workspace, FileTree.lookup_cons_entry]

theorem toldChanges_plannable : Plannable toldChanges :=
  .of_sorted [.normal "in"] (by decide) (by decide) (by decide) (by decide)

theorem incremental_succeeds_replaced : ∃ s₀ report s₁,
    (hookless .ifMissing).reported .full [.directory (directoryWith "in" [])] firstTree = some s₀ ∧
    (∀ l, ["w", "out"] <+: l → staleTree.find? l = s₀.tree.find? l) ∧
    (hookless .ifMissing).run .incremental ([toldChanges].map Input.directory) staleTree =
      (.ok report, s₁) := by
  let b := hookless .ifMissing
  let whole : List Input := [.directory (directoryWith "in" [])]
  let place : Identity → Location := fun _ => ["w", "out", "in"]
  have site₀ : Site { b with config := b.config } .full whole ["w", "out"] place firstTree :=
    site_of_workspace (by decide) (by decide) (by decide)
  have site₁ : Site b .incremental ([toldChanges].map Input.directory) ["w", "out"] place staleTree :=
    site_of_workspace (by decide) (by decide) (by decide)
  have old : SourceAt firstTree ["w", "out"] (directoryWith "in" []).root ["w", "in"] :=
    source_of_workspace (by decide) (by decide)
  have new : SourceAt staleTree ["w", "out"] toldChanges.root ["w", "in"] :=
    source_of_workspace (by decide) (by decide)
  have stored : (b.reported .full whole firstTree).map (fun s =>
        s.tree.entries.filter fun e => ["w", "out"].isPrefixOf e.1) =
      some (staleTree.entries.filter fun e => ["w", "out"].isPrefixOf e.1) := by cbv
  obtain ⟨s₀, told, same⟩ := left_of_reported (by simp) stored
  have first := runs_of_reported told
  have held : contentOf whole firstTree (Input.directory toldChanges).identity =
      (Input.directory (directoryWith "in" [])).content firstTree := by
    change contentOf whole firstTree (Input.directory (directoryWith "in" [])).identity = _
    exact contentOf_mem site₀.distinct (by simp [whole])
  have files : ∀ e ∈ staleTree.entries, ∀ f ∈ firstTree.entries, ["w", "in"] <+: e.1 →
      e.1 ≠ ["w", "in"] → e.1 <+: f.1 → e.1 = f.1 := by decide
  have left := left_of_same site₁.sound
    (files_of_full ⟨by decide, by decide⟩ site₀ first).2.2.sound (by decide) same
  have completes : ∃ report s₁, b.run .incremental ([toldChanges].map Input.directory) staleTree =
      (.ok report, s₁) := by
    refine incremental_succeeds ⟨by decide, by decide⟩ site₀ site₁ first left (fun d inside => ?_)
      (fun d inside => ?_) (fun d inside => ?_) (fun d inside ns bytes => ?_)
      (fun d inside ms more upper lower => ?_)
    all_goals obtain rfl := List.mem_singleton.mp inside
    · exact .inl ⟨_, List.mem_singleton_self _, rfl⟩
    · exact toldChanges_plannable
    · rw [held, funext staleTree_content]
      exact toldChanges_accurate
    · exact writable_of_entries new site₁.sound (by decide)
    · rw [held] at lower
      obtain ⟨bytes, upper⟩ := Option.ne_none_iff_exists'.mp upper
      obtain ⟨other, lower⟩ := Option.ne_none_iff_exists'.mp lower
      obtain ⟨proper, here⟩ := mem_of_content new site₁.sound upper
      obtain ⟨_, there⟩ := mem_of_content old site₀.sound lower
      simpa using files _ here _ there (by simp) (by simpa using proper) (by simp)
  obtain ⟨report, s₁, run⟩ := completes
  exact ⟨s₀, report, s₁, told, same, run⟩

/-- An incremental run over directories fails, though each class in them can be woven, and though it is
told the changes since a full run and finds the outputs of that run. -/
def FailsAfter (b : Build) (former later : FileTree) (whole told : List DirectoryInput) : Prop :=
  ∃ s₀ e s₁, b.reported .full (whole.map Input.directory) former = some s₀ ∧
    (∀ l, ["w", "out"] <+: l → later.find? l = s₀.tree.find? l) ∧
    (∀ d ∈ told, Accurate later (.directory d)
      (contentOf (whole.map Input.directory) former (Input.directory d).identity)
      ((Input.directory d).content later)) ∧
    (∀ d ∈ told, ∀ ns bytes, (Input.directory d).content later ns = some bytes →
      ∃ new, b.output .directory ns bytes = .ok new) ∧
    b.run .incremental (told.map Input.directory) later = (.error e, s₁)

def failed (b : Build) (mode : BuildMode) (inputs : List Input) (t : FileTree) : Bool :=
  match b.run mode inputs t with
  | (.ok _, _) => false
  | (.error _, _) => true

theorem error_of_failed {b : Build} {mode : BuildMode} {inputs : List Input} {t : FileTree}
    (told : b.failed mode inputs t = true) : ∃ e s, b.run mode inputs t = (.error e, s) := by
  unfold failed at told
  split at told
  · cases told
  · rename_i e s run
    exact ⟨e, s, run⟩

theorem failsAfter_of_compared {b : Build} {former later : FileTree}
    {whole told : List DirectoryInput} (sound : former.Sound) (sound' : later.Sound)
    (distinct : ((whole.map Input.directory).map Input.identity).Nodup)
    (each : ∀ d ∈ told, ∃ d₀ ∈ whole, ∃ R, Compared former later ["w", "out"] d₀ d R ∧
      ∀ e ∈ later.entries, (⟨false, e.1.drop R.length⟩ : Path).extension? ≠ some "class")
    (stored : (b.reported .full (whole.map Input.directory) former).map (fun s =>
        s.tree.entries.filter fun e => ["w", "out"].isPrefixOf e.1) =
      some (later.entries.filter fun e => ["w", "out"].isPrefixOf e.1))
    (fails : b.failed .incremental (told.map Input.directory) later = true) :
    b.FailsAfter former later whole told := by
  obtain ⟨s₀, first, same⟩ := left_of_reported (by simp) stored
  obtain ⟨e, s₁, run⟩ := error_of_failed fails
  refine ⟨s₀, e, s₁, first, same, fun d inside => ?_, fun d inside ns bytes held => ?_, run⟩
  · obtain ⟨d₀, there, R, compared, _⟩ := each d inside
    have identity : (Input.directory d).identity = (Input.directory d₀).identity :=
      congrArg (·, Format.directory) compared.identity.symm
    rw [identity, contentOf_mem distinct (List.mem_map_of_mem there)]
    exact compared.accurate sound sound'
  · obtain ⟨_, _, R, compared, none⟩ := each d inside
    exact writable_of_entries compared.new sound' none held

section Workspace
variable {entries : List (Location × Entry)} {now : List (Location × Entry)}

theorem compared_of_workspace {d₀ d : DirectoryInput} {ns : List String}
    (none : ∀ e ∈ (workspace entries).entries ++ (workspace now).entries, e.2.isLink = false)
    (home : ((workspace entries).eraseTree ["w", "out"]).find? ["w"] = some .directory ∧
      ((workspace now).eraseTree ["w", "out"]).find? ["w"] = some .directory)
    (outside : ¬ ["w", "out"] <+: "w" :: ns ∧ ¬ "w" :: ns <+: ["w", "out"])
    (known : d₀.name = d.name ∧ d₀.root = d.root)
    (root : d.root.components = named ns ∨ d.root.components = .root :: named ("w" :: ns))
    (spelled : Spelled d)
    (described : ∀ x ∈ marksOf d, Describes x.2 ((workspace entries).fileAt ("w" :: ns ++ x.1))
      ((workspace now).fileAt ("w" :: ns ++ x.1)))
    (omitted : ∀ e ∈ (workspace entries).entries ++ (workspace now).entries,
      ¬ "w" :: ns <+: e.1 ∨ e.1.drop ("w" :: ns).length ∈ (marksOf d).map Prod.fst ∨
        (workspace entries).fileAt e.1 = (workspace now).fileAt e.1) :
    Compared (workspace entries) (workspace now) ["w", "out"] d₀ d ("w" :: ns) := by
  have source {these : List (Location × Entry)}
      (none : ∀ e ∈ (workspace these).entries, e.2.isLink = false)
      (home : ((workspace these).eraseTree ["w", "out"]).find? ["w"] = some .directory) :
      SourceAt (workspace these) ["w", "out"] d.root ("w" :: ns) := by
    have linkless := FileTree.linkless_of_entries none
    refine ⟨?_, outside.1, outside.2, fun l _ => linkless l⟩
    rcases root with relative | absolute
    · exact leads_of_workspace none home _ ns relative
    · exact FileTree.leads_of_absolute absolute linkless
  have old := source (fun e inside => none e (List.mem_append_left _ inside)) home.1
  have new := source (fun e inside => none e (List.mem_append_right _ inside)) home.2
  exact ⟨known.1, known.2 ▸ old, new, spelled, described, omitted⟩

end Workspace

/-- What is asked for is needed. A file cannot be written where a directory is left; nothing can be
written below a file that is removed only later; and a destination inside of another one may stand
where that other one has a file to write. -/
theorem incremental_fails :
    (hookless .ifMissing).FailsAfter
        (workspace [(["in"], .directory), (["in", "a"], .directory), (["in", "a", "b"], .file [1])])
        (workspace [(["in"], .directory), (["in", "a"], .file [2]), (["out"], .directory),
          (["out", "in"], .directory), (["out", "in", "a"], .directory),
          (["out", "in", "a", "b"], .file [1])])
        [directoryWith "in" []]
        [directoryWith "in" [("a", .addedOrChanged), ("a/b", .removed)]] ∧
      (hookless .ifMissing).FailsAfter
        (workspace [(["in"], .directory), (["in", "a"], .file [1])])
        (workspace [(["in"], .directory), (["in", "a"], .directory), (["in", "a", "b"], .file [2]),
          (["out"], .directory), (["out", "w"], .directory), (["out", "w", "in"], .directory),
          (["out", "w", "in", "a"], .file [1])])
        [directoryWith "/w/in" []]
        [directoryWith "/w/in" [("/w/in/a/b", .addedOrChanged), ("a", .removed)]] ∧
      (hookless .ifMissing).FailsAfter
        (workspace [(["in"], .directory), (["more"], .directory), (["more", "f"], .file [1])])
        (workspace [(["in"], .directory), (["in", "a"], .file [2]), (["more"], .directory),
          (["more", "f"], .file [1]), (["out"], .directory), (["out", "in"], .directory),
          (["out", "in", "a"], .directory), (["out", "in", "a", "f"], .file [1])])
        [directoryWith "in" [], ⟨"in/a", .parse "more", []⟩]
        [directoryWith "in" [("a", .addedOrChanged)], ⟨"in/a", .parse "more", []⟩] := by
  refine ⟨?_, ?_, ?_⟩
  · refine failsAfter_of_compared (by decide) (by decide) (by decide)
      (List.forall_mem_singleton.mpr ⟨_, List.mem_singleton_self _, ["w", "in"], ?_, by decide⟩)
      (by cbv) (by cbv)
    exact compared_of_workspace (by decide) (by decide) (by decide) (by decide) (by decide)
      (by decide) (by decide) (by decide)
  · refine failsAfter_of_compared (by decide) (by decide) (by decide)
      (List.forall_mem_singleton.mpr ⟨_, List.mem_singleton_self _, ["w", "in"], ?_, by decide⟩)
      (by cbv) (by cbv)
    exact compared_of_workspace (by decide) (by decide) (by decide) (by decide) (by decide)
      (by decide) (by decide) (by decide)
  · refine failsAfter_of_compared (by decide) (by decide) (by decide)
      (List.forall_mem_cons.mpr ⟨⟨_, List.mem_cons_self .., ["w", "in"], ?_, by decide⟩,
        List.forall_mem_singleton.mpr ⟨_, List.mem_cons_of_mem _ (List.mem_singleton_self _),
          ["w", "more"], ?_, by decide⟩⟩)
      (by cbv) (by cbv)
    · exact compared_of_workspace (by decide) (by decide) (by decide) (by decide) (by decide)
        (by decide) (by decide) (by decide)
    · exact compared_of_workspace (by decide) (by decide) (by decide) (by decide) (by decide)
        (by decide) (by decide) (by decide)

end Build
end ClassHooks
