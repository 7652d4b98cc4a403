import ClassHooks.Proofs.Build.Order
import ClassHooks.Proofs.Build.Renewal

/-!
What a run does for one input: below its destination stands afterwards what the input holds, woven.
A full run stores it all; an incremental run stores, removes and keeps what it is told.
-/
namespace ClassHooks

open ClassHooks.Path (named)

namespace Input

def content (t : FileTree) : Input → List String → Option Bytes
  | .archive jar, ns => if ns = [] then (t.readFile jar.path).toOption else none
  | .directory d, ns =>
    if ns ≠ [] ∧ ns.all Path.isName then (t.readFile (d.root.descend ns)).toOption else none

inductive Marks : Input → List String → ChangeStatus → Prop
  | jar (jar : ArchiveInput) : Marks (.archive jar) [] jar.status
  | file {d : DirectoryInput} {ns : List String} {key : Path} {status : ChangeStatus}
      (inside : (key, status) ∈ d.changes) (more : ns ≠ [])
      (spelled : (d.root.join key).components = d.root.components ++ named ns) :
      Marks (.directory d) ns status

def Asks (t : FileTree) (i : Input) (ns : List String) : BuildMode → Action → Prop
  | .full, action => i.content t ns ≠ none ∧ action = .weave
  | .incremental, action => ∃ status, i.Marks ns status ∧ action = Action.decide status .incremental

end Input

/-- A directory stands at `R`, apart from the zone, and holds no links. -/
structure SourceAt (t : FileTree) (zone : Location) (root : Path) (R : Location) : Prop where
  leads : t.Leads zone root R
  outside : ¬ zone <+: R
  apart : ¬ R <+: zone
  plain : ∀ l, R <+: l → ∀ target, t.find? l ≠ some (.link target)

def Input.Apart (t : FileTree) (zone : Location) (mode : BuildMode) : Input → Prop
  | .archive jar => Action.decide jar.status mode ≠ .delete →
      ∃ o bytes, (t.eraseTree zone).entry jar.path = .ok (o, .file bytes)
  | .directory d => ∃ R, SourceAt t zone d.root R

theorem names_of_spelled {root file : Path} {ns : List String} (ms : List String)
    (names : file.components = root.components ++ named ms)
    (spelled : file.components = root.components ++ named ns) : ns = ms :=
  Path.named_injective (List.append_cancel_left (spelled.symm.trans names))

section Content
variable {t : FileTree} {zone R : Location} {d : DirectoryInput}

theorem Input.content_archive {jar : ArchiveInput} {o : Location} {bytes : Bytes}
    (found : (t.eraseTree zone).entry jar.path = .ok (o, .file bytes)) :
    (Input.archive jar).content t [] = some bytes := by
  have read := FileTree.readFile_eq_ok_iff.mpr ⟨o, FileTree.entry_of_erased found⟩
  unfold content
  dsimp only
  rw [if_pos rfl, read]
  rfl

theorem Input.content_of_read {jar : ArchiveInput} (sound : t.Sound) {o : Location}
    {content bytes : Bytes} (found : (t.eraseTree zone).entry jar.path = .ok (o, .file content))
    (read : t.fileAt o = some bytes) : (Input.archive jar).content t [] = some bytes := by
  have there := FileTree.find?_of_entry sound (FileTree.entry_of_erased found)
  rw [FileTree.fileAt_eq_some_iff, there] at read
  cases read
  exact Input.content_archive found

namespace SourceAt

theorem leads_file (source : SourceAt t zone d.root R) {file : Path} {ns : List String}
    (spelled : file.components = d.root.components ++ named ns) : t.Leads zone file (R ++ ns) :=
  source.leads.below spelled fun i below target found =>
    source.plain i below target (FileTree.find?_of_erased found)

theorem outside_below (source : SourceAt t zone d.root R) {l : Location} (below : R <+: l) :
    ¬ zone <+: l := by
  intro inside
  rcases List.prefix_or_prefix_of_prefix inside below with up | down
  · exact source.outside up
  · exact source.apart down

theorem content (source : SourceAt t zone d.root R) (sound : t.Sound) {ns : List String}
    (more : ns ≠ []) : (Input.directory d).content t ns = t.fileAt (R ++ ns) := by
  unfold Input.content
  by_cases names : ns.all Path.isName = true
  · have names' := List.all_eq_true.mp names
    have spelled := Path.components_descend d.root names'
    have read (bytes : Bytes) : t.readFile (d.root.descend ns) = .ok bytes ↔
        t.find? (R ++ ns) = some (.file bytes) :=
      (source.leads_file spelled).readFile_iff sound
        (source.outside_below (List.prefix_append R ns)) (Path.endsNamed_descend d.root names' more)
    dsimp only
    rw [if_pos ⟨more, names⟩]
    refine Option.ext fun bytes => ?_
    rw [FileTree.fileAt_eq_some_iff, ← read]
    cases t.readFile (d.root.descend ns) <;> simp [Except.toOption]
  · dsimp only
    rw [if_neg fun both => names both.2]
    symm
    rw [Option.eq_none_iff_forall_ne_some]
    intro bytes found
    refine names (List.all_eq_true.mpr fun n inside => ?_)
    exact sound.names (FileTree.fileAt_eq_some_iff.mp found) n (by simp [inside])

theorem mem_listed {s : Session} (source : SourceAt t zone d.root R)
    (within : FileTree.Within zone t s.tree) {listed : List Path}
    (run : s.tree.listFiles d.root = .ok listed) (p : Path) :
    p ∈ listed ↔ ∃ ns bytes, p = d.root.descend ns ∧ t.find? (R ++ ns) = some (.file bytes) := by
  obtain ⟨base, ms, reaches, rfl, clear⟩ := source.leads
  have same (ns : List String) (bytes : Bytes) : s.tree.find? (base ++ ms ++ ns) = some (.file bytes)
      ↔ t.find? (base ++ ms ++ ns) = some (.file bytes) := by
    have outside := source.outside_below (List.prefix_append (base ++ ms) ns)
    rw [← FileTree.fileAt_eq_some_iff, within.fileAt outside, FileTree.fileAt_eq_some_iff]
  have plain : ∀ l, base ++ ms <+: l → ∀ target, s.tree.find? l ≠ some (.link target) := by
    intro l below target found
    rcases within.made l _ (source.outside_below below) found with old | made
    · exact source.plain l below target old
    · cases made
  rw [FileTree.mem_listFiles within.sound (within.reaches reaches) rfl (within.clear clear) plain run]
  simp only [same]

end SourceAt

end Content

theorem extension_of_named {p : Path} {cs : List Component} {ns : List String} (more : ns ≠ [])
    (spelled : p.components = cs ++ named ns) :
    p.extension? = (⟨false, ns⟩ : Path).extension? := by
  have some : named ns ≠ [] := by simpa [named] using more
  unfold Path.extension? Path.fileName?
  rw [spelled, Path.components_names (Path.names_of_components spelled),
    List.getLast?_append_of_ne_nil _ some]

namespace Build

/-- What a run writes for these bytes, which an input holds at the names. -/
def output (b : Build) (format : Format) (ns : List String) (bytes : Bytes) : Except Error Bytes :=
  match format with
  | .archive => Jar.renewal b.weave bytes
  | .directory =>
    if (⟨false, ns⟩ : Path).extension? = some "class" then (b.weave bytes).map (·.written bytes)
    else .ok bytes

def Mirrors (b : Build) (format : Format) (ns : List String) :
    (content file : Option Bytes) → Prop
  | none, file => file = none
  | some bytes, file => ∃ new, b.output format ns bytes = .ok new ∧ file = some new

theorem Mirrors.unique {b : Build} {format : Format} {ns : List String}
    {content file file' : Option Bytes} (one : b.Mirrors format ns content file)
    (two : b.Mirrors format ns content file') : file = file' := by
  cases content with
  | none => exact Eq.trans one (Eq.symm two)
  | some bytes =>
    obtain ⟨new, made, rfl⟩ := one
    obtain ⟨new', made', rfl⟩ := two
    rw [made] at made'
    cases made'
    rfl

inductive Becomes (b : Build) (format : Format) (ns : List String) (content : Option Bytes)
    (there : Prop) : Action → Effect → Prop
  | woven {bytes new : Bytes} (read : content = some bytes)
      (made : b.output format ns bytes = .ok new) : Becomes b format ns content there .weave (.store new)
  | copied {bytes : Bytes}
      (policy : b.config.copyUnchanged = .always ∨ (b.config.copyUnchanged = .ifMissing ∧ ¬ there))
      (read : content = some bytes) : Becomes b format ns content there .copyThrough (.store bytes)
  | kept : Becomes b format ns content there .copyThrough .keep
  | removed : Becomes b format ns content there .delete .remove
  | missed : Becomes b format ns content there .delete .miss

/-- The work for one input, whose destination stands at `P`: what is asked for, each at its place. -/
structure Handled (b : Build) (t : FileTree) (mode : BuildMode) (i : Input) (P : Location)
    (v v' : FileTree) (work : Work) : Prop where
  performed : FileTree.Performed v work v'
  distinct : (work.map Prod.fst).Nodup
  asked : ∀ x ∈ work, ∃ ns action, x.1 = P ++ ns ∧ i.Asks t ns mode action
  turn : ∀ ns action, i.Asks t ns mode action → ∃ before e after u,
    work = before ++ (P ++ ns, e) :: after ∧ FileTree.Performed v before u ∧
      b.Becomes i.format ns (i.content t ns) (u.find? (P ++ ns) ≠ none) action e

theorem Does.becomes {b : Build} {content : Option Bytes} {there : Prop} {x : PlannedFile}
    {deed : Deed} {cs : List Component} {ns : List String} (more : ns ≠ [])
    (spelled : x.file.components = cs ++ named ns) (does : b.Does content there x deed) :
    b.Becomes .directory ns content there x.action deed.effect := by
  have kind := extension_of_named more spelled
  cases does with
  | wove action named read woven =>
    rw [action]
    refine .woven read ?_
    unfold output
    rw [kind] at named
    dsimp only
    rw [if_pos named, woven]
    rfl
  | resource action named read =>
    rw [action]
    refine .woven read ?_
    unfold output
    rw [kind] at named
    dsimp only
    rw [if_neg named]
  | copied action policy read =>
    rw [action]
    exact .copied policy read
  | kept action policy =>
    rw [action]
    exact .kept
  | removed action =>
    rw [action]
    exact .removed
  | missed action =>
    rw [action]
    exact .missed

section Directory
variable {d : DirectoryInput} {t : FileTree} {zone R : Location} {s s' : Session} {mode : BuildMode}
  {files : List (Path × Action)}

theorem asks_of_work (source : SourceAt t zone d.root R) (sound : t.Sound)
    (within : FileTree.Within zone t s.tree) (worked : work mode d s = .ok files s')
    {f : Path × Action} (inside : f ∈ files) {ns : List String} (more : ns ≠ [])
    (spelled : f.1.components = d.root.components ++ named ns) :
    (Input.directory d).Asks t ns mode f.2 := by
  cases mode with
  | incremental =>
    obtain ⟨rfl, rfl⟩ := work_incremental_ok_iff.mp worked
    obtain ⟨⟨key, status⟩, there, rfl⟩ := List.mem_map.mp inside
    exact ⟨status, .file there more spelled, rfl⟩
  | full =>
    obtain ⟨listed, ran, rfl, rfl⟩ := work_full_ok_iff.mp worked
    obtain ⟨file, there, rfl⟩ := List.mem_map.mp inside
    obtain ⟨ms, bytes, rfl, found⟩ := (source.mem_listed within ran file).mp there
    have names : ∀ n ∈ ms, Path.isName n = true := fun n member =>
      sound.names found n (by simp [member])
    obtain rfl := names_of_spelled ms (Path.components_descend d.root names) spelled
    refine ⟨?_, rfl⟩
    rw [source.content sound more, FileTree.fileAt_eq_some_iff.mpr found]
    nofun

theorem work_of_asks (source : SourceAt t zone d.root R) (sound : t.Sound)
    (within : FileTree.Within zone t s.tree) (worked : work mode d s = .ok files s')
    {ns : List String} {action : Action} (asks : (Input.directory d).Asks t ns mode action) :
    ∃ f ∈ files, f.2 = action ∧ f.1.components = d.root.components ++ named ns := by
  cases mode with
  | incremental =>
    obtain ⟨rfl, rfl⟩ := work_incremental_ok_iff.mp worked
    obtain ⟨status, marks, rfl⟩ := asks
    cases marks with
    | file inside more spelled => exact ⟨_, List.mem_map.mpr ⟨_, inside, rfl⟩, rfl, spelled⟩
  | full =>
    obtain ⟨listed, ran, rfl, rfl⟩ := work_full_ok_iff.mp worked
    obtain ⟨full, rfl⟩ := asks
    have more : ns ≠ [] := by
      rintro rfl
      exact full rfl
    rw [source.content sound more] at full
    obtain ⟨bytes, found⟩ := Option.ne_none_iff_exists'.mp full
    rw [FileTree.fileAt_eq_some_iff] at found
    refine ⟨_, List.mem_map.mpr
      ⟨_, (source.mem_listed within ran _).mpr ⟨ns, bytes, rfl, found⟩, rfl⟩, rfl, ?_⟩
    exact Path.components_descend d.root fun n inside => sound.names found n (by simp [inside])

theorem directory_handled {b : Build} {destination : Path} {P : Location} {s₀ : Session}
    {planned order : List PlannedFile} (sound : t.Sound) (within : FileTree.Within zone t s.tree)
    (leads : t.Leads zone destination P) (inside : zone <+: P) (source : SourceAt t zone d.root R)
    (plan : schedule mode d destination s = .ok planned s₀) (any : order.Perm planned)
    (run : order.forM b.processItem s₀ = .ok () s') :
    ∃ work, Handled b t mode (.directory d) P s.tree s'.tree work ∧
      FileTree.Within zone t s'.tree := by
  obtain ⟨files, worked, plans, taken⟩ := schedule_ok_iff.mp plan
  have tree : s₀.tree = s.tree := by rw [taken]
  let l := fun x : PlannedFile => placeOf P destination x.target
  let o := fun x : PlannedFile => placeOf R d.root x.file
  have targets : ∀ x ∈ order, t.Target zone x.target (l x) ∧
      FileTree.EndsNamed x.target.segments := fun x there =>
    plans.target worked leads inside (any.mem_iff.mp there)
  have reads : ∀ x ∈ order, x.action ≠ .delete → t.ReadsAt zone x.file (o x) := by
    intro x there _
    obtain ⟨ns, _, spelled, _, _⟩ := plans.spelled worked (any.mem_iff.mp there)
    change t.ReadsAt zone x.file (placeOf R d.root x.file)
    rw [placeOf_eq spelled]
    exact (source.leads_file spelled).readsAt (source.outside_below (List.prefix_append R ns))
  obtain ⟨done, same, executed, within'⟩ :=
    executed_of_run sound (tree ▸ within) targets reads run
  have performed := executed.performed
  rw [tree] at performed
  refine ⟨workOf l done, ⟨performed, ?_, ?_, ?_⟩, within'⟩
  · have distinct := (any.map l).nodup_iff.mpr (plans.nodup worked)
    rw [← same, List.map_map] at distinct
    rw [workOf, List.map_map]
    exact distinct
  · intro y member
    obtain ⟨⟨x, deed⟩, held, rfl⟩ := List.mem_map.mp member
    have there : x ∈ planned := by
      rw [← any.mem_iff, ← same]
      exact List.mem_map.mpr ⟨_, held, rfl⟩
    obtain ⟨ns, more, spelled, goes, _⟩ := plans.spelled worked there
    obtain ⟨f, listed, file, action, _⟩ := related_of_mem_right plans.targets there
    refine ⟨ns, x.action, placeOf_eq goes, ?_⟩
    rw [action]
    exact asks_of_work source sound within worked listed more (by rw [← file]; exact spelled)
  · intro ns action asks
    obtain ⟨f, listed, rfl, spelled⟩ := work_of_asks source sound within worked asks
    obtain ⟨x, there, file, action, _⟩ := related_of_mem plans.targets listed
    obtain ⟨ms, more, spelled', goes, _⟩ := plans.spelled worked there
    rw [file] at spelled'
    obtain rfl := names_of_spelled ms spelled' spelled
    rw [← any.mem_iff, ← same] at there
    obtain ⟨⟨x, deed⟩, held, rfl⟩ := List.mem_map.mp there
    obtain ⟨before, after, rfl⟩ := List.append_of_mem held
    obtain ⟨u, earlier, does⟩ := executed.turn
    have place : l x = P ++ ns := placeOf_eq goes
    have origin : o x = R ++ ns := placeOf_eq (by rw [file]; exact spelled)
    rw [place, origin, ← source.content sound more] at does
    refine ⟨workOf l before, deed.effect, workOf l after, u, ?_, tree ▸ earlier, ?_⟩
    · simp [workOf, place]
    · rw [← action]
      exact does.becomes more (by rw [file]; exact spelled)

end Directory

section Archive
variable {b : Build} {jar : ArchiveInput} {t : FileTree} {zone P : Location} {s s' : Session}
  {mode : BuildMode}

theorem asks_archive {ns : List String} {action : Action}
    (asks : (Input.archive jar).Asks t ns mode action) :
    ns = [] ∧ action = Action.decide jar.status mode := by
  cases mode with
  | full =>
    obtain ⟨full, rfl⟩ := asks
    refine ⟨?_, by cases jar.status <;> rfl⟩
    by_contra more
    unfold Input.content at full
    dsimp only at full
    rw [if_neg more] at full
    exact full rfl
  | incremental =>
    obtain ⟨status, marks, rfl⟩ := asks
    cases marks
    exact ⟨rfl, rfl⟩

theorem handled_of_happens {v v' : FileTree} {e : Effect} (happens : FileTree.Happens v P e v')
    (becomes : b.Becomes .archive [] ((Input.archive jar).content t []) (v.find? P ≠ none)
      (Action.decide jar.status mode) e) :
    Handled b t mode (.archive jar) P v v' [(P, e)] where
  performed := .cons happens .nil
  distinct := by simp
  asked x inside := by
    obtain rfl := List.mem_singleton.mp inside
    refine ⟨[], Action.decide jar.status mode, (List.append_nil P).symm, ?_⟩
    cases mode with
    | full =>
      have weaves : Action.decide jar.status .full = .weave := by cases jar.status <;> rfl
      rw [weaves] at becomes ⊢
      cases becomes with
      | woven read _ => exact ⟨by rw [read]; nofun, rfl⟩
    | incremental => exact ⟨_, .jar jar, rfl⟩
  turn ns action asks := by
    obtain ⟨rfl, rfl⟩ := asks_archive asks
    refine ⟨[], e, [], v, by simp, .nil, ?_⟩
    rw [List.append_nil]
    exact becomes

theorem archive_handled {destination : Path} (sound : t.Sound)
    (within : FileTree.Within zone t s.tree) (target : t.Target zone destination P)
    (apart : (Input.archive jar).Apart t zone mode)
    (ends : Action.decide jar.status mode = .copyThrough →
      FileTree.EndsNamed destination.segments)
    (run : b.processArchive mode jar destination s = .ok () s') :
    ∃ work, Handled b t mode (.archive jar) P s.tree s'.tree work ∧
      FileTree.Within zone t s'.tree := by
  unfold processArchive at run
  cases action : Action.decide jar.status mode with
  | weave =>
    rw [action] at run
    obtain ⟨o, content, found⟩ := apart (by rw [action]; nofun)
    have reads := FileTree.readsAt_of_entry sound found
    obtain ⟨bytes, new, read, made, stores, _⟩ := Jar.renew_stores sound within target reads run
    refine ⟨[(P, .store new)], handled_of_happens (.store stores) ?_,
      within.trans (stores.within target.inside within.linkless)⟩
    rw [action]
    exact .woven (Input.content_of_read sound found read) made
  | copyThrough =>
    rw [action] at run
    obtain ⟨o, content, found⟩ := apart (by rw [action]; nofun)
    have reads := FileTree.readsAt_of_entry sound found
    rcases copyThrough_does sound within target reads (ends action) target.inside run with
      ⟨bytes, read, policy, stores, _⟩ | ⟨_, same, _⟩
    · refine ⟨[(P, .store bytes)], handled_of_happens (.store stores) ?_,
        within.trans (stores.within target.inside within.linkless)⟩
      rw [action]
      refine .copied ?_ (Input.content_of_read sound found read)
      exact policy.imp_right (And.imp_right fun gone there => there gone)
    · rw [same]
      refine ⟨[(P, .keep)], handled_of_happens .keep ?_, within⟩
      rw [action]
      exact .kept
  | delete =>
    rw [action] at run
    rcases delete_does sound within target run with ⟨there, clears, _⟩ | ⟨gone, same, _⟩
    · refine ⟨[(P, .remove)], handled_of_happens (.remove there clears) ?_,
        within.trans (clears.within target.inside within.linkless)⟩
      rw [action]
      exact .removed
    · rw [same]
      refine ⟨[(P, .miss)], handled_of_happens (.miss gone) ?_, within⟩
      rw [action]
      exact .missed

end Archive

/-- What a status says of the content before and after; a file may be called changed that is not. -/
def Describes : ChangeStatus → (before after : Option Bytes) → Prop
  | .addedOrChanged, _, after => after ≠ none
  | .removed, before, after => before ≠ none ∧ after = none
  | .unchanged, before, after => before ≠ none ∧ before = after

/-- An input tells each change, and holds what there is after it. -/
structure Accurate (t : FileTree) (i : Input) (before after : List String → Option Bytes) : Prop where
  described : ∀ ns status, i.Marks ns status → Describes status (before ns) (after ns)
  current : ∀ ns status, i.Marks ns status → status ≠ .removed → i.content t ns = after ns
  omitted : ∀ ns, (∀ status, ¬ i.Marks ns status) → before ns = after ns

namespace Handled
variable {b : Build} {t v v' : FileTree} {mode : BuildMode} {i : Input} {P : Location} {work : Work}

theorem effect_unique (handled : Handled b t mode i P v v' work) {l : Location} {e e' : Effect}
    (one : (l, e) ∈ work) (two : (l, e') ∈ work) : e = e' :=
  congrArg Prod.snd (List.inj_on_of_nodup_map handled.distinct one two rfl)

/-- Each effect comes from what is asked for at its place. -/
theorem becomes (handled : Handled b t mode i P v v' work) {l : Location} {e : Effect}
    (inside : (l, e) ∈ work) : ∃ ns action before after u, l = P ++ ns ∧ i.Asks t ns mode action ∧
      work = before ++ (l, e) :: after ∧ FileTree.Performed v before u ∧
      b.Becomes i.format ns (i.content t ns) (u.find? l ≠ none) action e := by
  obtain ⟨ns, action, rfl, asks⟩ := handled.asked _ inside
  obtain ⟨before, e', after, u, split, performed, becomes⟩ := handled.turn ns action asks
  obtain rfl : e' = e := handled.effect_unique (by rw [split]; simp) inside
  exact ⟨ns, action, before, after, u, rfl, asks, split, performed, becomes⟩

theorem orderly (handled : Handled b t mode i P v v' work)
    (files : ∀ x ∈ work, x.2.removes = true → ∃ bytes, v.find? x.1 = some (.file bytes)) :
    FileTree.Orderly v work :=
  ⟨handled.distinct, fun x inside _ _ removes _ _ => files x inside removes⟩

theorem beside (handled : Handled b t mode i P v v' work) (sound : v.Sound)
    (orderly : FileTree.Orderly v work) {m : Location} (outside : ¬ P <+: m) :
    v'.fileAt m = v.fileAt m := by
  have unstored : ∀ bytes, (m, Effect.store bytes) ∉ work := by
    intro bytes inside
    obtain ⟨ns, _, rfl, _⟩ := handled.asked _ inside
    exact outside (List.prefix_append P ns)
  have unremoved : ∀ x ∈ work, x.2 = .remove → ¬ x.1 <+: m := by
    intro x inside _ above
    obtain ⟨ns, _, same, _⟩ := handled.asked x inside
    rw [same] at above
    exact outside ((List.prefix_append P ns).trans above)
  refine Option.ext fun bytes => ?_
  rw [FileTree.fileAt_eq_some_iff, FileTree.fileAt_eq_some_iff,
    FileTree.performed_files sound orderly handled.performed]
  constructor
  · rintro (stored | ⟨old, _⟩)
    · exact absurd stored (unstored bytes)
    · exact old
  · exact fun old => .inr ⟨old, unstored, unremoved⟩

section Full
variable (handled : Handled b t .full i P v v' work)
include handled

theorem stores {l : Location} {e : Effect} (inside : (l, e) ∈ work) :
    ∃ ns bytes new, l = P ++ ns ∧ i.content t ns = some bytes ∧
      b.output i.format ns bytes = .ok new ∧ e = .store new := by
  obtain ⟨ns, action, _, _, _, rfl, ⟨_, rfl⟩, _, _, becomes⟩ := handled.becomes inside
  cases becomes with
  | woven read made => exact ⟨ns, _, _, rfl, read, made, rfl⟩

theorem full_orderly : FileTree.Orderly v work := by
  refine handled.orderly fun x inside removes => ?_
  obtain ⟨_, _, _, _, _, _, same⟩ := handled.stores inside
  rw [same] at removes
  cases removes

theorem full (sound : v.Sound) (empty : ∀ ns, v.fileAt (P ++ ns) = none) (ns : List String) :
    b.Mirrors i.format ns (i.content t ns) (v'.fileAt (P ++ ns)) := by
  have files (bytes : Bytes) : v'.fileAt (P ++ ns) = some bytes ↔
      (P ++ ns, .store bytes) ∈ work := by
    rw [FileTree.fileAt_eq_some_iff,
      FileTree.performed_files sound handled.full_orderly handled.performed]
    refine ⟨fun either => either.resolve_right ?_, .inl⟩
    rintro ⟨old, _⟩
    rw [← FileTree.fileAt_eq_some_iff, empty] at old
    cases old
  cases held : i.content t ns with
  | none =>
    refine Option.eq_none_iff_forall_ne_some.mpr fun bytes found => ?_
    obtain ⟨ms, _, _, same, read, _⟩ := handled.stores ((files bytes).mp found)
    rw [← List.append_cancel_left same, held] at read
    cases read
  | some bytes =>
    obtain ⟨before, e, after, u, split, _, becomes⟩ :=
      handled.turn ns .weave ⟨by rw [held]; nofun, rfl⟩
    cases becomes with
    | @woven bytes' new read made =>
      rw [held] at read
      cases read
      exact ⟨new, made, (files new).mpr (by rw [split]; simp)⟩

end Full

section Incremental
variable {before after : List String → Option Bytes}
  (handled : Handled b t .incremental i P v v' work) (sound : v.Sound)
  (accurate : Accurate t i before after)
  (old : ∀ ns, b.Mirrors i.format ns (before ns) (v.fileAt (P ++ ns)))

theorem file_of_mirrors {format : Format} {ns : List String} {content : Option Bytes} {l : Location}
    (full : content ≠ none) (mirrors : b.Mirrors format ns content (v.fileAt l)) :
    ∃ bytes, v.find? l = some (.file bytes) := by
  cases content with
  | none => exact absurd rfl full
  | some content =>
    obtain ⟨new, _, found⟩ := mirrors
    exact ⟨new, FileTree.fileAt_eq_some_iff.mp found⟩

include handled accurate old

theorem removes_file {x : Location × Effect} (inside : x ∈ work) (removes : x.2.removes = true) :
    ∃ bytes, v.find? x.1 = some (.file bytes) := by
  obtain ⟨ns, action, _, _, _, same, ⟨status, marks, rfl⟩, _, _, becomes⟩ := handled.becomes inside
  obtain ⟨l, e⟩ := x
  obtain rfl : l = P ++ ns := same
  have removed : status = .removed := by
    cases status with
    | removed => rfl
    | addedOrChanged =>
      cases becomes
      cases removes
    | unchanged => cases becomes <;> cases removes
  have described := accurate.described ns status marks
  rw [removed] at described
  exact file_of_mirrors described.1 (old ns)

theorem incremental_orderly : FileTree.Orderly v work :=
  handled.orderly fun _ => handled.removes_file accurate old

include sound

theorem stays {m : Location} (unstored : ∀ bytes, (m, Effect.store bytes) ∉ work)
    (unremoved : (m, Effect.remove) ∉ work) : v'.fileAt m = v.fileAt m := by
  have orderly := handled.incremental_orderly accurate old
  refine Option.ext fun bytes => ?_
  rw [FileTree.fileAt_eq_some_iff, FileTree.fileAt_eq_some_iff,
    FileTree.performed_files sound orderly handled.performed]
  constructor
  · rintro (stored | ⟨old, _⟩)
    · exact absurd stored (unstored bytes)
    · exact old
  · intro found
    refine .inr ⟨found, unstored, fun x inside removed above => ?_⟩
    obtain ⟨upper, file⟩ := handled.removes_file accurate old inside (by rw [removed]; rfl)
    by_cases same : x.1 = m
    · obtain ⟨l, e⟩ := x
      obtain rfl : l = m := same
      obtain rfl : e = .remove := removed
      exact unremoved inside
    · rw [sound.blank_below file above same] at found
      cases found

/-- An incremental run makes the change that it is told, and that alone. -/
theorem incremental (policy : b.config.copyUnchanged ≠ .always) (ns : List String) :
    b.Mirrors i.format ns (after ns) (v'.fileAt (P ++ ns)) := by
  have orderly := handled.incremental_orderly accurate old
  by_cases marked : ∃ status, i.Marks ns status
  · obtain ⟨status, marks⟩ := marked
    have described := accurate.described ns status marks
    obtain ⟨earlier, e, later, u, split, performed, becomes⟩ :=
      handled.turn ns _ ⟨status, marks, rfl⟩
    have inside : (P ++ ns, e) ∈ work := by simp [split]
    cases status with
    | addedOrChanged =>
      cases becomes with
      | woven read made =>
        rw [accurate.current ns _ marks nofun] at read
        rw [read]
        refine ⟨_, made, ?_⟩
        rw [FileTree.fileAt_eq_some_iff,
          FileTree.performed_files sound orderly handled.performed]
        exact .inl inside
    | removed =>
      obtain ⟨bytes, file⟩ := file_of_mirrors described.1 (old ns)
      have removes : e.removes = true := by cases becomes <;> rfl
      obtain rfl : e = .remove :=
        (FileTree.remove_iff sound orderly handled.performed inside removes).mpr
          (by rw [file]; nofun)
      rw [described.2]
      refine Option.eq_none_iff_forall_ne_some.mpr fun bytes found => ?_
      rw [FileTree.fileAt_eq_some_iff,
        FileTree.performed_files sound orderly handled.performed] at found
      rcases found with stored | ⟨_, _, unremoved⟩
      · cases handled.effect_unique inside stored
      · exact unremoved _ inside rfl (List.prefix_refl _)
    | unchanged =>
      obtain ⟨bytes, file⟩ := file_of_mirrors described.1 (old ns)
      have there : u.find? (P ++ ns) ≠ none :=
        FileTree.present_of_performed sound (split ▸ orderly) performed (by rw [file]; nofun)
      cases becomes with
      | copied either _ => exact absurd there (either.resolve_left policy).2
      | kept =>
        rw [handled.stays sound accurate old
          (fun bytes stored => by cases handled.effect_unique inside stored)
          (fun removed => by cases handled.effect_unique inside removed), ← described.2]
        exact old ns
  · have unmarked : ∀ e, (P ++ ns, e) ∉ work := by
      intro e inside
      obtain ⟨ms, _, same, status, marks, _⟩ := handled.asked _ inside
      obtain rfl := List.append_cancel_left same
      exact marked ⟨status, marks⟩
    rw [handled.stays sound accurate old (fun _ => unmarked _) (unmarked _),
      ← accurate.omitted ns fun status marks => marked ⟨status, marks⟩]
    exact old ns

end Incremental
end Handled
end Build
end ClassHooks
