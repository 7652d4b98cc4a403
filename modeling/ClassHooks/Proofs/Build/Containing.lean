import ClassHooks.Proofs.Build.Rejecting
import ClassHooks.Proofs.Files.Parsing

/-!
How a file may be spelled, where it is mirrored, and that mirroring stays below the destination. A
file is mirrored by the names below the root where it is spelled from the root of the file system or
with that of its input, else by all its own, and not at all if it has no such names; two files
spelled with the root are mirrored apart. Whatever is told about the files of a directory, the work
on them changes nothing that does not stand below its destination.
-/
namespace ClassHooks

open ClassHooks.Path (named)

namespace Path

/-- The names by which a file is mirrored: those below the root where the file is given from the
root of the file system or spelled with that of its input, else all its own. -/
def NamedUnder (file root : Path) (ns : List String) : Prop :=
  ns ≠ [] ∧ file.components =
    (if file.absolute || file.startsWith root then root.components else []) ++ named ns

end Path

section Counterpart
variable {root destination file : Path}

theorem counterpart_of_own (own : ¬ (file.absolute = true ∨ file.startsWith root = true)) :
    counterpart root destination file =
      if file.components.any (!·.isNormal) || file.text == "" then
        .error (.invalidDestination (.noFileUnderRoot file.text root.text))
      else .ok (destination.join file) := by
  unfold counterpart
  rw [if_neg (by simpa using own)]
  change (if _ then _ else _) = _
  split <;> rfl

theorem counterpart_own_ok {ns : List String}
    (own : ¬ (file.absolute = true ∨ file.startsWith root = true)) (more : ns ≠ [])
    (spelled : file.components = named ns) :
    counterpart root destination file = .ok (destination.join file) := by
  rw [counterpart_of_own own, passes_of_named more spelled, if_neg Bool.false_ne_true]

theorem counterpart_own_error (own : ¬ (file.absolute = true ∨ file.startsWith root = true))
    (tight : file.components = [] → file.text = "")
    (nameless : ∀ ns, ns ≠ [] → file.components ≠ named ns) :
    counterpart root destination file =
      .error (.invalidDestination (.noFileUnderRoot file.text root.text)) := by
  rw [counterpart_of_own own, if_pos]
  by_contra passes
  obtain ⟨ns, more, spelled⟩ := named_of_passes tight (eq_false_of_ne_true passes)
  exact nameless ns more spelled

theorem Path.namedUnder_iff_of_under {ns : List String}
    (under : file.absolute = true ∨ file.startsWith root = true) :
    file.NamedUnder root ns ↔ ns ≠ [] ∧ file.components = root.components ++ named ns := by
  unfold NamedUnder
  rw [if_pos (by simpa using under)]

theorem Path.namedUnder_iff_of_own {ns : List String}
    (own : ¬ (file.absolute = true ∨ file.startsWith root = true)) :
    file.NamedUnder root ns ↔ ns ≠ [] ∧ file.components = named ns := by
  unfold NamedUnder
  rw [if_neg (by simpa using own), List.nil_append]

theorem counterpart_of_names {ns : List String} (names : file.NamedUnder root ns) :
    ∃ target, counterpart root destination file = .ok target ∧
      target.components = destination.components ++ named ns := by
  by_cases under : file.absolute = true ∨ file.startsWith root = true
  · obtain ⟨more, spelled⟩ := (Path.namedUnder_iff_of_under under).mp names
    obtain ⟨target, goes⟩ := counterpart_ok more spelled destination
    obtain ⟨ms, _, spelled', placed, _⟩ := counterpart_spelled under goes
    rw [spelled, List.append_cancel_left_eq] at spelled'
    exact ⟨target, goes, spelled' ▸ placed⟩
  · obtain ⟨more, spelled⟩ := (Path.namedUnder_iff_of_own under).mp names
    exact ⟨_, counterpart_own_ok under more spelled, Path.components_join spelled destination⟩

theorem counterpart_of_nameless (tight : file.components = [] → file.text = "")
    (nameless : ∀ ns, ¬ file.NamedUnder root ns) :
    ∃ why, counterpart root destination file = .error (.invalidDestination why) := by
  by_cases under : file.absolute = true ∨ file.startsWith root = true
  · cases run : counterpart root destination file with
    | ok target =>
      obtain ⟨ns, more, spelled, _⟩ := counterpart_spelled under run
      exact absurd ((Path.namedUnder_iff_of_under under).mpr ⟨more, spelled⟩) (nameless ns)
    | error err =>
      rcases counterpart_error under run with ⟨_, rfl⟩ | ⟨_, rfl⟩ <;> exact ⟨_, rfl⟩
  · refine ⟨_, counterpart_own_error under tight fun ns more spelled => ?_⟩
    exact nameless ns ((Path.namedUnder_iff_of_own under).mpr ⟨more, spelled⟩)

theorem counterpart_injective {one two p q : Path} (first : one.startsWith root = true)
    (second : two.startsWith root = true) (goes : counterpart root destination one = .ok p)
    (goes' : counterpart root destination two = .ok q) (same : p.components = q.components) :
    one.components = two.components := by
  obtain ⟨ns, _, spelled, placed, _⟩ := counterpart_spelled (.inr first) goes
  obtain ⟨ms, _, spelled', placed', _⟩ := counterpart_spelled (.inr second) goes'
  rw [placed, placed', List.append_cancel_left_eq] at same
  rw [spelled, spelled', same]

theorem counterpart_shortened {ms rest : List String} (whole : root.components = named ms)
    (spelled : file.components = named (ms ++ rest)) :
    match counterpart root destination file with
    | .ok target => rest ≠ [] ∧ target.components = destination.components ++ named rest
    | .error err =>
      rest = [] ∧ err = .invalidDestination (.noFileUnderRoot file.text root.text) := by
  have split : file.components = root.components ++ named rest := by
    rw [spelled, whole, Path.named_append]
  have first := Path.startsWith_of_spelled split
  cases run : counterpart root destination file with
  | ok target =>
    obtain ⟨ns, more, spelled', placed, _⟩ := counterpart_spelled (.inr first) run
    rw [split, List.append_cancel_left_eq] at spelled'
    obtain rfl := Path.named_injective spelled'
    exact ⟨more, placed⟩
  | error err =>
    rcases counterpart_error (.inr first) run with ⟨outside, _⟩ | ⟨nameless, same⟩
    · rw [first] at outside
      cases outside
    · refine ⟨?_, same⟩
      by_contra more
      exact nameless ⟨rest, more, split⟩

/-- A file that is named relative to its root is mirrored below the destination by its names if it
is spelled with the root. On its own it is mirrored there too, unless it begins with the names of
the root: then it is taken for a file that is spelled with the root. -/
theorem spellings_mirrored (root destination file : Path) {ns : List String} (more : ns ≠ [])
    (spelled : file.components = named ns) :
    (∃ target, counterpart root destination (root.join file) = .ok target ∧
      target.components = (destination.join file).components) ∧
    ((∃ target, counterpart root destination file = .ok target ∧
      target.components = (destination.join file).components) ↔
        (file.startsWith root = true → root.components = [])) ∧
    ∀ ms rest, ms ≠ [] → root.components = named ms → ns = ms ++ rest →
      match counterpart root destination file with
      | .ok target => rest ≠ [] ∧ target.components = destination.components ++ named rest
      | .error err =>
        rest = [] ∧ err = .invalidDestination (.noFileUnderRoot file.text root.text) := by
  have relative := Path.relative_of_named spelled
  have placed := Path.components_join spelled destination
  refine ⟨?_, ⟨?_, fun apart => ?_⟩, ?_⟩
  · rw [placed]
    have joined := Path.components_join spelled root
    have under := Path.startsWith_join root relative
    exact counterpart_of_names ((Path.namedUnder_iff_of_under (.inr under)).mpr ⟨more, joined⟩)
  · rintro ⟨target, goes, there⟩ first
    obtain ⟨ms, _, split, placed', _⟩ := counterpart_spelled (.inr first) goes
    rw [placed'] at there
    rw [placed, List.append_cancel_left_eq] at there
    rw [spelled, there] at split
    exact List.self_eq_append_left.mp split
  · rw [placed]
    apply counterpart_of_names
    by_cases first : file.startsWith root = true
    · refine (Path.namedUnder_iff_of_under (.inr first)).mpr ⟨more, ?_⟩
      rw [apart first, spelled, List.nil_append]
    · have own : ¬ (file.absolute = true ∨ file.startsWith root = true) := by
        simp [relative, first]
      exact (Path.namedUnder_iff_of_own own).mpr ⟨more, spelled⟩
  · intro ms rest _ whole split
    exact counterpart_shortened whole (split ▸ spelled)

theorem doubled_name_mirrored :
    (∃ target, counterpart (.parse "in") (.parse "out") ((Path.parse "in").join (.parse "in/a")) =
        .ok target ∧ target.components = (Path.parse "out/in/a").components) ∧
    ∃ target, counterpart (.parse "in") (.parse "out") (.parse "in/a") = .ok target ∧
      target.components = (Path.parse "out/a").components := by
  have spelled : (Path.parse "in/a").components = named ["in", "a"] := by decide
  obtain ⟨⟨joined, goes, there⟩, _, shortened⟩ :=
    spellings_mirrored (.parse "in") (.parse "out") (.parse "in/a") (by decide) spelled
  refine ⟨⟨joined, goes, there.trans (by decide)⟩, ?_⟩
  have short := shortened ["in"] ["a"] (by decide) (by decide) rfl
  obtain ⟨target, run⟩ : ∃ target, counterpart (.parse "in") (.parse "out") (.parse "in/a") =
    .ok target := ⟨.parse "out/a", by cbv⟩
  rw [run] at short
  exact ⟨target, run, short.2.trans (by decide)⟩

/-- The two spellings of a file below a directory of the name of the root are mirrored apart. -/
theorem spellings_apart : (Path.parse "in/a").components = named ["in", "a"] ∧
    counterpart (.parse "in") (.parse "out") (.parse "in/a") = .ok (.parse "out/a") ∧
    counterpart (.parse "in") (.parse "out") ((Path.parse "in").join (.parse "in/a")) =
      .ok (.parse "out/in/a") ∧
    (Path.parse "out/a").components ≠ ((Path.parse "out").join (.parse "in/a")).components := by
  refine ⟨by decide, by cbv, by cbv, by decide⟩

end Counterpart

namespace FileTree

def OperatesBelow (destination : Path) (t u : FileTree) : Prop :=
  ∃ p : Path, p.NamesBelow destination ∧ Operates p t u

/-- Work at or below the zone: besides, only directories are made on the way to it. -/
structure Confined (zone : Location) (t u : FileTree) : Prop where
  within : Within zone t u
  beside : ∀ l, ¬ zone <+: l → u.find? l ≠ t.find? l → l <+: zone

section Confined
variable {zone l : Location} {t u v w : FileTree} {p : Path} {bytes : Bytes}

theorem Target.write_alone (target : t.Target zone p l) (sound : t.Sound) (within : Within zone t u)
    (run : u.writeFile p bytes = .ok w) : Stores u w l bytes := by
  obtain ⟨base, ms, n, reaches, rfl, linkless⟩ := target.reaches sound within
  obtain ⟨location, place, _⟩ := bind_ok_iff.mp run
  obtain ⟨_, parent, _⟩ := fileLocation_eq within.sound reaches linkless place
  exact writeFile_stores reaches linkless (.of_directory within.sound parent) run

theorem Target.copy_alone (target : t.Target zone p l) (sound : t.Sound) (within : Within zone t u)
    {source : Path} (run : u.copyFile source p = .ok w) : ∃ bytes, Stores u w l bytes := by
  obtain ⟨base, ms, n, reaches, rfl, linkless⟩ := target.reaches sound within
  obtain ⟨⟨origin, e⟩, read, written⟩ := bind_ok_iff.mp run
  cases e with
  | file bytes =>
    obtain ⟨location, place, _⟩ := bind_ok_iff.mp written
    obtain ⟨_, parent, _⟩ := fileLocation_eq within.sound reaches linkless place
    obtain ⟨_, _, _, stores⟩ :=
      copyFile_stores reaches linkless (.of_directory within.sound parent) run
    exact ⟨_, stores⟩
  | directory => cases written
  | link target => cases written

theorem Confined.refl (sound : t.Sound)
    (linkless : ∀ l, zone <+: l → ∀ target, t.find? l ≠ some (.link target)) : Confined zone t t :=
  ⟨.refl sound linkless, fun _ _ changed => absurd rfl changed⟩

theorem Confined.trans (one : Confined zone t u) (two : Confined zone u v) : Confined zone t v := by
  refine ⟨one.within.trans two.within, fun m outside changed => ?_⟩
  by_cases same : u.find? m = t.find? m
  · exact two.beside m outside (same ▸ changed)
  · exact one.beside m outside same

theorem above_of_prefix {base m : Location} (above : m <+: base) (inside : zone <+: base)
    (outside : ¬ zone <+: m) : m <+: zone :=
  (List.prefix_or_prefix_of_prefix above inside).resolve_right outside

theorem Stores.confined (stores : Stores t u l bytes) (inside : zone <+: l)
    (linkless : ∀ m, zone <+: m → ∀ target, t.find? m ≠ some (.link target)) :
    Confined zone t u := by
  refine ⟨stores.within inside linkless, fun m outside changed => ?_⟩
  rw [stores.found, if_neg (ne_of_outside outside inside)] at changed
  split at changed
  · rename_i above
    exact above_of_prefix above inside outside
  · exact absurd rfl changed

theorem Clears.confined (clears : Clears t u l) (inside : zone <+: l)
    (linkless : ∀ m, zone <+: m → ∀ target, t.find? m ≠ some (.link target)) :
    Confined zone t u := by
  refine ⟨clears.within inside linkless, fun m outside changed => ?_⟩
  rw [clears.found, if_neg fun below => outside (inside.trans below)] at changed
  exact absurd rfl changed

theorem Target.parent_confined (target : t.Target zone p l) (sound : t.Sound)
    (within : Within zone t u) (run : u.createParent p = .ok v) : Confined zone u v := by
  obtain ⟨base, ms, n, reaches, rfl, linkless⟩ := target.reaches sound within
  have made := createParent_made within.sound reaches linkless run
  refine ⟨made.within within.linkless, fun m outside changed => ?_⟩
  rw [made.found] at changed
  split at changed
  · rename_i above
    exact above_of_prefix (above.trans (by simp)) target.inside outside
  · exact absurd rfl changed

/-- One operation at a path that leads into the zone. -/
theorem Target.operates_confined (target : t.Target zone p l) (sound : t.Sound)
    (confined : Confined zone t u) (operates : Operates p u v) : Confined zone t v := by
  have within := confined.within
  apply confined.trans
  cases operates with
  | parent run => exact target.parent_confined sound within run
  | write run =>
    exact (target.write_alone sound within run).confined target.inside within.linkless
  | copy run =>
    obtain ⟨bytes, stores⟩ := target.copy_alone sound within run
    exact stores.confined target.inside within.linkless
  | remove run =>
    rcases target.remove_clears sound within run with ⟨_, _, clears⟩ | ⟨_, rfl, _⟩
    · exact clears.confined target.inside within.linkless
    · exact .refl within.sound within.linkless

theorem confined_of_operations {destination : Path} (sound : t.Sound)
    (leads : t.Leads zone destination zone)
    (linkless : ∀ l, zone <+: l → ∀ target, t.find? l ≠ some (.link target))
    (steps : Relation.ReflTransGen (OperatesBelow destination) t u) : Confined zone t u := by
  induction steps with
  | refl => exact .refl sound linkless
  | tail _ step ih =>
    obtain ⟨p, ⟨ns, more, spelled⟩, operates⟩ := step
    have target := Target.of_leads leads (List.prefix_refl zone) more spelled
    exact target.operates_confined sound ih operates

end Confined
end FileTree

namespace RunM

def ended (x : RunM α) (s : Session) : Session :=
  match x s with
  | .ok _ s' => s'
  | .error _ s' => s'

variable {x : RunM α} {f : α → RunM β} {s s' : Session}

theorem ended_of_error {e : Error} (run : x s = .error e s') : x.ended s = s' := by
  unfold ended
  rw [run]

theorem ended_bind {a : α} (run : x s = .ok a s') : (x >>= f).ended s = (f a).ended s' := by
  unfold ended
  rw [state_bind_of_ok run]

end RunM

namespace Build
variable {b : Build} {mode : BuildMode} {d : DirectoryInput} {destination : Path} {s s' : Session}

/-- The planned files are processed by operations below the destination. -/
theorem items_below {items : List PlannedFile}
    (below : ∀ x ∈ items, x.target.NamesBelow destination) (s : Session) :
    Relation.ReflTransGen (FileTree.OperatesBelow destination) s.tree
      ((items.forM b.processItem).ended s).tree := by
  induction items generalizing s with
  | nil => exact .refl
  | cons x items ih =>
    have lift : ∀ t u, Relation.ReflTransGen (FileTree.Operates x.target) t u →
        Relation.ReflTransGen (FileTree.OperatesBelow destination) t u := by
      intro t u
      apply Relation.ReflTransGen.mono
      intro _ _ operates
      exact ⟨x.target, below x (by simp), operates⟩
    have whole : (x :: items).forM b.processItem =
        b.processItem x >>= fun _ => items.forM b.processItem := rfl
    have touches := touches_processItem b x
    rw [whole]
    cases run : b.processItem x s with
    | ok done s₁ =>
      rw [RunM.ended_bind run]
      exact (lift _ _ (touches.ok run).1).trans (ih (fun y inside => below y (by simp [inside])) s₁)
    | error e s₁ =>
      rw [RunM.ended_of_error (state_bind_of_error run)]
      exact lift _ _ (touches.error run).1

theorem tree_of_schedule_error {err : Error}
    (run : schedule mode d destination s = .error err s') : s'.tree = s.tree := by
  rcases state_bind_error_iff.mp run with failed | ⟨files, s₁, worked, failed⟩
  · rw [state_of_work_error failed]
  · obtain ⟨rfl, under⟩ := work_under worked
    obtain ⟨_, taken, rfl⟩ := plans_error under failed
    rfl

theorem directory_below (b : Build) (mode : BuildMode) (d : DirectoryInput) (destination : Path)
    (s : Session) : Relation.ReflTransGen (FileTree.OperatesBelow destination) s.tree
      ((b.processDirectory mode d destination).ended s).tree := by
  have parts : b.processDirectory mode d destination =
      schedule mode d destination >>= fun planned => planned.forM b.processItem := by
    unfold processDirectory schedule
    simp
  cases run : schedule mode d destination s with
  | ok planned s₀ =>
    obtain ⟨files, worked, plans, rfl⟩ := schedule_ok_iff.mp run
    rw [parts, RunM.ended_bind run]
    refine items_below (fun x inside => ?_) { s with ledger := s.ledger.taking _ }
    obtain ⟨ns, more, _, placed, _⟩ := plans.spelled worked inside
    exact ⟨ns, more, placed⟩
  | error err s₀ =>
    rw [parts, RunM.ended_of_error (state_bind_of_error run), tree_of_schedule_error run]

/-- A text is mirrored by its proper names below the destination, or it has none and its destination
is invalid; files spelled with the root are mirrored to one path only if they have the same
components. Whatever is told about the files of a directory, the work on them, also where it fails,
consists of operations at paths that go on below the destination by names: where no link stands in
the destination, all outside of it is as it was, but for directories that are made on the way to
it. -/
theorem mirroring_contained (root destination : Path) :
    (∀ text : String, match counterpart root destination (.parse text) with
      | .ok target => ∃ ns, (Path.parse text).NamedUnder root ns ∧
          (∀ n ∈ ns, Path.isName n = true ∧ '/' ∉ n.toList) ∧
          target.components = destination.components ++ named ns
      | .error err => (∀ ns, ¬ (Path.parse text).NamedUnder root ns) ∧
          ∃ why, err = .invalidDestination why) ∧
    (∀ one two p q : Path, one.startsWith root = true → two.startsWith root = true →
      counterpart root destination one = .ok p → counterpart root destination two = .ok q →
      p.components = q.components → one.components = two.components) ∧
    ∀ (b : Build) (mode : BuildMode) (name : String) (changes : ChangeMap) (s : Session),
      let s' := (b.processDirectory mode ⟨name, root, changes⟩ destination).ended s
      Relation.ReflTransGen (FileTree.OperatesBelow destination) s.tree s'.tree ∧
      ∀ zone, s.tree.Sound → s.tree.Leads zone destination zone →
        (∀ l, zone <+: l → ∀ target, s.tree.find? l ≠ some (.link target)) →
        ∀ l, ¬ zone <+: l → s'.tree.find? l = s.tree.find? l ∨
          (s.tree.find? l = none ∧ s'.tree.find? l = some .directory ∧ l <+: zone) := by
  refine ⟨fun text => ?_, fun one two p q => counterpart_injective, ?_⟩
  · by_cases nameless : ∀ ns, ¬ (Path.parse text).NamedUnder root ns
    · obtain ⟨why, run⟩ := counterpart_of_nameless Path.text_of_parse nameless
      rw [run]
      exact ⟨nameless, why, rfl⟩
    · rw [not_forall] at nameless
      obtain ⟨ns, names⟩ := nameless
      obtain ⟨target, run, placed⟩ := counterpart_of_names (not_not.mp names)
      rw [run]
      exact ⟨ns, not_not.mp names, Path.plain_of_named (not_not.mp names).2, placed⟩
  · intro b mode name changes s s'
    have steps := directory_below b mode ⟨name, root, changes⟩ destination s
    refine ⟨steps, fun zone sound leads linkless l outside => ?_⟩
    have confined := FileTree.confined_of_operations sound leads linkless steps
    by_cases same : s'.tree.find? l = s.tree.find? l
    · exact .inl same
    right
    have before : s.tree.find? l = none := by
      by_contra there
      obtain ⟨e, there⟩ := Option.ne_none_iff_exists'.mp there
      exact same (by rw [there]; exact confined.within.kept l e outside there)
    obtain ⟨e, after⟩ := Option.ne_none_iff_exists'.mp (before ▸ same)
    have made := (confined.within.made l e outside after).resolve_left (by rw [before]; nofun)
    exact ⟨before, made ▸ after, confined.beside l outside same⟩

def neighbours : FileTree :=
  workspace [(["in"], .directory), (["in", "a"], .file [1]), (["out"], .directory),
    (["out", "d"], .directory), (["out", "d", "b"], .file [2]), (["out", "kept"], .file [3])]

def neighbourChanges : DirectoryInput :=
  directoryWith "in" [("a", .addedOrChanged), ("b", .removed)]

theorem neighbours_contained :
    (∃ target, counterpart (.parse "in") (.parse "out/d") (.parse "in//a/.") = .ok target ∧
      ∃ ns, (Path.parse "in//a/.").NamedUnder (.parse "in") ns ∧
        target.components = (Path.parse "out/d").components ++ named ns) ∧
    (Path.parse "in/./a").components = (Path.parse "in//a/.").components ∧
    ∃ s', ((hookless .always).processDirectory .incremental neighbourChanges (.parse "out/d")).ended
        ⟨neighbours, .start .incremental, []⟩ = s' ∧
      s'.tree.find? ["w", "out", "d", "a"] = some (.file [1]) ∧
      s'.tree.find? ["w", "out", "d", "b"] = none ∧
      s'.tree.find? ["w", "out", "kept"] = some (.file [3]) := by
  obtain ⟨texts, apart, work⟩ := mirroring_contained (.parse "in") (.parse "out/d")
  obtain ⟨p, goes⟩ : ∃ p, counterpart (.parse "in") (.parse "out/d") (.parse "in//a/.") = .ok p :=
    ⟨.parse "out/d/a", by cbv⟩
  obtain ⟨q, goes'⟩ : ∃ q, counterpart (.parse "in") (.parse "out/d") (.parse "in/./a") = .ok q :=
    ⟨.parse "out/d/a", by cbv⟩
  refine ⟨⟨p, goes, ?_⟩, ?_, ?_⟩
  · have named := texts "in//a/."
    rw [goes] at named
    obtain ⟨ns, names, _, placed⟩ := named
    exact ⟨ns, names, placed⟩
  · have same : counterpart (.parse "in") (.parse "out/d") (.parse "in//a/.") =
        counterpart (.parse "in") (.parse "out/d") (.parse "in/./a") := by cbv
    rw [goes, goes'] at same
    cases same
    exact apart _ _ _ _ (by decide) (by decide) goes' goes rfl
  · obtain ⟨_, contained⟩ := work (hookless .always) .incremental "in" neighbourChanges.changes
      ⟨neighbours, .start .incremental, []⟩
    have linkless : ∀ l target, neighbours.find? l ≠ some (.link target) :=
      FileTree.linkless_of_entries (by decide)
    have spelled : (Path.parse "out/d").components = named ["out", "d"] := by decide
    have leads : neighbours.Leads ["w", "out", "d"] (.parse "out/d") ["w", "out", "d"] :=
      FileTree.leads_of_named spelled (by decide) linkless
    have kept := contained ["w", "out", "d"] (by decide) leads (fun l _ => linkless l)
      ["w", "out", "kept"] (by decide)
    refine ⟨_, rfl, by cbv, by cbv, (kept.resolve_right ?_).trans (by decide)⟩
    rintro ⟨gone, _⟩
    revert gone
    decide

end Build
end ClassHooks
