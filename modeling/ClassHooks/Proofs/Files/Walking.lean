import Mathlib
import ClassHooks.Proofs.Files.Listing

/-!
What a listing finds in a directory with links. Each directory is entered once, by the way that
happens to come first; its files are listed by that way, which need not be their own path.
-/
namespace ClassHooks
namespace FileTree

open ClassHooks.Path (named)

section Entry
variable {t : FileTree} {k : Nat} {l m : Location} {xs : List String}

theorem follows_of_walk (run : t.walk true k l xs = .ok (.entry m .directory)) :
    ∃ j, t.Follows k l xs j m := by
  fun_induction t.walk true k l xs with
  | case1 links here =>
    cases run
    exact ⟨links, .done⟩
  | case2 links here segment rest blank ih =>
    obtain ⟨j, follows⟩ := ih run
    exact ⟨j, .stay blank follows⟩
  | case3 links here rest _ ih =>
    obtain ⟨j, follows⟩ := ih run
    exact ⟨j, .up follows⟩
  | case4 => cases run
  | case5 => cases run
  | case6 links here segment rest full up found ih =>
    obtain ⟨j, follows⟩ := ih run
    exact ⟨j, .down (isName_of_not full up) found follows⟩
  | case7 => cases run
  | case8 => cases run
  | case9 => cases run
  | case10 => cases run
  | case11 here segment rest full up target found onward links ih =>
    obtain ⟨j, follows⟩ := ih run
    exact ⟨j, .through (isName_of_not full up) found follows⟩

theorem reaches_of_entry {p : Path} (run : t.entry p = .ok (l, .directory)) :
    t.Reaches p l [] := by
  have resolved := entry_eq_ok_iff.mp run
  obtain ⟨start, k, follows⟩ : t.find? (t.origin p) = some .directory ∧
      ∃ k, t.Follows linkLimit (t.origin p) p.segments k l := by
    unfold origin
    unfold resolve at resolved
    split at resolved
    · rename_i absolute
      rw [if_pos absolute]
      exact ⟨rfl, follows_of_walk resolved⟩
    · rename_i relative
      rw [if_neg relative]
      split at resolved
      · cases resolved
      · split at resolved
        · rename_i home
          exact ⟨isDirectoryAt_iff.mp home, follows_of_walk resolved⟩
        · cases resolved
  refine ⟨start, p.components, k, by simp [named], ?_⟩
  rw [← Path.significant_segments, follows_significant]
  exact follows

theorem entry_below (sound : t.Sound) {p : Path} (there : t.entry p = .ok (l, .directory))
    {n : String} {e : Entry} (found : t.find? (l ++ [n]) = some e)
    (plain : ∀ target, e ≠ .link target) :
    t.entry (p.join ⟨false, [n]⟩) = .ok (l ++ [n], e) := by
  have name : ∀ m ∈ [n], Path.isName m = true := by
    intro m inside
    exact sound.names found m (List.mem_append_right _ inside)
  have below := (reaches_of_entry there).below (Path.components_join (Path.components_names name) p)
  have house := find?_of_entry sound there
  have linkless : t.Linkless l (l ++ [n]) := by
    intro i from' to' target link
    rcases List.prefix_concat_iff.mp to' with rfl | upper
    · rw [found] at link
      exact plain target (Option.some.inj link)
    · obtain rfl := from'.eq_of_length_le upper.length_le
      rw [house] at link
      cases link
  have ends : EndsNamed (p.join ⟨false, [n]⟩).segments :=
    Path.endsNamed_descend p name (List.cons_ne_nil _ _)
  exact entry_eq_ok_iff.mpr
    (below.resolve_entry sound linkless true (List.cons_ne_nil _ _) found (.inr ends))

end Entry

section Contents
variable {t : FileTree} {directory : Path} {found : Contents} {entries : List (String × Entry)}

/-- An entry that is no link is what the path below the directory leads to. -/
def Faithful (t : FileTree) (directory : Path) (c : String × Entry) : Prop :=
  (∀ target, c.2 ≠ .link target) → ∃ l, t.entry (directory.join ⟨false, [c.1]⟩) = .ok (l, c.2)

theorem contents_cons_entry {c : String × Entry} (faithful : t.Faithful directory c)
    (run : t.contents directory (c :: entries) = .ok found) :
    ∃ l e rest, t.entry (directory.join ⟨false, [c.1]⟩) = .ok (l, e) ∧
      t.contents directory entries = .ok rest ∧
      found = added (directory.join ⟨false, [c.1]⟩) e rest := by
  obtain ⟨n, e⟩ := c
  obtain ⟨e', rest, leads, others, rfl⟩ := contents_cons_ok run
  by_cases plain : ∀ target, e ≠ .link target
  · obtain ⟨l, stands⟩ := faithful plain
    obtain rfl := followed_plain plain leads
    exact ⟨l, e', rest, stands, others, rfl⟩
  · obtain ⟨target, rfl⟩ : ∃ target, e = .link target := by simpa using plain
    obtain ⟨l, stands⟩ := followed_link leads
    exact ⟨l, e', rest, stands, others, rfl⟩

theorem contents_followed (faithful : ∀ c ∈ entries, t.Faithful directory c)
    (run : t.contents directory entries = .ok found) (p : Path) :
    (p ∈ found.below ↔ ∃ c ∈ entries, p = directory.join ⟨false, [c.1]⟩ ∧
        ∃ l, t.entry p = .ok (l, .directory)) ∧
      (p ∈ found.files ↔ ∃ c ∈ entries, p = directory.join ⟨false, [c.1]⟩ ∧
        ∃ l bytes, t.entry p = .ok (l, .file bytes)) := by
  induction entries generalizing found with
  | nil =>
    cases run
    simp
  | cons c entries ih =>
    rw [List.forall_mem_cons] at faithful
    obtain ⟨l, e, rest, leads, others, rfl⟩ := contents_cons_entry faithful.1 run
    obtain ⟨below, files⟩ := ih faithful.2 others
    simp only [List.exists_mem_cons_iff]
    rw [← below, ← files]
    by_cases here : p = directory.join ⟨false, [c.1]⟩
    · rw [here, leads]
      cases e <;> simp [added]
    · cases e <;> simp [added, here]

theorem faithful_of_children (sound : t.Sound) {l : Location}
    (entered : t.entry directory = .ok (l, .directory)) :
    ∀ c ∈ t.children l, t.Faithful directory c := by
  intro c inside plain
  exact ⟨_, entry_below sound entered (sound.mem_children.mp inside) plain⟩

theorem contents_of_children (sound : t.Sound) {l : Location}
    (entered : t.entry directory = .ok (l, .directory))
    (run : t.contents directory (t.children l) = .ok found) (p : Path) :
    (p ∈ found.below ↔ ∃ n e, t.find? (l ++ [n]) = some e ∧ p = directory.join ⟨false, [n]⟩ ∧
        ∃ m, t.entry p = .ok (m, .directory)) ∧
      (p ∈ found.files ↔ ∃ n e, t.find? (l ++ [n]) = some e ∧ p = directory.join ⟨false, [n]⟩ ∧
        ∃ m bytes, t.entry p = .ok (m, .file bytes)) := by
  obtain ⟨below, files⟩ := contents_followed (faithful_of_children sound entered) run p
  rw [below, files]
  simp only [Prod.exists, sound.mem_children, and_self]

end Contents

/-- Names that lead from directory to directory, and these directories, the last one first. No
directory is entered twice. -/
inductive Way (t : FileTree) (root : Path) : List String → List Location → Prop where
  | start {R : Location} (there : t.entry root = .ok (R, .directory)) : Way t root [] [R]
  | down {qs : List String} {here l : Location} {above : List Location} {n : String} {e : Entry}
      (way : Way t root qs (here :: above)) (stands : t.find? (here ++ [n]) = some e)
      (leads : t.entry (root.descend (qs ++ [n])) = .ok (l, .directory))
      (new : l ∉ here :: above) : Way t root (qs ++ [n]) (l :: here :: above)

def Sturdy (t : FileTree) (root : Path) : Prop :=
  ∀ qs here above n target, Way t root qs (here :: above) →
    t.find? (here ++ [n]) = some (.link target) → ∃ x, t.entry (root.descend (qs ++ [n])) = .ok x

section Ways
variable {t : FileTree} {root : Path} {qs : List String} {here : Location} {above : List Location}

theorem Way.entry (way : t.Way root qs (here :: above)) :
    t.entry (root.descend qs) = .ok (here, .directory) := by
  cases way with
  | start there => exact there
  | down _ _ leads _ => exact leads

theorem Way.names (sound : t.Sound) {ls : List Location} (way : t.Way root qs ls) :
    ∀ n ∈ qs, Path.isName n = true := by
  induction way with
  | start => exact nofun
  | down _ stands _ _ ih =>
    intro m inside
    rcases List.mem_append.mp inside with before | last
    · exact ih m before
    · exact sound.names stands m (List.mem_append_right _ last)

end Ways

/-- A directory that is to be entered. If it was not entered before, a way leads there over
directories that were. -/
def Waits (t : FileTree) (root : Path) (unvisited : List Location) (p : Path) : Prop :=
  ∃ qs l, p = root.descend qs ∧ t.entry p = .ok (l, .directory) ∧
    (l ∈ unvisited → ∃ above, t.Way root qs (l :: above) ∧ ∀ a ∈ above, a ∉ unvisited)

def Due (t : FileTree) (unvisited : List Location) (pending : List Path) (l : Location) : Prop :=
  l ∉ unvisited ∨ ∃ p ∈ pending, t.entry p = .ok (l, .directory)

/-- The directory was entered by some way, and what stands in it was noted by that way. -/
def Walked (t : FileTree) (root : Path) (unvisited : List Location) (files pending : List Path)
    (l : Location) : Prop :=
  ∃ qs above, t.Way root qs (l :: above) ∧
    (∀ n bytes, t.find? (l ++ [n]) = some (.file bytes) → root.descend (qs ++ [n]) ∈ files) ∧
    ∀ n, t.find? (l ++ [n]) = some .directory → t.Due unvisited pending (l ++ [n])

structure Survey (t : FileTree) (root : Path) (R : Location) (unvisited : List Location)
    (files pending : List Path) : Prop where
  once : unvisited.Nodup
  waits : ∀ p ∈ pending, t.Waits root unvisited p
  first : t.Due unvisited pending R
  walked : ∀ l, t.find? l = some .directory → l ∉ unvisited →
    t.Walked root unvisited files pending l

section Survey
variable {t : FileTree} {root directory : Path} {R location : Location}
  {unvisited : List Location} {files pending : List Path}

theorem Waits.erase {p : Path} (waits : t.Waits root unvisited p) (l : Location) :
    t.Waits root (unvisited.erase l) p := by
  obtain ⟨qs, here, spelled, entry, way⟩ := waits
  refine ⟨qs, here, spelled, entry, ?_⟩
  intro left
  obtain ⟨above, way, old⟩ := way (List.mem_of_mem_erase left)
  exact ⟨above, way, fun a inside back => old a inside (List.mem_of_mem_erase back)⟩

theorem Due.enter {l : Location} (due : t.Due unvisited (directory :: pending) l)
    (once : unvisited.Nodup) (entered : t.entry directory = .ok (location, .directory))
    (new : List Path) : t.Due (unvisited.erase location) (new ++ pending) l := by
  rcases due with gone | ⟨p, inside, leads⟩
  · exact .inl fun back => gone (List.mem_of_mem_erase back)
  rcases List.mem_cons.mp inside with rfl | waiting
  · rw [entered] at leads
    cases leads
    exact .inl fun back => ((once.mem_erase_iff).mp back).1 rfl
  · exact .inr ⟨p, List.mem_append_right _ waiting, leads⟩

theorem Due.skip {l : Location} (due : t.Due unvisited (directory :: pending) l)
    (entered : t.entry directory = .ok (location, .directory)) (gone : location ∉ unvisited) :
    t.Due unvisited pending l := by
  rcases due with visited | ⟨p, inside, leads⟩
  · exact .inl visited
  rcases List.mem_cons.mp inside with rfl | waiting
  · rw [entered] at leads
    cases leads
    exact .inl gone
  · exact .inr ⟨p, waiting, leads⟩

theorem Survey.skip (survey : t.Survey root R unvisited files (directory :: pending))
    (entered : t.entry directory = .ok (location, .directory)) (gone : location ∉ unvisited) :
    t.Survey root R unvisited files pending where
  once := survey.once
  waits p inside := survey.waits p (List.mem_cons_of_mem _ inside)
  first := survey.first.skip entered gone
  walked l there visited := by
    obtain ⟨qs, above, way, listed, below⟩ := survey.walked l there visited
    exact ⟨qs, above, way, listed, fun n found => (below n found).skip entered gone⟩

theorem Survey.next (survey : t.Survey root R unvisited files (directory :: pending)) :
    ∃ l, t.entry directory = .ok (l, .directory) := by
  obtain ⟨_, l, _, entry, _⟩ := survey.waits directory List.mem_cons_self
  exact ⟨l, entry⟩

theorem Survey.way (survey : t.Survey root R unvisited files (directory :: pending))
    (entered : t.entry directory = .ok (location, .directory)) (visited : location ∈ unvisited) :
    ∃ qs above, directory = root.descend qs ∧ t.Way root qs (location :: above) ∧
      ∀ a ∈ above, a ∉ unvisited := by
  obtain ⟨qs, l, spelled, entry, way⟩ := survey.waits directory List.mem_cons_self
  rw [entered] at entry
  cases entry
  obtain ⟨above, way, old⟩ := way visited
  exact ⟨qs, above, spelled, way, old⟩

/-- A directory is entered: what stands in it is listed, or is to be entered. -/
theorem Survey.enter (sound : t.Sound)
    (survey : t.Survey root R unvisited files (directory :: pending))
    (entered : t.entry directory = .ok (location, .directory)) (visited : location ∈ unvisited)
    {found : Contents} (contributed : t.contents directory (t.children location) = .ok found) :
    t.Survey root R (unvisited.erase location) (files ++ found.files)
      (found.below.reverse ++ pending) := by
  have once := survey.once
  obtain ⟨qs, above, rfl, way, old⟩ := survey.way entered visited
  have names := way.names sound
  have contributes := contents_of_children sound entered contributed
  have left : ∀ a ∈ location :: above, a ∉ unvisited.erase location := by
    intro a inside back
    obtain ⟨other, there⟩ := once.mem_erase_iff.mp back
    rcases List.mem_cons.mp inside with same | upper
    · exact other same
    · exact old a upper there
  constructor
  case once => exact once.erase location
  case waits =>
    intro p inside
    rcases List.mem_append.mp inside with new | waiting
    · obtain ⟨n, e, stands, spelled, l, leads⟩ :=
        (contributes p).1.mp (List.mem_reverse.mp new)
      rw [Path.descend_name root names] at spelled
      refine ⟨qs ++ [n], l, spelled, leads, ?_⟩
      intro fresh
      have apart : l ∉ location :: above := fun inside => left l inside fresh
      exact ⟨location :: above, .down way stands (spelled ▸ leads) apart, left⟩
    · exact (survey.waits p (List.mem_cons_of_mem _ waiting)).erase location
  case first => exact survey.first.enter once entered _
  case walked =>
    intro l there gone
    by_cases here : l = location
    · subst here
      refine ⟨qs, above, way, ?_, ?_⟩
      · intro n bytes stands
        have leads := entry_below sound entered stands nofun
        rw [← Path.descend_name root names]
        exact List.mem_append_right _ ((contributes _).2.mpr ⟨n, _, stands, rfl, _, _, leads⟩)
      · intro n stands
        have leads := entry_below sound entered stands nofun
        have new := (contributes _).1.mpr ⟨n, _, stands, rfl, _, leads⟩
        exact .inr ⟨_, List.mem_append_left _ (List.mem_reverse.mpr new), leads⟩
    · have before : l ∉ unvisited := fun inside => gone ((List.mem_erase_of_ne here).mpr inside)
      obtain ⟨qs', above', way', listed, below⟩ := survey.walked l there before
      refine ⟨qs', above', way', ?_, fun n stands => (below n stands).enter once entered _⟩
      exact fun n bytes stands => List.mem_append_left _ (listed n bytes stands)

theorem Sturdy.leads (sound : t.Sound) (sturdy : t.Sturdy root) {qs : List String}
    {above : List Location} (way : t.Way root qs (location :: above)) :
    ∀ c ∈ t.children location,
      ∃ x, t.entry ((root.descend qs).join ⟨false, [c.1]⟩) = .ok x := by
  intro c inside
  obtain ⟨n, e⟩ := c
  have stands := sound.mem_children.mp inside
  by_cases plain : ∀ target, e ≠ .link target
  · exact ⟨_, entry_below sound way.entry stands plain⟩
  · obtain ⟨target, rfl⟩ : ∃ target, e = .link target := by simpa using plain
    rw [Path.descend_name root (way.names sound)]
    exact sturdy qs location above n target way stands

theorem Survey.run (sound : t.Sound) (survey : t.Survey root R unvisited files pending)
    {listed : List Path} (run : t.listFrom unvisited files pending = .ok listed) :
    ∃ left, t.Survey root R left listed [] := by
  fun_induction t.listFrom unvisited files pending with
  | case1 unvisited files =>
    cases run
    exact ⟨unvisited, survey⟩
  | case2 => cases run
  | case3 => cases run
  | case4 => cases run
  | case5 => cases run
  | case6 unvisited files directory pending location entered visited found contributed ih =>
    exact ih (survey.enter sound entered visited contributed) run
  | case7 unvisited files directory pending location entered gone ih =>
    exact ih (survey.skip entered gone) run

theorem Survey.succeeds (sound : t.Sound) (sturdy : t.Sturdy root)
    (survey : t.Survey root R unvisited files pending) :
    ∃ listed, t.listFrom unvisited files pending = .ok listed := by
  fun_induction t.listFrom unvisited files pending with
  | case1 => exact ⟨_, rfl⟩
  | case2 unvisited files directory pending fault failed =>
    obtain ⟨_, entry⟩ := survey.next
    rw [failed] at entry
    cases entry
  | case3 unvisited files directory pending l bytes found =>
    obtain ⟨_, entry⟩ := survey.next
    rw [found] at entry
    cases entry
  | case4 unvisited files directory pending l target found =>
    obtain ⟨_, entry⟩ := survey.next
    rw [found] at entry
    cases entry
  | case5 unvisited files directory pending location entered visited e failed =>
    obtain ⟨qs, above, rfl, way, _⟩ := survey.way entered visited
    obtain ⟨n, target, fault, inside, nowhere, _⟩ := contents_error failed
    obtain ⟨x, leads⟩ := sturdy.leads sound way _ inside
    rw [nowhere] at leads
    cases leads
  | case6 unvisited files directory pending location entered visited found contributed ih =>
    exact ih (survey.enter sound entered visited contributed)
  | case7 unvisited files directory pending location entered gone ih =>
    exact ih (survey.skip entered gone)

/-- At the end every directory below the root was entered, since each is due when the one above it
was entered. -/
theorem Survey.entered (sound : t.Sound) (survey : t.Survey root R unvisited files [])
    {ms : List String} (there : t.find? (R ++ ms) = some .directory) : R ++ ms ∉ unvisited := by
  have gone : ∀ {l}, t.Due unvisited [] l → l ∉ unvisited := by
    intro l due
    rcases due with gone | ⟨p, none, _⟩
    · exact gone
    · cases none
  induction ms using List.reverseRecOn with
  | nil =>
    rw [List.append_nil]
    exact gone survey.first
  | append_singleton ms m ih =>
    rw [← List.append_assoc] at there ⊢
    have above := sound.housed _ m _ there
    obtain ⟨_, _, _, _, below⟩ := survey.walked _ above (ih above)
    exact gone (below m there)

end Survey

section Listing
variable {t : FileTree} {root : Path} {R : Location}

theorem directories_nodup (sound : t.Sound) : t.directories.Nodup := by
  unfold directories
  rw [List.nodup_cons]
  constructor
  · intro inside
    obtain ⟨e, member, empty⟩ := List.mem_map.mp inside
    exact (sound.named e (List.mem_filter.mp member).1).1 empty
  · exact (List.filter_sublist.map _).nodup sound.distinct

theorem survey_start (sound : t.Sound) (there : t.entry root = .ok (R, .directory)) :
    t.Survey root R t.directories [] [root] where
  once := directories_nodup sound
  waits p inside := by
    obtain rfl := List.mem_singleton.mp inside
    exact ⟨[], R, rfl, there, fun _ => ⟨[], .start there, nofun⟩⟩
  first := .inr ⟨root, List.mem_singleton_self root, there⟩
  walked l found gone := absurd (mem_directories found) gone

/-- A listing fails for nothing but a link that leads nowhere. It lists each file below the root,
whatever links there are besides; but by the way by which the directory of the file was entered first,
so that only a file to which no other way leads is sure to be listed by its own path. -/
theorem listing_finds_files (sound : t.Sound) (there : t.entry root = .ok (R, .directory)) :
    (t.Sturdy root → ∃ listed, t.listFiles root = .ok listed) ∧
    ∀ listed, t.listFiles root = .ok listed → ∀ ms n bytes,
      t.find? (R ++ (ms ++ [n])) = some (.file bytes) →
      (∃ qs above, t.Way root qs ((R ++ ms) :: above) ∧ root.descend (qs ++ [n]) ∈ listed ∧
        t.entry (root.descend (qs ++ [n])) = .ok (R ++ (ms ++ [n]), .file bytes)) ∧
      ((∀ qs above, t.Way root qs ((R ++ ms) :: above) → qs = ms) →
        root.descend (ms ++ [n]) ∈ listed) := by
  have start := survey_start sound there
  constructor
  · intro sturdy
    obtain ⟨files, walked⟩ := start.succeeds sound sturdy
    exact ⟨_, bind_ok_iff.mpr ⟨files, walked, rfl⟩⟩
  · intro listed run ms n bytes file
    obtain ⟨files, walked, sorted⟩ := bind_ok_iff.mp run
    cases sorted
    obtain ⟨left, survey⟩ := start.run sound walked
    rw [← List.append_assoc] at file
    have house := sound.housed _ n _ file
    obtain ⟨qs, above, way, inside, _⟩ := survey.walked _ house (survey.entered sound house)
    have here : root.descend (qs ++ [n]) ∈ files.mergeSort fun a b => (a.compare b).isLE :=
      List.mem_mergeSort.mpr (inside n bytes file)
    have leads := entry_below sound way.entry file nofun
    rw [Path.descend_name root (way.names sound), List.append_assoc] at leads
    refine ⟨⟨qs, above, way, here, leads⟩, ?_⟩
    intro only
    rwa [only qs above way] at here

def knotted : FileTree :=
  ⟨[(["in"], .directory), (["in", "deep"], .directory), (["in", "deep", "b"], .file [1]),
    (["in", "deep", "up"], .link (.parse ".."))], []⟩

theorem knotted_sound : knotted.Sound := by decide

theorem knotted_up : knotted.entry ((Path.parse "/in").descend ["deep", "up"]) =
    .ok (["in"], .directory) := by cbv

theorem knotted_ways {qs : List String} {ls : List Location}
    (way : knotted.Way (.parse "/in") qs ls) :
    (qs = [] ∧ ls = [["in"]]) ∨ (qs = ["deep"] ∧ ls = [["in", "deep"], ["in"]]) := by
  induction way with
  | start there =>
    have root : knotted.entry (.parse "/in") = .ok (["in"], .directory) := by cbv
    rw [root] at there
    cases there
    exact .inl ⟨rfl, rfl⟩
  | @down qs here l above n e way stands leads new ih =>
    have listed : n ∈ (knotted.children here).map Prod.fst :=
      List.mem_map_of_mem (knotted_sound.mem_children.mpr stands)
    rcases ih with ⟨rfl, same⟩ | ⟨rfl, same⟩
    · cases same
      have names : (knotted.children ["in"]).map Prod.fst = ["deep"] := by decide
      have deep : knotted.entry ((Path.parse "/in").descend ["deep"]) =
          .ok (["in", "deep"], .directory) := by cbv
      obtain rfl := List.mem_singleton.mp (names ▸ listed)
      rw [List.nil_append, deep] at leads
      cases leads
      exact .inr ⟨rfl, rfl⟩
    · cases same
      have names : (knotted.children ["in", "deep"]).map Prod.fst = ["b", "up"] := by decide
      have file : knotted.entry ((Path.parse "/in").descend ["deep", "b"]) =
          .ok (["in", "deep", "b"], .file [1]) := by cbv
      rcases List.mem_pair.mp (names ▸ listed) with rfl | rfl
      · rw [List.singleton_append, file] at leads
        cases leads
      · rw [List.singleton_append, knotted_up] at leads
        cases leads
        exact absurd (List.mem_cons_of_mem _ (List.mem_singleton_self _)) new

theorem knotted_sturdy : knotted.Sturdy (.parse "/in") := by
  intro qs here above n target way stands
  have inside := knotted_sound.mem_children.mpr stands
  rcases knotted_ways way with ⟨rfl, same⟩ | ⟨rfl, same⟩
  · cases same
    have children : knotted.children ["in"] = [("deep", .directory)] := by decide
    simp [children] at inside
  · cases same
    have children : knotted.children ["in", "deep"] =
        [("b", .file [1]), ("up", .link (.parse ".."))] := by decide
    obtain ⟨rfl, _⟩ : n = "up" ∧ _ := by simpa [children] using inside
    exact ⟨_, knotted_up⟩

theorem knotted_listed : ∃ listed, knotted.listFiles (.parse "/in") = .ok listed ∧
    Path.parse "/in/deep/b" ∈ listed := by
  have root : knotted.entry (.parse "/in") = .ok (["in"], .directory) := by cbv
  obtain ⟨succeeds, finds⟩ := listing_finds_files knotted_sound root
  obtain ⟨listed, run⟩ := succeeds knotted_sturdy
  refine ⟨listed, run, (finds listed run ["deep"] "b" [1] (by decide)).2 ?_⟩
  intro qs above way
  rcases knotted_ways way with ⟨rfl, same⟩ | ⟨rfl, _⟩
  · cases same
  · rfl

/-- A file below the root is not listed by its own path, on which there is no link. -/
def Hides (t : FileTree) (root : Path) (R : Location) : Prop :=
  t.Sound ∧ t.entry root = .ok (R, .directory) ∧ ∃ listed ms n bytes,
    t.listFiles root = .ok listed ∧ t.find? (R ++ (ms ++ [n])) = some (.file bytes) ∧
    root.descend (ms ++ [n]) ∉ listed

def crossed (first second : String) : FileTree :=
  ⟨[(["in"], .directory), (["in", first], .directory), (["in", second], .directory),
    (["in", "p", "m"], .file [1]), (["in", "p", "z"], .link (.parse "../q")),
    (["in", "q", "m"], .directory), (["in", "q", "m", "g"], .file [2]),
    (["in", "q", "z"], .link (.parse "../p"))], []⟩

/-- Whichever of the two is entered first, it enters the other one by its link. -/
theorem crossed_hides : (crossed "p" "q").Hides (.parse "/in") ["in"] ∧
    (crossed "q" "p").Hides (.parse "/in") ["in"] := by
  constructor
  · exact ⟨by decide, by cbv, [.parse "/in/q/m/g", .parse "/in/q/z/m"], ["p"], "m", [1], by cbv,
      by decide, by decide⟩
  · exact ⟨by decide, by cbv, [.parse "/in/p/m", .parse "/in/p/z/m/g"], ["q", "m"], "g", [2], by cbv,
      by decide, by decide⟩

end Listing

end FileTree
end ClassHooks
