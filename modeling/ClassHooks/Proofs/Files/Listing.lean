import Mathlib
import ClassHooks.Files.Listing
import ClassHooks.Proofs.Files.Making

/-!
What a listing names, and the order it is in. Below a directory without links it names each file, by
the names that lead to it, and nothing else; also with links it names nothing but paths below its
root. The order of paths is that of their components, so paths that are spelled differently may
stand at the same place; a sorted list of paths without two of the same components is strictly
sorted.
-/
namespace ClassHooks

open ClassHooks.Path (named)

namespace Component

def name : Component → String
  | .normal name => name
  | _ => ""

theorem compare_eq : compare = compareLex (compareOn rank) (compareOn name) := by
  funext a b
  cases a <;> cases b <;> rfl

instance : Std.TransCmp compare := by
  rw [compare_eq]
  infer_instance

theorem eq_of_rank {a b : Component} (ranks : a.rank = b.rank) (names : a.name = b.name) :
    a = b := by
  cases a <;> cases b <;> simp_all [rank, name]

instance : Std.LawfulEqCmp compare where
  eq_of_compare := by
    intro a b same
    rw [compare_eq, compareLex_eq_eq] at same
    exact eq_of_rank (Std.LawfulEqCmp.eq_of_compare same.1) (Std.LawfulEqCmp.eq_of_compare same.2)

end Component

namespace Path

theorem compareComponents_eq : compareComponents = List.compareLex Component.compare := by
  funext cs ds
  induction cs generalizing ds with
  | nil => cases ds <;> rfl
  | cons c cs ih =>
    cases ds with
    | nil => rfl
    | cons d ds =>
      rw [List.compareLex_cons_cons, ← ih]
      rfl

instance : Std.TransCmp compareComponents := by
  rw [compareComponents_eq]
  infer_instance

instance : Std.LawfulEqCmp compareComponents := by
  rw [compareComponents_eq]
  infer_instance

instance : Std.TransCmp compare where
  eq_swap := Std.OrientedCmp.eq_swap (α := List Component)
  isLE_trans := Std.TransCmp.isLE_trans (α := List Component)

theorem compare_eq_iff {p q : Path} : p.compare q = .eq ↔ p.components = q.components := by
  change compareComponents p.components q.components = .eq ↔ _
  exact Std.LawfulEqCmp.compare_eq_iff_eq

theorem compareComponents_append (cs more : List Component) :
    compareComponents (cs ++ more) cs ≠ .lt := by
  induction cs with
  | nil => cases more <;> nofun
  | cons c cs ih =>
    have same : Component.compare c c = .eq := Std.ReflCmp.compare_self
    change (Component.compare c c).then _ ≠ _
    rw [same]
    exact ih

theorem sorted_mergeSort (files : List Path) :
    (files.mergeSort fun p q => (p.compare q).isLE).Pairwise fun p q => (p.compare q).isLE := by
  apply List.pairwise_mergeSort
  · intro a b c first second
    exact Std.TransCmp.isLE_trans first second
  · intro a b
    have swap : b.compare a = (a.compare b).swap := Std.OrientedCmp.eq_swap
    rw [swap]
    cases a.compare b <;> rfl

theorem strictly_sorted {files : List Path} (apart : (files.map components).Nodup) :
    (files.mergeSort fun p q => (p.compare q).isLE).Pairwise fun p q => p.compare q = .lt := by
  have perm := List.mergeSort_perm files fun p q => (p.compare q).isLE
  have distinct := ((perm.map components).nodup_iff.mpr apart)
  rw [List.Nodup, List.pairwise_map] at distinct
  apply ((sorted_mergeSort files).and distinct).imp
  intro p q both
  obtain ⟨ordered, other⟩ := both
  have unequal : p.compare q ≠ .eq := fun same => other (compare_eq_iff.mp same)
  cases order : p.compare q with
  | lt => rfl
  | eq => exact absurd order unequal
  | gt => simp [order] at ordered

def descend (root : Path) (ns : List String) : Path :=
  if ns = [] then root else root.join ⟨false, ns⟩

theorem descend_name (root : Path) {ns : List String} (names : ∀ n ∈ ns, isName n = true)
    (n : String) : (root.descend ns).join ⟨false, [n]⟩ = root.descend (ns ++ [n]) := by
  unfold descend
  rw [if_neg (by simp : ns ++ [n] ≠ [])]
  by_cases first : ns = []
  · rw [if_pos first, first]
    rfl
  · obtain ⟨front, split⟩ := join_of_relative root
    have last : (front ++ ns).getLast? ≠ some "" := by
      rw [List.getLast?_append_of_ne_nil _ first, List.getLast?_eq_some_getLast first]
      exact fun same => (isName_iff.mp (names _ (List.getLast_mem first))).1 (Option.some.inj same)
    rw [if_neg first, split ⟨false, ns⟩ rfl first, split ⟨false, ns ++ [n]⟩ rfl (by simp),
      join_of_last (by simp [first]) last (by simp), List.append_assoc]

theorem components_descend (root : Path) {ns : List String}
    (names : ∀ n ∈ ns, isName n = true) :
    (root.descend ns).components = root.components ++ named ns := by
  unfold descend
  split
  · rename_i empty
    simp [empty, named]
  · exact components_join (components_names names) root

theorem endsNamed_descend (root : Path) {ns : List String} (names : ∀ n ∈ ns, isName n = true)
    (more : ns ≠ []) : FileTree.EndsNamed (root.descend ns).segments := by
  obtain ⟨front, split⟩ := join_of_relative root
  unfold descend
  rw [if_neg more, split ⟨false, ns⟩ rfl more]
  intro s last
  rw [List.getLast?_append_of_ne_nil _ more] at last
  exact names s (List.mem_of_getLast? last)

end Path

namespace FileTree

theorem Sound.mem_children {t : FileTree} (sound : t.Sound) {l : Location} {n : String} {e : Entry} :
    (n, e) ∈ t.children l ↔ t.find? (l ++ [n]) = some e := by
  unfold children
  rw [List.mem_filterMap]
  constructor
  · rintro ⟨⟨m, f⟩, inside, named⟩
    dsimp only at named
    split at named
    · rename_i name last
      split at named
      · rename_i same
        subst same
        cases named
        exact sound.find?_of_mem inside
      · cases named
    · cases named
  · intro found
    refine ⟨(l ++ [n], e), mem_of_find? (by simp) found, ?_⟩
    simp

section Contents
variable {t : FileTree} {directory p : Path} {found : Contents} {entries : List (String × Entry)}

def added (path : Path) (e : Entry) (found : Contents) : Contents :=
  match e with
  | .directory => ⟨path :: found.below, found.files⟩
  | .file _ => ⟨found.below, path :: found.files⟩
  | .link _ => found

/-- The entry itself, or what it leads to if it is a link. -/
def followed (t : FileTree) (path : Path) : Entry → Except Error Entry
  | .link _ =>
    match t.entry path with
    | .ok (_, e) => .ok e
    | .error fault => .error ((Error.file fault).within path.text)
  | e => .ok e

theorem contents_cons (n : String) (e : Entry) :
    t.contents directory ((n, e) :: entries) =
      t.followed (directory.join ⟨false, [n]⟩) e >>= fun e' =>
        t.contents directory entries >>= fun found =>
          .ok (added (directory.join ⟨false, [n]⟩) e' found) := by
  have last (e' : Entry) : (t.contents directory entries >>= fun found =>
        match e' with
        | .directory => pure ⟨directory.join ⟨false, [n]⟩ :: found.below, found.files⟩
        | .file _ => pure ⟨found.below, directory.join ⟨false, [n]⟩ :: found.files⟩
        | .link _ => pure found : Except Error Contents) =
      t.contents directory entries >>= fun found =>
        .ok (added (directory.join ⟨false, [n]⟩) e' found) := by
    apply bind_congr
    intro found
    cases e' <;> rfl
  conv_lhs => unfold contents
  cases e with
  | directory => rfl
  | file bytes => rfl
  | link target =>
    unfold followed
    dsimp only
    cases t.entry (directory.join ⟨false, [n]⟩) with
    | ok found => exact last found.2
    | error fault => rfl

theorem followed_plain {path : Path} {e e' : Entry} (plain : ∀ target, e ≠ .link target)
    (leads : t.followed path e = .ok e') : e' = e := by
  cases e with
  | link target => exact absurd rfl (plain target)
  | directory | file => exact (Except.ok.inj leads).symm

theorem followed_link {path target : Path} {e : Entry}
    (leads : t.followed path (.link target) = .ok e) : ∃ l, t.entry path = .ok (l, e) := by
  unfold followed at leads
  dsimp only at leads
  split at leads
  · rename_i l e' stands
    cases leads
    exact ⟨l, stands⟩
  · cases leads

theorem contents_cons_ok {n : String} {e : Entry}
    (run : t.contents directory ((n, e) :: entries) = .ok found) :
    ∃ e' rest, t.followed (directory.join ⟨false, [n]⟩) e = .ok e' ∧
      t.contents directory entries = .ok rest ∧
      found = added (directory.join ⟨false, [n]⟩) e' rest := by
  rw [contents_cons] at run
  obtain ⟨e', leads, run⟩ := bind_ok_iff.mp run
  obtain ⟨rest, others, whole⟩ := bind_ok_iff.mp run
  exact ⟨e', rest, leads, others, (Except.ok.inj whole).symm⟩

theorem contents_error {err : Error} (run : t.contents directory entries = .error err) :
    ∃ n target fault, (n, .link target) ∈ entries ∧
      t.entry (directory.join ⟨false, [n]⟩) = .error fault ∧
      err = (Error.file fault).within (directory.join ⟨false, [n]⟩).text := by
  induction entries with
  | nil => cases run
  | cons c entries ih =>
    obtain ⟨n, e⟩ := c
    rw [contents_cons] at run
    rcases bind_error_iff.mp run with failed | ⟨e', _, run⟩
    · unfold followed at failed
      split at failed
      · rename_i target
        split at failed
        · cases failed
        · rename_i fault nowhere
          cases failed
          exact ⟨n, target, fault, List.mem_cons_self, nowhere, rfl⟩
      · cases failed
    · rcases bind_error_iff.mp run with failed | ⟨found, _, done⟩
      · obtain ⟨m, target, fault, inside, later⟩ := ih failed
        exact ⟨m, target, fault, List.mem_cons_of_mem _ inside, later⟩
      · cases done

theorem contents_below (run : t.contents directory entries = .ok found)
    (inside : p ∈ found.below ∨ p ∈ found.files) :
    ∃ n, p = directory.join ⟨false, [n]⟩ := by
  induction entries generalizing found with
  | nil =>
    cases run
    simp at inside
  | cons entry entries ih =>
    obtain ⟨e, rest, _, others, rfl⟩ := contents_cons_ok run
    have cases' : p = directory.join ⟨false, [entry.1]⟩ ∨ p ∈ rest.below ∨ p ∈ rest.files := by
      cases e <;> simp only [added, List.mem_cons] at inside <;> tauto
    rcases cases' with rfl | inside
    · exact ⟨entry.1, rfl⟩
    · exact ih others inside

theorem contents_linkless (linkless : ∀ c ∈ entries, ∀ target, c.2 ≠ .link target)
    (run : t.contents directory entries = .ok found) :
    (p ∈ found.below ↔ ∃ n, (n, .directory) ∈ entries ∧ p = directory.join ⟨false, [n]⟩) ∧
      (p ∈ found.files ↔
        ∃ n bytes, (n, .file bytes) ∈ entries ∧ p = directory.join ⟨false, [n]⟩) := by
  induction entries generalizing found with
  | nil =>
    cases run
    simp
  | cons entry entries ih =>
    obtain ⟨name, e⟩ := entry
    obtain ⟨e', rest, leads, others, rfl⟩ := contents_cons_ok run
    obtain rfl := followed_plain (linkless (name, e) (List.mem_cons_self ..)) leads
    have tail := ih (fun c inside => linkless c (List.mem_cons_of_mem _ inside)) others
    cases e' with
    | link target => exact absurd rfl (linkless _ (List.mem_cons_self ..) target)
    | directory => simp [added, tail, or_and_right, exists_or]
    | file bytes => simp [added, tail, or_and_right, exists_or]

end Contents

section From
variable {t : FileTree} {unvisited : List Location} {files pending listed : List Path}

theorem listFrom_closed {P : Path → Prop} (closed : ∀ p n, P p → P (p.join ⟨false, [n]⟩))
    (run : t.listFrom unvisited files pending = .ok listed)
    (start : ∀ p, p ∈ files ∨ p ∈ pending → P p) : ∀ p ∈ listed, P p := by
  fun_induction t.listFrom unvisited files pending with
  | case1 unvisited files =>
    cases run
    exact fun p inside => start p (.inl inside)
  | case2 => cases run
  | case3 => cases run
  | case4 => cases run
  | case5 => cases run
  | case6 unvisited files directory pending location entered visited found contributed ih =>
    have house := start directory (.inr (by simp))
    refine ih run fun p inside => ?_
    have new : p ∈ found.below ∨ p ∈ found.files → P p := by
      intro below
      obtain ⟨n, rfl⟩ := contents_below contributed below
      exact closed directory n house
    simp only [List.mem_append, List.mem_reverse] at inside
    rcases inside with (old | listed) | (entered | waiting)
    · exact start p (.inl old)
    · exact new (.inr listed)
    · exact new (.inl entered)
    · exact start p (.inr (by simp [waiting]))
  | case7 unvisited files directory pending location entered gone ih =>
    exact ih run fun p inside => start p (inside.imp_right (List.mem_cons_of_mem _))

section Plain
variable {root : Path} {R : Location} (sound : t.Sound)
  (plain : ∀ l, R <+: l → ∀ target, t.find? l ≠ some (.link target))
  (enters : ∀ ns, t.find? (R ++ ns) = some .directory →
    t.entry (root.descend ns) = .ok (R ++ ns, .directory))

include sound

theorem names_below {ns : List String} {e : Entry} (found : t.find? (R ++ ns) = some e) :
    ∀ n ∈ ns, Path.isName n = true :=
  fun n inside => sound.names found n (List.mem_append_right _ inside)

include plain

theorem contents_of_directory {ds : List String} {found : Contents}
    (there : t.find? (R ++ ds) = some .directory)
    (run : t.contents (root.descend ds) (t.children (R ++ ds)) = .ok found) (p : Path) :
    (p ∈ found.below ↔
        ∃ n, t.find? (R ++ (ds ++ [n])) = some .directory ∧ p = root.descend (ds ++ [n])) ∧
      (p ∈ found.files ↔ ∃ n bytes,
        t.find? (R ++ (ds ++ [n])) = some (.file bytes) ∧ p = root.descend (ds ++ [n])) := by
  have names := names_below sound there
  have linkless : ∀ c ∈ t.children (R ++ ds), ∀ target, c.2 ≠ .link target := by
    rintro ⟨n, e⟩ inside target rfl
    rw [sound.mem_children, List.append_assoc] at inside
    exact plain _ (List.prefix_append R _) target inside
  obtain ⟨below, files⟩ := contents_linkless (p := p) linkless run
  rw [below, files]
  constructor <;> simp only [sound.mem_children, List.append_assoc, Path.descend_name root names]

theorem waiting_entered {ds : List String} {found : Contents}
    (there : t.find? (R ++ ds) = some .directory)
    (run : t.contents (root.descend ds) (t.children (R ++ ds)) = .ok found)
    (waiting : ∀ p ∈ pending, ∃ ns, p = root.descend ns ∧ t.find? (R ++ ns) = some .directory) :
    ∀ p ∈ found.below.reverse ++ pending,
      ∃ ns, p = root.descend ns ∧ t.find? (R ++ ns) = some .directory := by
  intro p inside
  rcases List.mem_append.mp inside with new | old
  · have contributes := contents_of_directory sound plain there run p
    obtain ⟨n, found, rfl⟩ := contributes.1.mp (List.mem_reverse.mp new)
    exact ⟨ds ++ [n], rfl, found⟩
  · exact waiting p old

section Entering
include enters

theorem listFrom_sound (run : t.listFrom unvisited files pending = .ok listed)
    (waiting : ∀ p ∈ pending, ∃ ns, p = root.descend ns ∧ t.find? (R ++ ns) = some .directory)
    (start : ∀ p ∈ files, ∃ ns bytes, p = root.descend ns ∧
      t.find? (R ++ ns) = some (.file bytes)) :
    ∀ p ∈ listed, ∃ ns bytes, p = root.descend ns ∧ t.find? (R ++ ns) = some (.file bytes) := by
  fun_induction t.listFrom unvisited files pending with
  | case1 unvisited files =>
    cases run
    exact start
  | case2 => cases run
  | case3 => cases run
  | case4 => cases run
  | case5 => cases run
  | case6 unvisited files directory pending location entered visited found contributed ih =>
    obtain ⟨ds, rfl, there⟩ := waiting directory (by simp)
    rw [enters ds there] at entered
    cases entered
    refine ih run (waiting_entered sound plain there contributed fun p inside =>
      waiting p (by simp [inside])) fun p inside => ?_
    rcases List.mem_append.mp inside with old | new
    · exact start p old
    · have contributes := contents_of_directory sound plain there contributed p
      obtain ⟨n, bytes, found, rfl⟩ := contributes.2.mp new
      exact ⟨ds ++ [n], bytes, rfl, found⟩
  | case7 unvisited files directory pending location entered gone ih =>
    exact ih run (fun p inside => waiting p (by simp [inside])) start

end Entering

omit plain in
theorem directory_above {ms ns : List String} {e : Entry} (found : t.find? (R ++ ns) = some e)
    (above : ms <+: ns) (strict : ms ≠ ns) : t.find? (R ++ ms) = some .directory :=
  sound.above found ((List.prefix_append_right_inj R).mpr above) (by simpa using strict)

omit sound plain in
def Ahead (root : Path) (R : Location) (unvisited : List Location) (pending : List Path)
    (ns : List String) : Prop :=
  ∃ ms, ms <+: ns ∧ ms ≠ ns ∧ root.descend ms ∈ pending ∧
    ∀ ks, ms <+: ks → ks <+: ns → ks ≠ ns → R ++ ks ∈ unvisited

section Ahead
variable {ns ds : List String} {bytes : Bytes} (file : t.find? (R ++ ns) = some (.file bytes))
include file

theorem ahead_entered {found : Contents} (there : t.find? (R ++ ds) = some .directory)
    (run : t.contents (root.descend ds) (t.children (R ++ ds)) = .ok found) (on : ds <+: ns)
    (free : ∀ ks, ds <+: ks → ks <+: ns → ks ≠ ns → R ++ ks ∈ unvisited) :
    root.descend ns ∈ found.files ∨
      Ahead root R (unvisited.erase (R ++ ds)) (found.below.reverse ++ pending) ns := by
  have contributes := contents_of_directory sound plain there run
  obtain ⟨rest, rfl⟩ := on
  cases rest with
  | nil =>
    rw [List.append_nil, there] at file
    cases file
  | cons n rest =>
    by_cases last : rest = []
    · subst last
      exact .inl ((contributes _).2.mpr ⟨n, bytes, file, rfl⟩)
    · have next : ds ++ [n] <+: ds ++ n :: rest := ⟨rest, by simp⟩
      have further : ds ++ [n] ≠ ds ++ n :: rest := by simpa using Ne.symm last
      refine .inr ⟨ds ++ [n], next, further, ?_, fun ks from' to' other => ?_⟩
      · exact List.mem_append_left _ (List.mem_reverse.mpr ((contributes _).1.mpr
          ⟨n, directory_above sound file next further, rfl⟩))
      · refine (List.mem_erase_of_ne ?_).mpr (free ks
          ((List.prefix_append ds [n]).trans from') to' other)
        intro same
        obtain rfl := List.append_cancel_left same
        exact absurd from'.length_le (by simp)

include enters

omit plain in
theorem eq_of_entered {ms : List String} (there : t.find? (R ++ ds) = some .directory)
    (above : ms <+: ns) (strict : ms ≠ ns) (same : root.descend ms = root.descend ds) :
    ms = ds := by
  have twice := enters ms (directory_above sound file above strict)
  rw [same, enters ds there] at twice
  simpa using twice.symm

/-- Entering a directory leaves another one ahead, or shows the file. -/
theorem Ahead.entered {found : Contents} (there : t.find? (R ++ ds) = some .directory)
    (run : t.contents (root.descend ds) (t.children (R ++ ds)) = .ok found)
    (ahead : Ahead root R unvisited (root.descend ds :: pending) ns) :
    root.descend ns ∈ found.files ∨
      Ahead root R (unvisited.erase (R ++ ds)) (found.below.reverse ++ pending) ns := by
  obtain ⟨ms, above, strict, inside, free⟩ := ahead
  by_cases between : ms <+: ds ∧ ds <+: ns
  · exact ahead_entered sound plain file there run between.2 fun ks from' =>
      free ks (between.1.trans from')
  · refine .inr ⟨ms, above, strict, ?_, fun ks from' to' other => ?_⟩
    · refine List.mem_append_right _ ((List.mem_cons.mp inside).resolve_left fun same => ?_)
      obtain rfl := eq_of_entered sound enters file there above strict same
      exact between ⟨List.prefix_refl ms, above⟩
    · refine (List.mem_erase_of_ne ?_).mpr (free ks from' to' other)
      intro same
      obtain rfl := List.append_cancel_left same
      exact between ⟨from', to'⟩

theorem listFrom_complete (run : t.listFrom unvisited files pending = .ok listed)
    (waiting : ∀ p ∈ pending, ∃ ns, p = root.descend ns ∧ t.find? (R ++ ns) = some .directory)
    (start : root.descend ns ∈ files ∨ Ahead root R unvisited pending ns) :
    root.descend ns ∈ listed := by
  fun_induction t.listFrom unvisited files pending with
  | case1 unvisited files =>
    cases run
    refine start.resolve_right ?_
    rintro ⟨ms, _, _, none, _⟩
    cases none
  | case2 => cases run
  | case3 => cases run
  | case4 => cases run
  | case5 => cases run
  | case6 unvisited files directory pending location entered visited found contributed ih =>
    obtain ⟨ds, rfl, there⟩ := waiting directory (by simp)
    rw [enters ds there] at entered
    cases entered
    refine ih run (waiting_entered sound plain there contributed fun p inside =>
      waiting p (by simp [inside])) ?_
    rcases start with old | ahead
    · exact .inl (List.mem_append_left _ old)
    · exact (ahead.entered sound plain enters file there contributed).imp_left
        (List.mem_append_right _)
  | case7 unvisited files directory pending location entered gone ih =>
    refine ih run (fun p inside => waiting p (by simp [inside])) (start.imp_right ?_)
    rintro ⟨ms, above, strict, inside, free⟩
    refine ⟨ms, above, strict, ?_, free⟩
    refine (List.mem_cons.mp inside).resolve_left ?_
    rintro rfl
    rw [enters ms (directory_above sound file above strict)] at entered
    cases entered
    exact gone (free ms (List.prefix_refl ms) above strict)

end Ahead
end Plain
end From

theorem mem_directories {t : FileTree} {l : Location} (there : t.find? l = some .directory) :
    l ∈ t.directories := by
  unfold directories
  by_cases root : l = []
  · simp [root]
  · refine List.mem_cons_of_mem _ (List.mem_map.mpr ⟨(l, .directory), ?_, rfl⟩)
    exact List.mem_filter.mpr ⟨mem_of_find? root there, by simp⟩

theorem entry_of_listFrom {t : FileTree} {root : Path} {unvisited : List Location}
    {listed : List Path} (run : t.listFrom unvisited [] [root] = .ok listed) :
    ∃ l, t.entry root = .ok (l, .directory) := by
  rw [listFrom] at run
  cases first : t.entry root with
  | error fault =>
    rw [first] at run
    cases run
  | ok found =>
    obtain ⟨l, e⟩ := found
    rw [first] at run
    cases e with
    | directory => exact ⟨l, rfl⟩
    | file bytes => cases run
    | link target => cases run

theorem spelled_of_entry {t : FileTree} {p : Path} {found : Location × Entry}
    (run : t.entry p = .ok found) : p.absolute = true ∨ p.segments ≠ [] := by
  by_contra neither
  rw [not_or, Bool.not_eq_true, not_not] at neither
  have lost : t.entry p = .error .notFound := by
    unfold entry resolve
    simp [neither.1, neither.2]
  rw [lost] at run
  cases run

section Reached
variable {t : FileTree} {root : Path} {base : Location} {ns : List String} (sound : t.Sound)
  (reaches : t.Reaches root base ns) (linkless : t.Linkless base (base ++ ns))
include sound reaches linkless

theorem entry_descend (plain : ∀ l, base ++ ns <+: l → ∀ target, t.find? l ≠ some (.link target))
    (spelled : root.absolute = true ∨ root.segments ≠ []) {ms : List String}
    (there : t.find? (base ++ ns ++ ms) = some .directory) :
    t.entry (root.descend ms) = .ok (base ++ ns ++ ms, .directory) := by
  have lower := reaches.below (Path.components_descend root (names_below sound there))
  have clear : t.Linkless base (base ++ (ns ++ ms)) := by
    intro i from' to' target
    rw [← List.append_assoc] at to'
    rcases List.prefix_or_prefix_of_prefix to' (List.prefix_append (base ++ ns) ms) with up | down
    · exact linkless i from' up target
    · exact plain i down target
  rw [List.append_assoc] at there ⊢
  refine entry_eq_ok_iff.mpr (resolve_directory sound lower clear ?_ there)
  by_cases more : ns ++ ms = []
  · rw [(List.append_eq_nil_iff.mp more).2]
    exact spelled
  · exact .inr (lower.segments_ne_nil more)

end Reached

/-- All files of a directory without links. -/
theorem mem_listFiles {t : FileTree} {root : Path} {base R : Location} {ns : List String}
    (sound : t.Sound) (reaches : t.Reaches root base ns) (place : R = base ++ ns)
    (linkless : t.Linkless base R)
    (plain : ∀ l, R <+: l → ∀ target, t.find? l ≠ some (.link target)) {listed : List Path}
    (run : t.listFiles root = .ok listed) (p : Path) :
    p ∈ listed ↔ ∃ ns bytes, p = root.descend ns ∧ t.find? (R ++ ns) = some (.file bytes) := by
  subst place
  obtain ⟨files, walked, sorted⟩ := bind_ok_iff.mp run
  cases sorted
  obtain ⟨l, first⟩ := entry_of_listFrom walked
  have house := find?_of_isDirectory sound reaches linkless
    (isDirectory_of_resolve (entry_eq_ok_iff.mp first))
  have enters : ∀ ms, t.find? (base ++ ns ++ ms) = some .directory →
      t.entry (root.descend ms) = .ok (base ++ ns ++ ms, .directory) :=
    fun ms => entry_descend sound reaches linkless plain (spelled_of_entry first)
  have waiting : ∀ p ∈ [root], ∃ ms, p = root.descend ms ∧
      t.find? (base ++ ns ++ ms) = some .directory := by
    intro p inside
    rw [List.mem_singleton] at inside
    exact ⟨[], inside, by rw [List.append_nil, house]⟩
  rw [List.mem_mergeSort]
  constructor
  · exact listFrom_sound sound plain enters walked waiting (by simp) p
  · rintro ⟨ms, bytes, rfl, file⟩
    have strict : [] ≠ ms := by
      rintro rfl
      rw [List.append_nil, house] at file
      cases file
    refine listFrom_complete sound plain enters file walked waiting (.inr ⟨[], List.nil_prefix,
      strict, by simp [Path.descend], fun ks _ above strict => mem_directories ?_⟩)
    exact directory_above sound file above strict

end FileTree
end ClassHooks
