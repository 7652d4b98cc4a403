import ClassHooks.Proofs.Files.Components

/-!
Where paths lead to while a part of the file tree changes. A path that is followed to its base outside
of that part leads to the same location before and after; what it resolves to is the entry there.
-/
namespace ClassHooks
namespace FileTree

open ClassHooks.Path (significant named segment?)

def origin (t : FileTree) (p : Path) : Location := if p.absolute then [] else t.workingDirectory

theorem follows_cons_iff {t : FileTree} {k j : Nat} {l m : Location} {s : String}
    {rest : List String} : t.Follows k l (s :: rest) j m ↔
      ∃ i n, t.Follows k l [s] i n ∧ t.Follows i n rest j m := by
  constructor
  · intro follows
    have whole : t.Follows k l ([s] ++ rest) j m := follows
    exact whole.split
  · rintro ⟨i, n, first, second⟩
    exact first.append second

theorem follows_significant {t : FileTree} {k j : Nat} {l m : Location} {xs : List String} :
    t.Follows k l (significant xs) j m ↔ t.Follows k l xs j m := by
  induction xs generalizing k l with
  | nil => rfl
  | cons s rest ih =>
    by_cases blank : s = "" ∨ s = "."
    · rw [Path.significant_blank blank, ih, follows_cons_iff]
      constructor
      · intro follows
        exact ⟨k, l, .stay blank .done, follows⟩
      · rintro ⟨i, n, first, second⟩
        obtain ⟨rfl, rfl⟩ := first.blank_end (by simpa using blank)
        exact second
    · rw [Path.significant_cons blank, follows_cons_iff]
      conv_rhs => rw [follows_cons_iff]
      simp only [ih]

theorem resolve_eq_walk {t : FileTree} {p : Path} {follow : Bool}
    (start : t.find? (t.origin p) = some .directory) (some : p.absolute = true ∨ p.segments ≠ []) :
    t.resolve follow p = t.walk follow linkLimit (t.origin p) p.segments := by
  unfold resolve origin
  unfold origin at start
  cases absolute : p.absolute with
  | true => rfl
  | false =>
    rw [absolute] at start some
    change t.find? t.workingDirectory = _ at start
    have full : p.segments.isEmpty = false := by simpa using some
    rw [full, isDirectoryAt_iff.mpr start]
    rfl

/-- The path leads over directories and links to a base, and further by names. -/
structure Reaches (t : FileTree) (p : Path) (base : Location) (ns : List String) : Prop where
  start : t.find? (t.origin p) = some .directory
  follows : ∃ cs k, p.components = cs ++ named ns ∧
    t.Follows linkLimit (t.origin p) (cs.filterMap segment?) k base

namespace Reaches
variable {t : FileTree} {p : Path} {base : Location} {ns : List String}

theorem origin_of_below (t : FileTree) {p q : Path} {ms : List String}
    (spelled : q.components = p.components ++ named ms) : t.origin q = t.origin p := by
  have same : q.absolute = p.absolute := by
    rw [Bool.eq_iff_iff, ← Path.root_mem_components, ← Path.root_mem_components, spelled]
    simp [named]
  unfold origin
  rw [same]

theorem names (reaches : t.Reaches p base ns) : ∀ n ∈ ns, Path.isName n = true := by
  obtain ⟨_, _, _, spelled, _⟩ := reaches
  exact Path.names_of_components spelled

theorem below (reaches : t.Reaches p base ns) {q : Path} {ms : List String}
    (spelled : q.components = p.components ++ named ms) : t.Reaches q base (ns ++ ms) := by
  obtain ⟨start, cs, k, split, follows⟩ := reaches
  have origin := origin_of_below t spelled
  refine ⟨origin ▸ start, cs, k, ?_, origin ▸ follows⟩
  rw [spelled, split, Path.named_append, List.append_assoc]

theorem above {ms : List String} (reaches : t.Reaches p base (ns ++ ms)) {q : Path}
    (spelled : p.components = q.components ++ named ms) : t.Reaches q base ns := by
  obtain ⟨start, cs, k, split, follows⟩ := reaches
  have origin := origin_of_below t spelled
  refine ⟨origin ▸ start, cs, k, ?_, origin ▸ follows⟩
  rw [spelled, Path.named_append, ← List.append_assoc] at split
  exact (List.append_inj' split rfl).1

theorem mono {u : FileTree} (reaches : t.Reaches p base ns)
    (kept : ∀ l e, t.find? l = some e → u.find? l = some e)
    (home : u.workingDirectory = t.workingDirectory) : u.Reaches p base ns := by
  obtain ⟨start, cs, k, split, follows⟩ := reaches
  have origin : u.origin p = t.origin p := by
    unfold FileTree.origin
    rw [home]
  rw [← origin] at start follows
  exact ⟨kept _ _ start, cs, k, split, follows.mono kept⟩

theorem base_directory (reaches : t.Reaches p base ns) (sound : t.Sound) :
    t.find? base = some .directory := by
  obtain ⟨start, _, _, _, follows⟩ := reaches
  exact follows.directory sound start

theorem significant_of_components {cs : List Component}
    (spelled : p.components = cs ++ named ns) :
    significant p.segments = cs.filterMap segment? ++ ns := by
  rw [Path.significant_segments, spelled, List.filterMap_append, Path.filterMap_named]

theorem segments_ne_nil (reaches : t.Reaches p base ns) (more : ns ≠ []) : p.segments ≠ [] := by
  obtain ⟨_, cs, k, spelled, _⟩ := reaches
  intro empty
  have split := significant_of_components spelled
  rw [empty] at split
  exact more (List.append_eq_nil_iff.mp split.symm).2

theorem resolve_walk (reaches : t.Reaches p base ns) (follow : Bool)
    (more : ns ≠ [] ∨ follow = true) (some : p.absolute = true ∨ p.segments ≠ []) :
    ∃ k post, t.resolve follow p = t.walk follow k base post ∧ ".." ∉ post ∧
      namesOf post = ns ∧ post <:+ p.segments := by
  have names := reaches.names
  obtain ⟨start, cs, k, spelled, follows⟩ := reaches
  obtain ⟨front, post, whole, front_eq, rest⟩ :=
    List.filter_eq_append_iff.mp (significant_of_components spelled)
  rw [← front_eq] at follows
  have first : t.Follows linkLimit (t.origin p) front k base := follows_significant.mp follows
  have level : ".." ∉ post := by
    refine Path.level_of_significant fun member => ?_
    have up : ".." ∈ ns := rest ▸ member
    simpa [Path.isName] using names ".." up
  have named : namesOf post = ns := by
    rw [← Path.significant_level level]
    exact rest
  have further : post ≠ [] ∨ follow = true := more.imp_left fun more empty => more (by
    rw [← named, empty]
    rfl)
  refine ⟨k, post, ?_, level, named, front, whole.symm⟩
  rw [resolve_eq_walk start some, whole]
  exact walk_of_follows first further

theorem resolve_base (reaches : t.Reaches p base [])
    (some : p.absolute = true ∨ p.segments ≠ []) :
    ∃ l e, t.resolve false p = .ok (.entry l e) := by
  obtain ⟨start, cs, k, spelled, follows⟩ := reaches
  have split := significant_of_components spelled
  rw [List.append_nil] at split
  rw [← split, follows_significant] at follows
  rw [resolve_eq_walk start some]
  exact walk_entry_of_follows follows

theorem resolve_link (reaches : t.Reaches p base ns) (sound : t.Sound) (more : ns ≠ [])
    {target : Path} (found : t.find? (base ++ ns) = some (.link target))
    (ends : EndsNamed p.segments) :
    t.resolve false p = .ok (.entry (base ++ ns) (.link target)) := by
  obtain ⟨k, post, same, level, rfl, part⟩ :=
    reaches.resolve_walk false (.inl more) (.inr (reaches.segments_ne_nil more))
  rw [same]
  exact walk_plain_link sound level found (endsNamed_of_suffix ends part)
    (reaches.base_directory sound)

section Resolve
variable (reaches : t.Reaches p base ns) (sound : t.Sound) (linkless : t.Linkless base (base ++ ns))
  {follow : Bool}
include reaches sound linkless

theorem resolve_ok (more : ns ≠ [] ∨ follow = true) {place : Place}
    (run : t.resolve follow p = .ok place) :
    (∃ e, place = .entry (base ++ ns) e ∧ t.find? (base ++ ns) = some e) ∨
      ∃ d n, place = .vacant d n ∧ base ++ ns = d ++ [n] ∧
        t.find? d = some .directory ∧ t.find? (d ++ [n]) = none := by
  have some : p.absolute = true ∨ p.segments ≠ [] := by
    by_contra neither
    rw [not_or, Bool.not_eq_true, not_not] at neither
    unfold resolve at run
    simp [neither.1, neither.2] at run
  obtain ⟨k, post, same, level, rfl, _⟩ := reaches.resolve_walk follow more some
  rw [same] at run
  exact walk_plain_ok level (reaches.base_directory sound) linkless run

theorem resolve_notFound (more : ns ≠ []) (run : t.resolve follow p = .error .notFound) :
    t.find? (base ++ ns) = none := by
  obtain ⟨k, post, same, level, rfl, _⟩ :=
    reaches.resolve_walk follow (.inl more) (.inr (reaches.segments_ne_nil more))
  rw [same] at run
  exact walk_plain_notFound sound level linkless run

theorem opened_of_resolve (more : ns ≠ []) (run : t.resolve follow p = .error .notFound)
    {i : Location} (above : i <+: base ++ ns) {e : Entry} (there : t.find? i = some e) :
    e = .directory := by
  have base_there := reaches.base_directory sound
  obtain ⟨k, post, same, level, rfl, _⟩ :=
    reaches.resolve_walk follow (.inl more) (.inr (reaches.segments_ne_nil more))
  rw [same] at run
  rcases List.prefix_or_prefix_of_prefix above (List.prefix_append base _) with upper | lower
  · by_cases here : i = base
    · rw [here, base_there] at there
      exact (Option.some.inj there).symm
    · rw [sound.above base_there upper here] at there
      exact (Option.some.inj there).symm
  · exact opened_of_notFound sound level base_there linkless run lower above there

variable (follow)

theorem resolve_entry (more : ns ≠ []) {e : Entry} (found : t.find? (base ++ ns) = some e)
    (whole : e = .directory ∨ EndsNamed p.segments) :
    t.resolve follow p = .ok (.entry (base ++ ns) e) := by
  obtain ⟨k, post, same, level, rfl, part⟩ :=
    reaches.resolve_walk follow (.inl more) (.inr (reaches.segments_ne_nil more))
  rw [same]
  exact walk_plain_entry sound level linkless found
    (whole.imp_right fun ends => endsNamed_of_suffix ends part)
    (reaches.base_directory sound)

theorem resolve_vacant {ms : List String} {n : String} (split : ns = ms ++ [n])
    (parent : t.find? (base ++ ms) = some .directory) (free : t.find? (base ++ ns) = none)
    (ends : EndsNamed p.segments) : t.resolve follow p = .ok (.vacant (base ++ ms) n) := by
  have more : ns ≠ [] := by simp [split]
  obtain ⟨k, post, same, level, names, part⟩ :=
    reaches.resolve_walk follow (.inl more) (.inr (reaches.segments_ne_nil more))
  rw [same]
  refine walk_plain_vacant sound level (names ▸ linkless) (by rw [names, split, List.append_assoc])
    (List.prefix_append base ms) parent ?_ (endsNamed_of_suffix ends part)
  rw [List.append_assoc, ← split]
  exact free

theorem resolve_missing {ms : List String} {n : String} (split : ns = ms ++ [n])
    (missing : t.find? (base ++ ms) = none) :
    t.resolve follow p = .error .notFound ∨
      ∃ i bytes, base <+: i ∧ i <+: base ++ ms ∧ t.find? i = some (.file bytes) := by
  have more : ns ≠ [] := by simp [split]
  obtain ⟨k, post, same, level, names, _⟩ :=
    reaches.resolve_walk follow (.inl more) (.inr (reaches.segments_ne_nil more))
  rw [same]
  exact walk_plain_missing sound level (names ▸ linkless)
    (by rw [names, split, List.append_assoc]) (reaches.base_directory sound) missing

end Resolve
end Reaches

/-- Outside of the zone, the path leads to a base, and from there by names to the location; no link
stands on that way. -/
def Leads (t : FileTree) (zone : Location) (p : Path) (location : Location) : Prop :=
  ∃ base ns, (t.eraseTree zone).Reaches p base ns ∧ location = base ++ ns ∧
    (t.eraseTree zone).Linkless base location

/-- What a tree may become by work at or below the zone: nothing else changes but for directories
that are made, and no link appears there. -/
structure Within (zone : Location) (t u : FileTree) : Prop where
  sound : u.Sound
  home : u.workingDirectory = t.workingDirectory
  kept : ∀ l e, ¬ zone <+: l → t.find? l = some e → u.find? l = some e
  made : ∀ l e, ¬ zone <+: l → u.find? l = some e → t.find? l = some e ∨ e = .directory
  linkless : ∀ l, zone <+: l → ∀ target, u.find? l ≠ some (.link target)

theorem erased_kept {zone : Location} {t u : FileTree} (within : Within zone t u) {l : Location}
    {e : Entry} (found : (t.eraseTree zone).find? l = some e) : u.find? l = some e := by
  rw [find?_eraseTree] at found
  split at found
  · cases found
  · rename_i outside
    by_cases root : l = []
    · subst root
      rw [find?_root] at found ⊢
      exact found
    · exact within.kept l e (fun inside => outside ⟨root, inside⟩) found

namespace Within
variable {zone : Location} {t u : FileTree}

theorem reaches (within : Within zone t u) {p : Path} {base : Location} {ns : List String}
    (reaches : (t.eraseTree zone).Reaches p base ns) : u.Reaches p base ns :=
  reaches.mono (fun _ _ => erased_kept within) within.home

theorem clear (within : Within zone t u) {m l : Location}
    (linkless : (t.eraseTree zone).Linkless m l) : u.Linkless m l := by
  intro i from' to' target found
  by_cases inside : zone <+: i
  · exact within.linkless i inside target found
  · rcases within.made i _ inside found with old | made
    · refine linkless i from' to' target ?_
      rw [find?_eraseTree, if_neg fun both => inside both.2]
      exact old
    · cases made

theorem trans {v : FileTree} (one : Within zone t u) (two : Within zone u v) : Within zone t v where
  sound := two.sound
  home := two.home.trans one.home
  kept l e outside found := two.kept l e outside (one.kept l e outside found)
  made l e outside found := by
    rcases two.made l e outside found with old | made
    · exact one.made l e outside old
    · exact .inr made
  linkless := two.linkless

theorem refl (sound : t.Sound)
    (linkless : ∀ l, zone <+: l → ∀ target, t.find? l ≠ some (.link target)) : Within zone t t :=
  ⟨sound, rfl, fun _ _ _ found => found, fun _ _ _ found => .inl found, linkless⟩

theorem fileAt (within : Within zone t u) {l : Location} (outside : ¬ zone <+: l) :
    u.fileAt l = t.fileAt l := by
  refine Option.ext fun bytes => ?_
  rw [fileAt_eq_some_iff, fileAt_eq_some_iff]
  constructor
  · intro found
    exact (within.made l _ outside found).resolve_right nofun
  · exact within.kept l _ outside

end Within

theorem find?_outside {t : FileTree} {zone l : Location} (outside : ¬ zone <+: l) :
    (t.eraseTree zone).find? l = t.find? l := by
  rw [find?_eraseTree, if_neg fun both => outside both.2]

theorem erased_linkless {t : FileTree} {zone l : Location} (inside : zone <+: l) {i : Location}
    (below : l <+: i) (target : Path) : (t.eraseTree zone).find? i ≠ some (.link target) := by
  rw [find?_eraseTree]
  split
  · nofun
  · rename_i root
    have empty : i = [] := by
      by_contra full
      exact root ⟨full, inside.trans below⟩
    rw [empty]
    nofun

theorem clear_of_none {t : FileTree} {zone m l : Location}
    (none : ∀ l target, t.find? l ≠ some (.link target)) : (t.eraseTree zone).Linkless m l := by
  intro i _ _ target found
  rw [find?_eraseTree] at found
  split at found
  · cases found
  · exact none i target found

theorem leads_of_named {t : FileTree} {zone : Location} {p : Path} {ns : List String}
    (spelled : p.components = named ns)
    (home : (t.eraseTree zone).find? t.workingDirectory = some .directory)
    (none : ∀ l target, t.find? l ≠ some (.link target)) :
    t.Leads zone p (t.workingDirectory ++ ns) := by
  have start : (t.eraseTree zone).origin p = t.workingDirectory := by
    unfold origin
    rw [Path.relative_of_named spelled]
    rfl
  refine ⟨t.workingDirectory, ns, ⟨by rwa [start], [], linkLimit, spelled, ?_⟩, rfl, clear_of_none none⟩
  rw [start]
  exact .done

theorem leads_of_absolute {t : FileTree} {zone : Location} {p : Path} {ns : List String}
    (spelled : p.components = .root :: named ns) (none : ∀ l target, t.find? l ≠ some (.link target)) :
    t.Leads zone p ns := by
  have absolute : p.absolute = true := by
    rw [← Path.root_mem_components, spelled]
    exact List.mem_cons_self ..
  have start : (t.eraseTree zone).origin p = [] := by
    unfold origin
    rw [if_pos absolute]
  refine ⟨[], ns, ⟨by rw [start, find?_root], [.root], linkLimit, spelled, ?_⟩, rfl, clear_of_none none⟩
  rw [start]
  exact .done

theorem Leads.below {t : FileTree} {zone : Location} {p q : Path} {l : Location} {ms : List String}
    (leads : t.Leads zone p l) (spelled : q.components = p.components ++ named ms)
    (linkless : ∀ i, l <+: i → ∀ target, (t.eraseTree zone).find? i ≠ some (.link target)) :
    t.Leads zone q (l ++ ms) := by
  obtain ⟨base, ns, reaches, rfl, clear⟩ := leads
  refine ⟨base, ns ++ ms, reaches.below spelled, by simp, ?_⟩
  intro i from' to' target
  rcases List.prefix_or_prefix_of_prefix to' (List.prefix_append (base ++ ns) ms) with upper | lower
  · exact clear i from' upper target
  · exact linkless i lower target

theorem base_of_names {t : FileTree} {o base base' : Location} {cs : List Component}
    {xs ns : List String} {k k' : Nat} (sound : t.Sound) (start : t.find? o = some .directory)
    (names : ∀ n ∈ xs, Path.isName n = true)
    (first : t.Follows linkLimit o (cs.filterMap segment?) k base)
    (second : t.Follows linkLimit o ((cs ++ named xs).filterMap segment?) k' base')
    (clear : t.Linkless base (base ++ (xs ++ ns))) : base' = base ++ xs := by
  rw [List.filterMap_append, Path.filterMap_named] at second
  obtain ⟨i, n, first', rest⟩ := second.split
  obtain rfl := first.unique first'
  have all : namesOf xs = xs := List.filter_eq_self.mpr names
  have level : ".." ∉ xs := fun member => by simpa [Path.isName] using names ".." member
  have linkless : t.Linkless base (base ++ namesOf xs) := by
    intro i from' to' target
    refine clear i from' (to'.trans ?_) target
    rw [all, ← List.append_assoc]
    exact List.prefix_append _ ns
  rcases walk_plain_ok level (first.directory sound start) linkless rest.walk_end with
    ⟨e, same, _⟩ | ⟨d, m, same, _⟩
  · cases same
    rw [all]
  · cases same

theorem Leads.unique {t : FileTree} {zone : Location} {p q : Path} {l m : Location} (sound : t.Sound)
    (same : p.components = q.components) (one : t.Leads zone p l) (two : t.Leads zone q m) :
    l = m := by
  obtain ⟨base, ns, reaches, rfl, clear⟩ := one
  obtain ⟨base', ns', reaches', rfl, clear'⟩ := two
  have below : q.components = p.components ++ named [] := same ▸ (List.append_nil _).symm
  have origin := Reaches.origin_of_below (t.eraseTree zone) below
  have names := reaches.names
  have names' := reaches'.names
  obtain ⟨start, cs, k, split, follows⟩ := reaches
  obtain ⟨_, cs', k', split', follows'⟩ := reaches'
  rw [origin] at follows'
  have whole := split.symm.trans (same.trans split')
  rcases List.append_eq_append_iff.mp whole with ⟨zs, rfl, rest⟩ | ⟨zs, rfl, rest⟩
  · obtain ⟨xs, ys, rfl, rfl, tail⟩ := List.map_eq_append_iff.mp rest
    obtain rfl := Path.named_injective tail
    rw [base_of_names (sound.eraseTree zone) start (fun n inside => names n (by simp [inside]))
      follows follows' clear, List.append_assoc]
  · obtain ⟨xs, ys, rfl, rfl, tail⟩ := List.map_eq_append_iff.mp rest
    obtain rfl := Path.named_injective tail
    rw [base_of_names (sound.eraseTree zone) start (fun n inside => names' n (by simp [inside]))
      follows' follows clear', List.append_assoc]

section Entry
variable {t u : FileTree} {zone o : Location} {p : Path} {e : Entry}

theorem entry_eq_ok_iff : t.entry p = .ok (o, e) ↔ t.resolve true p = .ok (.entry o e) := by
  unfold entry
  split
  · rename_i l f run
    simp [run]
  · rename_i run
    simp [run]
  · rename_i run
    simp [run]

theorem resolve_mono {follow : Bool} (kept : ∀ l e, t.find? l = some e → u.find? l = some e)
    (home : u.workingDirectory = t.workingDirectory)
    (run : t.resolve follow p = .ok (.entry o e)) : u.resolve follow p = .ok (.entry o e) := by
  unfold resolve at run ⊢
  split at run
  · rename_i absolute
    rw [if_pos absolute]
    exact walk_mono kept run
  · rename_i relative
    rw [if_neg relative]
    split at run
    · cases run
    · rename_i some
      rw [if_neg some, home]
      split at run
      · rename_i start
        rw [if_pos (isDirectoryAt_iff.mpr (kept _ _ (isDirectoryAt_iff.mp start)))]
        exact walk_mono kept run
      · cases run

theorem find?_of_entry (sound : t.Sound) (found : t.entry p = .ok (o, e)) : t.find? o = some e := by
  rw [entry_eq_ok_iff] at found
  unfold resolve at found
  split at found
  · exact find?_of_walk sound found rfl
  · split at found
    · cases found
    · split at found
      · rename_i start
        exact find?_of_walk sound found (isDirectoryAt_iff.mp start)
      · cases found

/-- What a path leads to without the zone, it leads to whatever is done in the zone. -/
theorem Within.entry (within : Within zone t u) (found : (t.eraseTree zone).entry p = .ok (o, e)) :
    u.entry p = .ok (o, e) := by
  rw [entry_eq_ok_iff] at found ⊢
  exact resolve_mono (fun _ _ => erased_kept within) within.home found

/-- Whatever is done in the zone, if the path leads to a file, it is this one, outside of the zone. -/
def ReadsAt (t : FileTree) (zone : Location) (p : Path) (o : Location) : Prop :=
  ¬ zone <+: o ∧ ∀ u, Within zone t u → ∀ l bytes, u.entry p = .ok (l, .file bytes) → l = o

theorem outside_of_erased {l : Location} {bytes : Bytes}
    (found : (t.eraseTree zone).find? l = some (.file bytes)) : ¬ zone <+: l := by
  rw [find?_eraseTree] at found
  split at found
  · cases found
  · rename_i outside
    intro inside
    refine outside ⟨?_, inside⟩
    rintro rfl
    cases found

theorem readsAt_of_entry (sound : t.Sound) {bytes : Bytes}
    (found : (t.eraseTree zone).entry p = .ok (o, .file bytes)) : t.ReadsAt zone p o := by
  refine ⟨outside_of_erased (find?_of_entry (sound.eraseTree zone) found), ?_⟩
  intro u within l other there
  rw [within.entry found] at there
  cases there
  rfl

theorem ReadsAt.fileAt (reads : t.ReadsAt zone p o) (within : Within zone t u) {l : Location}
    {bytes : Bytes} (found : u.entry p = .ok (l, .file bytes)) : t.fileAt o = some bytes := by
  obtain ⟨outside, only⟩ := reads
  obtain rfl := only u within l bytes found
  rw [← within.fileAt outside, fileAt_eq_some_iff]
  exact find?_of_entry within.sound found

theorem Leads.readsAt (leads : t.Leads zone p o) (outside : ¬ zone <+: o) : t.ReadsAt zone p o := by
  obtain ⟨base, ns, reaches, rfl, linkless⟩ := leads
  refine ⟨outside, fun u within l bytes found => ?_⟩
  rcases (within.reaches reaches).resolve_ok within.sound (within.clear linkless) (.inr rfl)
    (entry_eq_ok_iff.mp found) with ⟨e, same, _⟩ | ⟨d, n, same, _⟩
  · cases same
    rfl
  · cases same

theorem find?_of_erased {l : Location} (found : (t.eraseTree zone).find? l = some e) :
    t.find? l = some e := by
  rw [find?_eraseTree] at found
  split at found
  · cases found
  · exact found

/-- What is found without the zone is found with it. -/
theorem entry_of_erased (found : (t.eraseTree zone).entry p = .ok (o, e)) :
    t.entry p = .ok (o, e) := by
  rw [entry_eq_ok_iff] at found ⊢
  exact resolve_mono (t := t.eraseTree zone) (fun _ _ => find?_of_erased) rfl found

theorem readFile_eq_ok_iff {bytes : Bytes} :
    t.readFile p = .ok bytes ↔ ∃ l, t.entry p = .ok (l, .file bytes) := by
  unfold readFile
  cases run : t.entry p with
  | error fault => simp
  | ok found =>
    obtain ⟨l, e⟩ := found
    cases e <;> simp

theorem Leads.readFile_iff (sound : t.Sound) (leads : t.Leads zone p o) (outside : ¬ zone <+: o)
    (ends : EndsNamed p.segments) {bytes : Bytes} :
    t.readFile p = .ok bytes ↔ t.find? o = some (.file bytes) := by
  obtain ⟨base, ns, erased, rfl, clear⟩ := leads
  have reaches := erased.mono (fun _ _ => find?_of_erased) rfl
  have linkless : t.Linkless base (base ++ ns) := by
    intro i from' to' target
    have same := find?_outside (t := t) fun below => outside (below.trans to')
    rw [← same]
    exact clear i from' to' target
  rw [readFile_eq_ok_iff]
  constructor
  · rintro ⟨place, found⟩
    rcases reaches.resolve_ok sound linkless (.inr rfl) (entry_eq_ok_iff.mp found) with
      ⟨e, same, there⟩ | ⟨d, m, same, _⟩
    · cases same
      exact there
    · cases same
  · intro there
    have more : ns ≠ [] := by
      rintro rfl
      rw [List.append_nil, reaches.base_directory sound] at there
      cases there
    exact ⟨_, entry_eq_ok_iff.mpr
      (reaches.resolve_entry sound linkless true more there (.inr ends))⟩

theorem Leads.entry_of_file (leads : t.Leads zone p o) (outside : ¬ zone <+: o)
    (ends : EndsNamed p.segments) {bytes : Bytes} (found : t.find? o = some (.file bytes))
    (within : Within zone t u) : u.entry p = .ok (o, .file bytes) := by
  obtain ⟨base, ns, erased, rfl, clear⟩ := leads
  have reaches := within.reaches erased
  have there := within.kept _ _ outside found
  have more : ns ≠ [] := by
    rintro rfl
    rw [List.append_nil, reaches.base_directory within.sound] at there
    cases there
  exact entry_eq_ok_iff.mpr
    (reaches.resolve_entry within.sound (within.clear clear) true more there (.inr ends))

end Entry

end FileTree
end ClassHooks
