import ClassHooks.Proofs.Files.Making

/-!
Storing and removing files, told by the location that a path leads to: a file is stored there, in
directories that are made, or all at the location and below it is removed. All else stays as it is.
-/
namespace ClassHooks
namespace FileTree

structure Stores (t t' : FileTree) (l : Location) (bytes : Bytes) : Prop where
  sound : t'.Sound
  home : t'.workingDirectory = t.workingDirectory
  opened : ∀ m, m <+: l → m ≠ l → ∀ e, t.find? m = some e → e = .directory
  free : t.find? l ≠ some .directory
  found : ∀ m, t'.find? m =
    if m = l then some (.file bytes) else if m <+: l then some .directory else t.find? m

structure Clears (t t' : FileTree) (l : Location) : Prop where
  sound : t'.Sound
  home : t'.workingDirectory = t.workingDirectory
  found : ∀ m, t'.find? m = if l <+: m then none else t.find? m

theorem Stores.of_made {t u : FileTree} {l : Location} {n : String} {bytes : Bytes}
    (name : Path.isName n = true) (made : Made t u l)
    (free : u.find? (l ++ [n]) ≠ some .directory) :
    Stores t (u.insert (l ++ [n]) (.file bytes)) (l ++ [n]) bytes := by
  have outside : ¬ l ++ [n] <+: l := fun longer => absurd longer.length_le (by simp)
  have parent : u.find? l = some .directory := by rw [made.found, if_pos (List.prefix_refl l)]
  rw [made.found, if_neg outside] at free
  refine ⟨made.sound.insert name parent (.inr ?_), (u.insert_home _).trans made.home,
    fun m prefixed strict e found => ?_, free, fun m => ?_⟩
  · rw [made.found, if_neg outside]
    exact free
  · exact made.opened m ((List.prefix_concat_iff.mp prefixed).resolve_left strict) e found
  · rw [find?_insert _ (by simp)]
    by_cases same : m = l ++ [n]
    · rw [if_pos same, if_pos same]
    · rw [if_neg same, if_neg same, made.found m]
      exact ite_congr (propext (by simp [List.prefix_concat_iff, same])) (fun _ => rfl) fun _ => rfl

section Reaching
variable {t t' : FileTree} {p : Path} {base : Location} {ns ms : List String} {n : String}
  (sound : t.Sound)
include sound

theorem fileLocation_eq (reaches : t.Reaches p base (ms ++ [n]))
    (linkless : t.Linkless base (base ++ (ms ++ [n]))) {location : Location}
    (run : t.fileLocation p = .ok location) :
    location = base ++ (ms ++ [n]) ∧ t.find? (base ++ ms) = some .directory ∧
      t.find? (base ++ (ms ++ [n])) ≠ some .directory := by
  unfold fileLocation at run
  split at run
  · split at run <;> cases run
  · cases resolved : t.resolve true p with
    | error fault =>
      rw [resolved] at run
      cases run
    | ok place =>
      rw [resolved] at run
      rcases reaches.resolve_ok sound linkless (.inr rfl) resolved with
        ⟨e, rfl, there⟩ | ⟨d, m, rfl, split, parent, free⟩
      · have house : t.find? (base ++ ms) = some .directory := by
          rw [← List.append_assoc] at there
          exact sound.housed _ _ _ there
        rw [there]
        cases e with
        | directory => cases run
        | file bytes =>
          cases run
          exact ⟨rfl, house, nofun⟩
        | link target =>
          cases run
          exact ⟨rfl, house, nofun⟩
      · cases run
        have whole := split
        rw [← List.append_assoc] at split
        obtain ⟨rfl, -⟩ := List.append_inj' split rfl
        rw [whole, free]
        exact ⟨rfl, parent, nofun⟩

omit sound in
theorem endsNamed_of_fileLocation (reaches : t.Reaches p base (ms ++ [n]))
    (linkless : t.Linkless base (base ++ (ms ++ [n]))) {location : Location}
    (run : t.fileLocation p = .ok location) : EndsNamed p.segments := by
  unfold fileLocation at run
  split at run
  · split at run <;> cases run
  · rename_i plain
    obtain ⟨k, post, same, level, names, front, whole⟩ :=
      reaches.resolve_walk true (.inr rfl) (.inr (reaches.segments_ne_nil (by simp)))
    have more : post ≠ [] := by
      rintro rfl
      simp at names
    rw [same] at run
    intro s last
    rw [← whole, List.getLast?_append_of_ne_nil _ more] at last
    cases walked : t.walk true k base post with
    | error fault =>
      rw [walked] at run
      cases run
    | ok place =>
      rw [walked] at run
      refine (last_of_walk level (names ▸ linkless) walked (fun l same => ?_) last).resolve_right ?_
      · rw [same] at run
        cases run
      · rintro rfl
        refine plain ?_
        unfold Path.endsWithSlash
        rw [← whole, List.getLast?_append_of_ne_nil _ more, last]
        rfl

theorem fileLocation_ok (reaches : t.Reaches p base (ms ++ [n]))
    (linkless : t.Linkless base (base ++ (ms ++ [n]))) (ends : EndsNamed p.segments)
    (parent : t.find? (base ++ ms) = some .directory)
    (free : t.find? (base ++ (ms ++ [n])) ≠ some .directory) :
    t.fileLocation p = .ok (base ++ (ms ++ [n])) := by
  have slash : p.endsWithSlash = false := by
    unfold Path.endsWithSlash
    rw [beq_eq_false_iff_ne]
    intro last
    simpa [Path.isName] using ends "" last
  unfold fileLocation
  rw [slash, if_neg (by simp)]
  cases there : t.find? (base ++ (ms ++ [n])) with
  | some e =>
    rw [reaches.resolve_entry sound linkless true (by simp) there (.inr ends)]
    cases e with
    | directory => exact absurd there free
    | file bytes => rfl
    | link target => rfl
  | none =>
    rw [reaches.resolve_vacant sound linkless true rfl parent there ends]
    simp

variable {u : FileTree} {bytes : Bytes}

omit sound in
theorem reaches_made (reaches : t.Reaches p base ns) {l : Location} (made : Made t u l) :
    u.Reaches p base ns := reaches.mono (fun _ _ => made.kept) made.home

omit sound in
theorem stores_of_fileLocation (reaches : t.Reaches p base (ms ++ [n]))
    (linkless : t.Linkless base (base ++ (ms ++ [n]))) (made : Made t u (base ++ ms))
    {location : Location} (run : u.fileLocation p = .ok location) (bytes : Bytes) :
    location = base ++ (ms ++ [n]) ∧ Stores t (u.insert location (.file bytes)) location bytes := by
  obtain ⟨rfl, _, free⟩ :=
    fileLocation_eq made.sound (reaches_made reaches made) (made.linkless linkless) run
  rw [← List.append_assoc] at free ⊢
  exact ⟨rfl, .of_made (reaches.names n (by simp)) made free⟩

omit sound in
theorem writeFile_stores (reaches : t.Reaches p base (ms ++ [n]))
    (linkless : t.Linkless base (base ++ (ms ++ [n]))) (made : Made t u (base ++ ms))
    (run : u.writeFile p bytes = .ok t') : Stores t t' (base ++ (ms ++ [n])) bytes := by
  obtain ⟨location, place, done⟩ := bind_ok_iff.mp run
  cases done
  obtain ⟨rfl, stores⟩ := stores_of_fileLocation reaches linkless made place bytes
  exact stores

omit sound in
theorem copyFile_stores (reaches : t.Reaches p base (ms ++ [n]))
    (linkless : t.Linkless base (base ++ (ms ++ [n]))) (made : Made t u (base ++ ms))
    {source : Path} (run : u.copyFile source p = .ok t') :
    ∃ origin bytes, u.entry source = .ok (origin, .file bytes) ∧
      Stores t t' (base ++ (ms ++ [n])) (if base ++ (ms ++ [n]) = origin then [] else bytes) := by
  obtain ⟨⟨origin, e⟩, read, run⟩ := bind_ok_iff.mp run
  cases e with
  | file bytes =>
    obtain ⟨location, place, done⟩ := bind_ok_iff.mp run
    cases done
    obtain ⟨rfl, stores⟩ := stores_of_fileLocation reaches linkless made place
      (if location = origin then [] else bytes)
    exact ⟨origin, bytes, read, stores⟩
  | directory => cases run
  | link target => cases run

omit sound in
theorem fileLocation_made (reaches : t.Reaches p base (ms ++ [n]))
    (linkless : t.Linkless base (base ++ (ms ++ [n]))) (made : Made t u (base ++ ms))
    (ends : EndsNamed p.segments) (free : t.find? (base ++ (ms ++ [n])) ≠ some .directory) :
    u.fileLocation p = .ok (base ++ (ms ++ [n])) := by
  refine fileLocation_ok made.sound (reaches_made reaches made) (made.linkless linkless) ends ?_ ?_
  · rw [made.found, if_pos (List.prefix_refl _)]
  · rw [made.found, if_neg fun longer => absurd longer.length_le (by simp)]
    exact free

theorem clears_eraseTree {l : Location} (inside : l ≠ []) : Clears t (t.eraseTree l) l := by
  refine ⟨sound.eraseTree l, rfl, fun m => ?_⟩
  rw [find?_eraseTree]
  exact ite_congr (propext (and_iff_right_of_imp fun prefixed empty =>
    inside (List.prefix_nil.mp (empty ▸ prefixed)))) (fun _ => rfl) fun _ => rfl

theorem removeDirectory_clears (reaches : t.Reaches p base ns)
    (linkless : t.Linkless base (base ++ ns)) (more : ns ≠ []) :
    (∀ u, t.removeDirectory p = .ok u → Clears t u (base ++ ns)) ∧
      (t.removeDirectory p = .error .notFound → t.find? (base ++ ns) = none) := by
  unfold removeDirectory
  cases resolved : t.resolve false p with
  | error fault =>
    refine ⟨nofun, fun run => ?_⟩
    cases run
    exact reaches.resolve_notFound sound linkless more resolved
  | ok place =>
    rcases reaches.resolve_ok sound linkless (.inl more) resolved with
      ⟨e, rfl, there⟩ | ⟨d, m, rfl, split, _, free⟩
    · cases e with
      | directory =>
        refine ⟨fun u run => ?_, nofun⟩
        cases run
        exact clears_eraseTree sound (by simp [more])
      | file bytes => exact ⟨nofun, nofun⟩
      | link target =>
        exact absurd there (linkless _ (List.prefix_append base ns) (List.prefix_refl _) target)
    · exact ⟨nofun, fun _ => split ▸ free⟩

theorem removeDirectory_opened (reaches : t.Reaches p base ns)
    (linkless : t.Linkless base (base ++ ns)) (more : ns ≠ [])
    (run : (∃ u, t.removeDirectory p = .ok u) ∨ t.removeDirectory p = .error .notFound)
    {m : Location} (above : m <+: base ++ ns) {e : Entry} (there : t.find? m = some e) :
    e = .directory := by
  have of_found {l : Location} (found : t.find? l = some .directory) (upper : m <+: l) :
      e = .directory := by
    by_cases here : m = l
    · rw [here, found] at there
      exact (Option.some.inj there).symm
    · rw [sound.above found upper here] at there
      exact (Option.some.inj there).symm
  unfold removeDirectory at run
  cases resolved : t.resolve false p with
  | error fault =>
    rw [resolved] at run
    rcases run with ⟨u, run⟩ | run
    · cases run
    · cases run
      exact reaches.opened_of_resolve sound linkless more resolved above there
  | ok place =>
    rcases reaches.resolve_ok sound linkless (.inl more) resolved with
      ⟨f, rfl, found⟩ | ⟨d, n, rfl, split, parent, free⟩
    · rw [resolved] at run
      cases f with
      | directory => exact of_found found above
      | file bytes => rcases run with ⟨u, run⟩ | run <;> cases run
      | link target =>
        exact absurd found (linkless _ (List.prefix_append base ns) (List.prefix_refl _) target)
    · rw [split, List.prefix_concat_iff] at above
      rcases above with rfl | upper
      · rw [free] at there
        cases there
      · exact of_found parent upper

theorem removeFile_clears (reaches : t.Reaches p base ns)
    (linkless : t.Linkless base (base ++ ns)) (more : ns ≠ []) :
    (∀ u, t.removeFile p = .ok u → t.find? (base ++ ns) ≠ none ∧ Clears t u (base ++ ns)) ∧
      (t.removeFile p = .error .notFound → t.find? (base ++ ns) = none) := by
  unfold removeFile
  cases resolved : t.resolve false p with
  | error fault =>
    refine ⟨nofun, fun run => ?_⟩
    cases run
    exact reaches.resolve_notFound sound linkless more resolved
  | ok place =>
    rcases reaches.resolve_ok sound linkless (.inl more) resolved with
      ⟨e, rfl, there⟩ | ⟨d, m, rfl, split, _, free⟩
    · cases e with
      | directory => exact ⟨nofun, nofun⟩
      | file bytes =>
        refine ⟨fun u run => ?_, nofun⟩
        cases run
        rw [sound.erase_eq_eraseTree (by rw [there]; nofun)]
        exact ⟨by rw [there]; nofun, clears_eraseTree sound (by simp [more])⟩
      | link target =>
        exact absurd there (linkless _ (List.prefix_append base ns) (List.prefix_refl _) target)
    · exact ⟨nofun, fun _ => split ▸ free⟩

theorem removeIfPresent_clears (reaches : t.Reaches p base ns)
    (linkless : t.Linkless base (base ++ ns)) (more : ns ≠ []) {removed : Bool}
    (run : t.removeIfPresent p = .ok (removed, t')) :
    (removed = true ∧ t.find? (base ++ ns) ≠ none ∧ Clears t t' (base ++ ns)) ∨
      (removed = false ∧ t' = t ∧ t.find? (base ++ ns) = none) := by
  have parts : (∀ u, (if t.isDirectory p then t.removeDirectory p else t.removeFile p) = .ok u →
        t.find? (base ++ ns) ≠ none ∧ Clears t u (base ++ ns)) ∧
      ((if t.isDirectory p then t.removeDirectory p else t.removeFile p) = .error .notFound →
        t.find? (base ++ ns) = none) := by
    by_cases is : t.isDirectory p = true
    · obtain ⟨cleared, missing⟩ := removeDirectory_clears sound reaches linkless more
      rw [if_pos is]
      refine ⟨fun u done => ⟨?_, cleared u done⟩, missing⟩
      rw [find?_of_isDirectory sound reaches linkless is]
      nofun
    · rw [if_neg is]
      exact removeFile_clears sound reaches linkless more
  unfold removeIfPresent at run
  split at run
  · rename_i u done
    cases run
    exact .inl ⟨rfl, parts.1 _ done⟩
  · rename_i failed
    cases run
    exact .inr ⟨rfl, rfl, parts.2 failed⟩
  · cases run

theorem removeIfPresent_ok (reaches : t.Reaches p base (ms ++ [n]))
    (linkless : t.Linkless base (base ++ (ms ++ [n]))) (ends : EndsNamed p.segments)
    (opened : ∀ m, m <+: base ++ ms → ∀ e, t.find? m = some e → e = .directory) :
    ∃ done, t.removeIfPresent p = .ok done := by
  have some' : p.segments ≠ [] := reaches.segments_ne_nil (by simp)
  cases there : t.find? (base ++ (ms ++ [n])) with
  | some e =>
    have resolved := reaches.resolve_entry sound linkless false (by simp) there
      (.inr ends)
    unfold removeIfPresent
    by_cases is : t.isDirectory p = true
    · have directory := find?_of_isDirectory sound reaches linkless is
      rw [there] at directory
      cases directory
      rw [if_pos is]
      unfold removeDirectory
      rw [resolved]
      exact ⟨_, rfl⟩
    · rw [if_neg is]
      unfold removeFile
      rw [resolved]
      cases e with
      | directory => exact absurd (isDirectory_of_find? sound reaches linkless (.inr some') there) is
      | file bytes => exact ⟨_, rfl⟩
      | link target => exact ⟨_, rfl⟩
  | none =>
    have missing : t.removeFile p = .error .notFound := by
      unfold removeFile
      cases upper : t.find? (base ++ ms) with
      | some e =>
        obtain rfl := opened _ (List.prefix_refl _) e upper
        rw [reaches.resolve_vacant sound linkless false rfl upper there ends]
      | none =>
        rcases reaches.resolve_missing sound linkless false rfl upper with
          lost | ⟨i, bytes, _, above, file⟩
        · rw [lost]
        · cases opened i above _ file
    have no : ¬ t.isDirectory p = true := by
      intro is
      rw [find?_of_isDirectory sound reaches linkless is] at there
      cases there
    unfold removeIfPresent
    rw [if_neg no, missing]
    exact ⟨_, rfl⟩

theorem isPresent_iff (reaches : t.Reaches p base (ms ++ [n]))
    (linkless : t.Linkless base (base ++ (ms ++ [n]))) (ends : EndsNamed p.segments) :
    t.isPresent p = true ↔ t.find? (base ++ (ms ++ [n])) ≠ none := by
  unfold isPresent entry
  constructor
  · intro present
    cases resolved : t.resolve true p with
    | error fault =>
      rw [resolved] at present
      cases present
    | ok place =>
      rw [resolved] at present
      rcases reaches.resolve_ok sound linkless (.inr rfl) resolved with
        ⟨e, rfl, there⟩ | ⟨d, m, rfl, _⟩
      · rw [there]
        nofun
      · cases present
  · intro present
    obtain ⟨e, there⟩ := Option.ne_none_iff_exists'.mp present
    rw [reaches.resolve_entry sound linkless true (by simp) there (.inr ends)]
    rfl

end Reaching

section Zone
variable {zone : Location} {t u : FileTree} {l : Location}

theorem ne_of_outside {m : Location} (outside : ¬ zone <+: m) (inside : zone <+: l) : m ≠ l :=
  fun same => outside (same ▸ inside)

theorem Stores.within {bytes : Bytes} (stores : Stores t u l bytes) (inside : zone <+: l)
    (linkless : ∀ m, zone <+: m → ∀ target, t.find? m ≠ some (.link target)) : Within zone t u := by
  refine ⟨stores.sound, stores.home, fun m e outside found => ?_, fun m e outside found => ?_,
    fun m within target found => ?_⟩
  · rw [stores.found, if_neg (ne_of_outside outside inside)]
    split
    · rename_i above
      rw [stores.opened m above (ne_of_outside outside inside) e found]
    · exact found
  · rw [stores.found, if_neg (ne_of_outside outside inside)] at found
    split at found
    · exact .inr (Option.some.inj found).symm
    · exact .inl found
  · rw [stores.found] at found
    split at found
    · cases found
    · split at found
      · cases found
      · exact linkless m within target found

theorem Made.within (made : Made t u l)
    (linkless : ∀ m, zone <+: m → ∀ target, t.find? m ≠ some (.link target)) : Within zone t u := by
  refine ⟨made.sound, made.home, fun m e _ found => made.kept found, fun m e _ found => ?_,
    fun m within target found => ?_⟩
  · rw [made.found] at found
    split at found
    · exact .inr (Option.some.inj found).symm
    · exact .inl found
  · rw [made.found] at found
    split at found
    · cases found
    · exact linkless m within target found

theorem Clears.within (clears : Clears t u l) (inside : zone <+: l)
    (linkless : ∀ m, zone <+: m → ∀ target, t.find? m ≠ some (.link target)) : Within zone t u := by
  refine ⟨clears.sound, clears.home, fun m e outside found => ?_, fun m e outside found => ?_,
    fun m within target found => ?_⟩
  · rw [clears.found, if_neg fun below => outside (inside.trans below)]
    exact found
  · rw [clears.found, if_neg fun below => outside (inside.trans below)] at found
    exact .inl found
  · rw [clears.found] at found
    split at found
    · cases found
    · exact linkless m within target found

/-- A path that leads into the zone, not to its root. -/
structure Target (t : FileTree) (zone : Location) (p : Path) (l : Location) : Prop where
  leads : t.Leads zone p l
  inside : zone <+: l
  proper : l ≠ []

variable {v w : FileTree} {p : Path}

namespace Target

theorem of_leads {root : Path} (leads : t.Leads zone root l) (inside : zone <+: l)
    {ns : List String} (more : ns ≠ []) (spelled : p.components = root.components ++ Path.named ns) :
    t.Target zone p (l ++ ns) :=
  ⟨leads.below spelled fun _ => erased_linkless inside, inside.trans (List.prefix_append l ns),
    by simp [more]⟩

variable (target : t.Target zone p l) (sound : t.Sound) (within : Within zone t u)
include target sound within

theorem reaches : ∃ base ms n, u.Reaches p base (ms ++ [n]) ∧ l = base ++ (ms ++ [n]) ∧
    u.Linkless base (base ++ (ms ++ [n])) := by
  obtain ⟨⟨base, ns, outer, rfl, clear⟩, inside, proper⟩ := target
  have more : ns ≠ [] := by
    rintro rfl
    rw [List.append_nil] at inside proper
    have there := outer.base_directory (sound.eraseTree zone)
    rw [find?_eraseTree, if_pos ⟨proper, inside⟩] at there
    cases there
  obtain ⟨ms, n, rfl⟩ := (List.eq_nil_or_concat' ns).resolve_left more
  exact ⟨base, ms, n, within.reaches outer, rfl, within.clear clear⟩

theorem parent_within (run : u.createParent p = .ok v) : Within zone t v := by
  obtain ⟨base, ms, n, reaches, rfl, linkless⟩ := target.reaches sound within
  exact within.trans ((createParent_made within.sound reaches linkless run).within within.linkless)

theorem write_stores {bytes : Bytes} (parent : u.createParent p = .ok v)
    (run : v.writeFile p bytes = .ok w) : Stores u w l bytes := by
  obtain ⟨base, ms, n, reaches, rfl, linkless⟩ := target.reaches sound within
  exact writeFile_stores reaches linkless (createParent_made within.sound reaches linkless parent) run

theorem write_endsNamed {bytes : Bytes} (parent : u.createParent p = .ok v)
    (run : v.writeFile p bytes = .ok w) : EndsNamed p.segments := by
  obtain ⟨base, ms, n, reaches, rfl, linkless⟩ := target.reaches sound within
  have made := createParent_made within.sound reaches linkless parent
  obtain ⟨l, place, _⟩ := bind_ok_iff.mp run
  exact endsNamed_of_fileLocation (reaches_made reaches made) (made.linkless linkless) place

theorem copy_stores {source : Path} (parent : u.createParent p = .ok v)
    (run : v.copyFile source p = .ok w) : ∃ origin bytes,
      v.entry source = .ok (origin, .file bytes) ∧ Stores u w l (if l = origin then [] else bytes) := by
  obtain ⟨base, ms, n, reaches, rfl, linkless⟩ := target.reaches sound within
  exact copyFile_stores reaches linkless (createParent_made within.sound reaches linkless parent) run

theorem remove_clears {removed : Bool} (run : u.removeIfPresent p = .ok (removed, w)) :
    (removed = true ∧ u.find? l ≠ none ∧ Clears u w l) ∨
      (removed = false ∧ w = u ∧ u.find? l = none) := by
  obtain ⟨base, ms, n, reaches, rfl, linkless⟩ := target.reaches sound within
  exact removeIfPresent_clears within.sound reaches linkless (by simp) run

theorem present_iff (ends : EndsNamed p.segments) : u.isPresent p = true ↔ u.find? l ≠ none := by
  obtain ⟨base, ms, n, reaches, rfl, linkless⟩ := target.reaches sound within
  exact isPresent_iff within.sound reaches linkless ends

theorem readFile_iff (ends : EndsNamed p.segments) {bytes : Bytes} :
    u.readFile p = .ok bytes ↔ u.find? l = some (.file bytes) := by
  obtain ⟨base, ms, n, reaches, rfl, linkless⟩ := target.reaches sound within
  rw [readFile_eq_ok_iff]
  constructor
  · rintro ⟨place, found⟩
    rcases reaches.resolve_ok within.sound linkless (.inr rfl) (entry_eq_ok_iff.mp found) with
      ⟨e, same, there⟩ | ⟨d, m, same, _⟩
    · cases same
      exact there
    · cases same
  · intro there
    exact ⟨_, entry_eq_ok_iff.mpr
      (reaches.resolve_entry within.sound linkless true (by simp) there (.inr ends))⟩

section Success
variable (ends : EndsNamed p.segments)
  (opened : ∀ m, m <+: l → m ≠ l → ∀ e, u.find? m = some e → e = .directory)
include ends opened

theorem parent_ok (free : u.find? l ≠ some .directory) :
    ∃ v, u.createParent p = .ok v ∧ v.fileLocation p = .ok l := by
  obtain ⟨base, ms, n, reaches, rfl, linkless⟩ := target.reaches sound within
  obtain ⟨v, parent⟩ := createParent_ok within.sound reaches linkless fun m above =>
    opened m (above.trans (by simp)) (by
      rintro rfl
      exact absurd above.length_le (by simp))
  have made := createParent_made within.sound reaches linkless parent
  exact ⟨v, parent, fileLocation_made reaches linkless made ends free⟩

theorem copy_ok (free : u.find? l ≠ some .directory) {source : Path} {origin : Location}
    {bytes : Bytes} (read : ∀ v, Within zone t v → v.entry source = .ok (origin, .file bytes)) :
    ∃ v w, u.createParent p = .ok v ∧ v.copyFile source p = .ok w := by
  obtain ⟨v, parent, place⟩ := target.parent_ok sound within ends opened free
  have there := read v (target.parent_within sound within parent)
  exact ⟨v, _, parent, bind_ok_iff.mpr ⟨_, there, bind_ok_iff.mpr ⟨_, place, rfl⟩⟩⟩

theorem remove_ok : ∃ done, u.removeIfPresent p = .ok done := by
  obtain ⟨base, ms, n, reaches, rfl, linkless⟩ := target.reaches sound within
  exact removeIfPresent_ok within.sound reaches linkless ends fun m above =>
    opened m (above.trans (by simp)) (by
      rintro rfl
      exact absurd above.length_le (by simp))

end Success
end Target

end Zone
end FileTree
end ClassHooks
