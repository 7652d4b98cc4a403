import ClassHooks.Proofs.Files.Locating
import ClassHooks.Proofs.Success

/-!
Making directories. A path is made a directory together with all that stand above it, unless a file
is in the way; all else stays as it is.
-/
namespace ClassHooks
namespace FileTree

open ClassHooks.Path (named Trimmed)

/-- The location is a directory, and so are those above it. -/
structure Made (t t' : FileTree) (l : Location) : Prop where
  sound : t'.Sound
  home : t'.workingDirectory = t.workingDirectory
  opened : ∀ m, m <+: l → ∀ e, t.find? m = some e → e = .directory
  found : ∀ m, t'.find? m = if m <+: l then some .directory else t.find? m

namespace Made
variable {t u v : FileTree} {l m : Location}

theorem of_directory (sound : t.Sound) (there : t.find? l = some .directory) : Made t t l := by
  have above : ∀ m, m <+: l → t.find? m = some .directory := by
    intro m prefixed
    by_cases same : m = l
    · rw [same]
      exact there
    · exact sound.above there prefixed same
  refine ⟨sound, rfl, fun m prefixed e found => ?_, fun m => ?_⟩
  · rw [above m prefixed] at found
    exact (Option.some.inj found).symm
  · split
    · rename_i prefixed
      exact above m prefixed
    · rfl

theorem trans (one : Made t u l) (two : Made u v m) (below : l <+: m) : Made t v m := by
  refine ⟨two.sound, two.home.trans one.home, fun i prefixed e found => ?_, fun i => ?_⟩
  · by_cases first : i <+: l
    · exact one.opened i first e found
    · refine two.opened i prefixed e ?_
      rw [one.found, if_neg first, found]
  · rw [two.found]
    split
    · rfl
    · rename_i outside
      rw [one.found, if_neg fun first => outside (first.trans below)]

theorem kept (made : Made t u l) {i : Location} {e : Entry} (found : t.find? i = some e) :
    u.find? i = some e := by
  rw [made.found]
  split
  · rename_i prefixed
    rw [made.opened i prefixed e found]
  · exact found

theorem linkless (made : Made t u l) {i j : Location} (linkless : t.Linkless i j) :
    u.Linkless i j := by
  intro k from' to' target found
  rw [made.found] at found
  split at found
  · cases found
  · exact linkless k from' to' target found

theorem insert (sound : t.Sound) {n : String} (name : Path.isName n = true)
    (parent : t.find? l = some .directory) (free : t.find? (l ++ [n]) = none) :
    Made t (t.insert (l ++ [n]) .directory) (l ++ [n]) := by
  have above := of_directory sound parent
  refine ⟨sound.insert name parent (.inl rfl), t.insert_home _, fun m prefixed e found => ?_, fun m => ?_⟩
  · rcases List.prefix_concat_iff.mp prefixed with rfl | upper
    · rw [free] at found
      cases found
    · exact above.opened m upper e found
  · rw [find?_insert _ (by simp)]
    by_cases same : m = l ++ [n]
    · rw [if_pos same, if_pos (same ▸ List.prefix_refl _)]
    · rw [if_neg same]
      split
      · rename_i prefixed
        have upper := (List.prefix_concat_iff.mp prefixed).resolve_left same
        rw [above.found m, if_pos upper]
      · rfl

end Made

def Settles (t : FileTree) (p : Path) (t' : FileTree) : Prop :=
  t.createDirectory p = .ok t' ∨ (t.isDirectory p = true ∧ t' = t)

section Reaching
variable {t t' : FileTree} {p : Path} {base : Location} {ns ms : List String} {n : String}

theorem isDirectory_of_resolve {l : Location} (run : t.resolve true p = .ok (.entry l .directory)) :
    t.isDirectory p = true := by
  unfold isDirectory entry
  rw [run]

theorem linkless_above (linkless : t.Linkless base (base ++ (ms ++ [n]))) :
    t.Linkless base (base ++ ms) := by
  intro i from' to'
  exact linkless i from' (to'.trans (by simp))

theorem createDirectory_base (reaches : t.Reaches p base [])
    (spelled : p.absolute = true ∨ p.segments ≠ []) :
    t.createDirectory p = .error .alreadyExists := by
  obtain ⟨l, e, resolved⟩ := reaches.resolve_base spelled
  unfold createDirectory
  rw [resolved]

theorem Reaches.parent (reaches : t.Reaches p base (ms ++ [n])) :
    ∃ above, p.parent? = some above ∧ t.Reaches above base ms ∧ Trimmed above := by
  obtain ⟨_, cs, _, spelled, _⟩ := id reaches
  have split : p.components = (cs ++ named ms) ++ [.normal n] := by
    rw [spelled, Path.named_append, List.append_assoc]
    rfl
  obtain ⟨above, parent, _, components, trimmed⟩ := Path.parent_of_components split
  have last : p.components = above.components ++ named [n] := by
    rw [split, components]
    rfl
  exact ⟨above, parent, reaches.above last, trimmed⟩

theorem Reaches.length_le (reaches : t.Reaches p base ns) : ns.length ≤ p.segments.length := by
  obtain ⟨_, cs, _, spelled, _⟩ := reaches
  have split := congrArg List.length (Reaches.significant_of_components spelled)
  have shorter : (Path.significant p.segments).length ≤ p.segments.length :=
    List.length_filter_le ..
  rw [List.length_append] at split
  omega

theorem Reaches.endsNamed (reaches : t.Reaches p base (ms ++ [n])) (trimmed : Trimmed p) :
    EndsNamed p.segments := by
  obtain ⟨_, cs, _, spelled, _⟩ := reaches
  have last : p.components = (cs ++ named ms) ++ [.normal n] := by
    rw [spelled, Path.named_append, List.append_assoc]
    rfl
  exact Path.endsNamed_of_trimmed trimmed last

theorem createDirectoriesTo_empty {depth : Nat} (empty : ¬(p.absolute = true ∨ p.segments ≠ [])) :
    t.createDirectoriesTo depth p = .ok t := by
  rw [not_or, not_not, Bool.not_eq_true] at empty
  rw [createDirectoriesTo.eq_def, empty.1, empty.2]
  rfl

section Spelled
variable {depth : Nat} (spelled : p.absolute = true ∨ p.segments ≠ [])
include spelled

theorem not_empty_of_spelled : ¬(p.segments.isEmpty && !p.absolute) = true := by
  rw [Bool.and_eq_true, not_and_or]
  simpa [or_comm] using spelled

theorem createDirectoriesTo_cases (run : t.createDirectoriesTo depth p = .ok t') :
    t.Settles p t' ∨ ∃ depth' above u, t.createDirectory p = .error .notFound ∧
      p.parent? = some above ∧ t.createDirectoriesTo depth' above = .ok u ∧ u.Settles p t' := by
  rw [createDirectoriesTo.eq_def, if_neg (not_empty_of_spelled spelled)] at run
  split at run
  · rename_i made
    obtain rfl := Except.ok.inj run
    exact .inl (.inl made)
  · rename_i missing
    split at run
    · rename_i depth' above parent
      obtain ⟨u, first, last⟩ := bind_ok_iff.mp run
      refine .inr ⟨depth', above, u, missing, parent, first, ?_⟩
      split at last
      · rename_i made
        cases last
        exact .inl made
      · split at last
        · rename_i is
          cases last
          exact .inr ⟨is, rfl⟩
        · cases last
    · cases run
  · split at run
    · rename_i is
      obtain rfl := Except.ok.inj run
      exact .inl (.inr ⟨is, rfl⟩)
    · cases run

theorem createDirectoriesTo_there (taken : t.createDirectory p = .error .alreadyExists)
    (is : t.isDirectory p = true) : t.createDirectoriesTo depth p = .ok t := by
  rw [createDirectoriesTo.eq_def, if_neg (not_empty_of_spelled spelled), taken]
  exact if_pos is

theorem createDirectoriesTo_made_here (made : t.createDirectory p = .ok t') :
    t.createDirectoriesTo depth p = .ok t' := by
  rw [createDirectoriesTo.eq_def, if_neg (not_empty_of_spelled spelled), made]

theorem createDirectoriesTo_above {above : Path} {u : FileTree}
    (missing : t.createDirectory p = .error .notFound) (parent : p.parent? = some above)
    (first : t.createDirectoriesTo depth above = .ok u) (last : u.createDirectory p = .ok t') :
    t.createDirectoriesTo (depth + 1) p = .ok t' := by
  rw [createDirectoriesTo.eq_def, if_neg (not_empty_of_spelled spelled), missing, parent]
  dsimp only
  rw [first]
  dsimp only [bind, Except.bind]
  rw [last]
  rfl

end Spelled

variable (sound : t.Sound)
include sound

theorem find?_of_isDirectory (reaches : t.Reaches p base ns)
    (linkless : t.Linkless base (base ++ ns)) (is : t.isDirectory p = true) :
    t.find? (base ++ ns) = some .directory := by
  unfold isDirectory entry at is
  cases run : t.resolve true p with
  | error fault =>
    rw [run] at is
    cases is
  | ok place =>
    rw [run] at is
    rcases reaches.resolve_ok sound linkless (.inr rfl) run with ⟨e, rfl, there⟩ | ⟨d, m, rfl, _⟩
    · cases e with
      | directory => exact there
      | file bytes => cases is
      | link target => cases is
    · cases is

theorem resolve_directory (reaches : t.Reaches p base ns)
    (linkless : t.Linkless base (base ++ ns)) (spelled : p.absolute = true ∨ p.segments ≠ [])
    (there : t.find? (base ++ ns) = some .directory) :
    t.resolve true p = .ok (.entry (base ++ ns) .directory) := by
  obtain ⟨k, post, same, level, rfl, _⟩ := reaches.resolve_walk true (.inr rfl) spelled
  rw [same]
  exact walk_plain_entry sound level linkless there (.inl rfl) (reaches.base_directory sound)

theorem isDirectory_of_find? (reaches : t.Reaches p base ns)
    (linkless : t.Linkless base (base ++ ns)) (spelled : p.absolute = true ∨ p.segments ≠ [])
    (there : t.find? (base ++ ns) = some .directory) : t.isDirectory p = true :=
  isDirectory_of_resolve (resolve_directory sound reaches linkless spelled there)

theorem createDirectory_made (reaches : t.Reaches p base (ms ++ [n]))
    (linkless : t.Linkless base (base ++ (ms ++ [n]))) (run : t.createDirectory p = .ok t') :
    Made t t' (base ++ (ms ++ [n])) := by
  unfold createDirectory at run
  split at run
  · rename_i d m resolved
    obtain rfl := Except.ok.inj run
    rcases reaches.resolve_ok sound linkless (.inl (by simp)) resolved with
      ⟨e, place, _⟩ | ⟨d', m', place, split, parent, free⟩
    · cases place
    · cases place
      rw [split]
      refine .insert sound (reaches.names m ?_) parent free
      rw [← List.append_assoc] at split
      obtain ⟨-, same⟩ := List.append_inj' split rfl
      cases same
      simp
  · cases run
  · cases run

theorem made_of_isDirectory (reaches : t.Reaches p base ns)
    (linkless : t.Linkless base (base ++ ns)) (is : t.isDirectory p = true) :
    Made t t (base ++ ns) :=
  .of_directory sound (find?_of_isDirectory sound reaches linkless is)

theorem settles_made (reaches : t.Reaches p base (ms ++ [n]))
    (linkless : t.Linkless base (base ++ (ms ++ [n]))) (settles : t.Settles p t') :
    Made t t' (base ++ (ms ++ [n])) := by
  rcases settles with made | ⟨is, rfl⟩
  · exact createDirectory_made sound reaches linkless made
  · exact made_of_isDirectory sound reaches linkless is

theorem createDirectoriesTo_made {depth : Nat} (reaches : t.Reaches p base ns)
    (linkless : t.Linkless base (base ++ ns)) (run : t.createDirectoriesTo depth p = .ok t') :
    Made t t' (base ++ ns) := by
  induction ns using List.reverseRecOn generalizing p depth t' with
  | nil =>
    rw [List.append_nil]
    have there := Made.of_directory sound (reaches.base_directory sound)
    by_cases spelled : p.absolute = true ∨ p.segments ≠ []
    · have taken := createDirectory_base reaches spelled
      rcases createDirectoriesTo_cases spelled run with (made | ⟨_, rfl⟩) | ⟨_, _, _, missing, _⟩
      · rw [taken] at made
        cases made
      · exact there
      · rw [taken] at missing
        cases missing
    · rw [createDirectoriesTo_empty spelled] at run
      obtain rfl := Except.ok.inj run
      exact there
  | append_singleton ms n ih =>
    have spelled : p.absolute = true ∨ p.segments ≠ [] := .inr (reaches.segments_ne_nil (by simp))
    rcases createDirectoriesTo_cases spelled run with
      settles | ⟨depth', above, u, _, parent, first, settles⟩
    · exact settles_made sound reaches linkless settles
    · -- what stands above the directory is made first
      obtain ⟨above', parent', upper, _⟩ := reaches.parent
      rw [parent] at parent'
      obtain rfl := Option.some.inj parent'
      have one := ih upper (linkless_above linkless) first
      have two := settles_made one.sound (reaches.mono (fun _ _ => one.kept) one.home)
        (one.linkless linkless) settles
      exact one.trans two (by simp)

theorem createDirectory_vacant (reaches : t.Reaches p base (ms ++ [n]))
    (linkless : t.Linkless base (base ++ (ms ++ [n]))) (ends : EndsNamed p.segments)
    (parent : t.find? (base ++ ms) = some .directory)
    (free : t.find? (base ++ (ms ++ [n])) = none) :
    t.createDirectory p = .ok (t.insert (base ++ ms ++ [n]) .directory) := by
  unfold createDirectory
  rw [reaches.resolve_vacant sound linkless false rfl parent free ends]

theorem createDirectory_there (reaches : t.Reaches p base (ms ++ [n]))
    (linkless : t.Linkless base (base ++ (ms ++ [n])))
    (there : t.find? (base ++ (ms ++ [n])) = some .directory) :
    t.createDirectory p = .error .alreadyExists := by
  unfold createDirectory
  rw [reaches.resolve_entry sound linkless false (by simp) there (.inl rfl)]

theorem createDirectory_missing (reaches : t.Reaches p base (ms ++ [n]))
    (linkless : t.Linkless base (base ++ (ms ++ [n])))
    (opened : ∀ m, m <+: base ++ (ms ++ [n]) → ∀ e, t.find? m = some e → e = .directory)
    (missing : t.find? (base ++ ms) = none) : t.createDirectory p = .error .notFound := by
  have resolved : t.resolve false p = .error .notFound := by
    refine (reaches.resolve_missing sound linkless false rfl missing).resolve_right ?_
    rintro ⟨i, bytes, _, above, file⟩
    cases opened i (above.trans (by simp)) _ file
  unfold createDirectory
  rw [resolved]

theorem createDirectoriesTo_ok {depth : Nat} (reaches : t.Reaches p base ns)
    (linkless : t.Linkless base (base ++ ns)) (trimmed : Trimmed p) (deep : ns.length ≤ depth)
    (opened : ∀ m, m <+: base ++ ns → ∀ e, t.find? m = some e → e = .directory) :
    ∃ t', t.createDirectoriesTo depth p = .ok t' := by
  induction ns using List.reverseRecOn generalizing p depth with
  | nil =>
    by_cases spelled : p.absolute = true ∨ p.segments ≠ []
    · have there := reaches.base_directory sound
      exact ⟨t, createDirectoriesTo_there spelled (createDirectory_base reaches spelled)
        (isDirectory_of_find? sound reaches linkless spelled (by simpa using there))⟩
    · exact ⟨t, createDirectoriesTo_empty spelled⟩
  | append_singleton ms n ih =>
    have spelled : p.absolute = true ∨ p.segments ≠ [] := .inr (reaches.segments_ne_nil (by simp))
    have ends := reaches.endsNamed trimmed
    cases there : t.find? (base ++ (ms ++ [n])) with
    | some e =>
      obtain rfl := opened _ (List.prefix_refl _) e there
      exact ⟨t, createDirectoriesTo_there spelled (createDirectory_there sound reaches linkless there)
        (isDirectory_of_find? sound reaches linkless spelled there)⟩
    | none =>
      cases upper : t.find? (base ++ ms) with
      | some e =>
        obtain rfl := opened _ (by simp) e upper
        exact ⟨_, createDirectoriesTo_made_here spelled
          (createDirectory_vacant sound reaches linkless ends upper there)⟩
      | none =>
        obtain ⟨above, parent, reaches', trimmed'⟩ := reaches.parent
        obtain ⟨d, rfl⟩ : ∃ d, depth = d + 1 := ⟨depth - 1, by simp at deep; omega⟩
        obtain ⟨u, first⟩ := ih reaches' (linkless_above linkless) trimmed'
          (show ms.length ≤ d by simpa using deep) fun m prefixed => opened m (prefixed.trans (by simp))
        have made := createDirectoriesTo_made sound reaches' (linkless_above linkless) first
        have free : u.find? (base ++ (ms ++ [n])) = none := by
          rw [made.found, if_neg fun longer => absurd longer.length_le (by simp)]
          exact there
        have last := createDirectory_vacant made.sound
          (reaches.mono (fun _ _ => made.kept) made.home) (made.linkless linkless) ends
          (by rw [made.found, if_pos (List.prefix_refl _)]) free
        exact ⟨_, createDirectoriesTo_above spelled
          (createDirectory_missing sound reaches linkless opened upper) parent first last⟩

theorem createParent_made (reaches : t.Reaches p base (ms ++ [n]))
    (linkless : t.Linkless base (base ++ (ms ++ [n]))) (run : t.createParent p = .ok t') :
    Made t t' (base ++ ms) := by
  obtain ⟨above, parent, upper, _⟩ := reaches.parent
  unfold createParent at run
  rw [parent] at run
  exact createDirectoriesTo_made sound upper (linkless_above linkless) run

theorem createParent_ok (reaches : t.Reaches p base (ms ++ [n]))
    (linkless : t.Linkless base (base ++ (ms ++ [n])))
    (opened : ∀ m, m <+: base ++ ms → ∀ e, t.find? m = some e → e = .directory) :
    ∃ t', t.createParent p = .ok t' := by
  obtain ⟨above, parent, upper, trimmed⟩ := reaches.parent
  unfold createParent
  rw [parent]
  exact createDirectoriesTo_ok sound upper (linkless_above linkless) trimmed
    (Nat.le_succ_of_le upper.length_le) opened

end Reaching
end FileTree
end ClassHooks
