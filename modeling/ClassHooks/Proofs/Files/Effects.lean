import ClassHooks.Proofs.Files.Storing

/-!
Work on a file tree, as a list of effects at locations. Where each location has one effect, and what
is removed is a file wherever it stands above other work, the files at the end do not hang on the
order: they are the stored ones, and those that were there and were not removed.
-/
namespace ClassHooks

/-- What is done at one location; nothing is missed but what was to be removed. -/
inductive Effect where
  | store (bytes : Bytes)
  | keep
  | remove
  | miss
  deriving DecidableEq, Repr

namespace Effect

def removes : Effect → Bool
  | .remove | .miss => true
  | .store _ | .keep => false

end Effect

abbrev Work := List (Location × Effect)

namespace FileTree

inductive Happens (t : FileTree) (l : Location) : Effect → FileTree → Prop where
  | store {bytes : Bytes} {u : FileTree} (stores : Stores t u l bytes) : Happens t l (.store bytes) u
  | keep : Happens t l .keep t
  | remove {u : FileTree} (there : t.find? l ≠ none) (clears : Clears t u l) : Happens t l .remove u
  | miss (gone : t.find? l = none) : Happens t l .miss t

inductive Performed : FileTree → Work → FileTree → Prop where
  | nil {t : FileTree} : Performed t [] t
  | cons {t u v : FileTree} {l : Location} {e : Effect} {work : Work} (first : Happens t l e u)
      (rest : Performed u work v) : Performed t ((l, e) :: work) v

/-- Each location has one effect, and what is to be removed above another one is a file. -/
structure Orderly (t : FileTree) (work : Work) : Prop where
  distinct : (work.map Prod.fst).Nodup
  guarded : ∀ x ∈ work, ∀ y ∈ work, x.2.removes = true → x.1 <+: y.1 → x.1 ≠ y.1 →
    ∃ bytes, t.find? x.1 = some (.file bytes)

theorem performed_append {t v : FileTree} {work more : Work} :
    Performed t (work ++ more) v ↔ ∃ u, Performed t work u ∧ Performed u more v := by
  induction work generalizing t with
  | nil =>
    constructor
    · intro rest
      exact ⟨t, .nil, rest⟩
    · rintro ⟨u, none, rest⟩
      cases none
      exact rest
  | cons x work ih =>
    constructor
    · intro whole
      cases whole with
      | cons first rest =>
        obtain ⟨u, before, after⟩ := ih.mp rest
        exact ⟨u, .cons first before, after⟩
    · rintro ⟨u, before, after⟩
      cases before with
      | cons first rest => exact .cons first (ih.mpr ⟨u, rest, after⟩)

section Steps
variable {t u v : FileTree} {l m : Location} {e : Effect} {work before after : Work}

theorem Happens.sound (sound : t.Sound) (happens : Happens t l e u) : u.Sound := by
  cases happens with
  | store stores => exact stores.sound
  | keep => exact sound
  | remove _ clears => exact clears.sound
  | miss _ => exact sound

theorem Performed.sound (sound : t.Sound) (performed : Performed t work u) : u.Sound := by
  induction performed with
  | nil => exact sound
  | cons first _ ih => exact ih (first.sound sound)

namespace Orderly

theorem sublist {less : Work} (orderly : Orderly t work) (part : less.Sublist work) :
    Orderly t less where
  distinct := orderly.distinct.sublist (part.map _)
  guarded x inside y there := orderly.guarded x (part.subset inside) y (part.subset there)

theorem head_ne (orderly : Orderly t ((l, e) :: work)) {y : Location × Effect} (inside : y ∈ work) :
    l ≠ y.1 := by
  have distinct := orderly.distinct
  rw [List.map_cons, List.nodup_cons] at distinct
  rintro rfl
  exact distinct.1 (List.mem_map.mpr ⟨y, inside, rfl⟩)

/-- What is removed first removes nothing that other work needs to be there. -/
theorem outside_of_removes (orderly : Orderly t ((l, e) :: work)) (sound : t.Sound)
    (removes : e.removes = true) {y : Location × Effect} (inside : y ∈ work)
    (there : t.find? y.1 ≠ none) : ¬ l <+: y.1 := by
  intro above
  obtain ⟨bytes, file⟩ :=
    orderly.guarded (l, e) (by simp) y (by simp [inside]) removes above (orderly.head_ne inside)
  exact there (sound.blank_below file above (orderly.head_ne inside))

theorem step (orderly : Orderly t ((l, e) :: work)) (sound : t.Sound) (happens : Happens t l e u) :
    Orderly u work := by
  refine ⟨orderly.distinct.of_cons, fun x inside y there removes above strict => ?_⟩
  obtain ⟨bytes, file⟩ :=
    orderly.guarded x (by simp [inside]) y (by simp [there]) removes above strict
  refine ⟨bytes, ?_⟩
  cases happens with
  | store stores =>
    rw [stores.found, if_neg (orderly.head_ne inside).symm, if_neg]
    · exact file
    · intro prefixed
      cases stores.opened _ prefixed (orderly.head_ne inside).symm _ file
  | keep => exact file
  | remove _ clears =>
    rw [clears.found, if_neg (orderly.outside_of_removes sound rfl inside (by rw [file]; nofun))]
    exact file
  | miss _ => exact file

end Orderly

theorem mem_store_cons {bytes bytes' : Bytes} (other : m ≠ l) :
    (m, .store bytes) ∈ (l, .store bytes') :: work ↔ (m, Effect.store bytes) ∈ work := by
  simp [other]

theorem performed_files (sound : t.Sound) (orderly : Orderly t work)
    (performed : Performed t work v) (bytes : Bytes) :
    v.find? m = some (.file bytes) ↔ (m, .store bytes) ∈ work ∨
      (t.find? m = some (.file bytes) ∧ (∀ b, (m, .store b) ∉ work) ∧
        ∀ x ∈ work, x.2 = .remove → ¬ x.1 <+: m) := by
  induction performed with
  | nil => simp
  | @cons t u v l e work first rest ih =>
    rw [ih (first.sound sound) (orderly.step sound first)]
    cases first with
    | @store bytes' _ stores =>
      by_cases here : m = l
      · subst here
        have unstored : ∀ b, (m, Effect.store b) ∉ work :=
          fun b inside => orderly.head_ne inside rfl
        have unremoved : ∀ x ∈ work, x.2 = .remove → ¬ x.1 <+: m := by
          intro x inside removed above
          have strict := (orderly.head_ne inside).symm
          obtain ⟨b, file⟩ := orderly.guarded x (by simp [inside]) (m, .store bytes') (by simp)
            (by rw [removed]; rfl) above strict
          cases stores.opened _ above strict _ file
        rw [stores.found, if_pos rfl]
        constructor
        · rintro (stored | ⟨same, _⟩)
          · exact absurd stored (unstored bytes)
          · cases same
            exact .inl (by simp)
        · rintro (stored | ⟨_, none, _⟩)
          · rcases List.mem_cons.mp stored with same | stored
            · cases same
              exact .inr ⟨rfl, unstored, unremoved⟩
            · exact absurd stored (unstored bytes)
          · exact absurd (List.mem_cons_self ..) (none bytes')
      · have same : u.find? m = some (.file bytes) ↔ t.find? m = some (.file bytes) := by
          rw [stores.found, if_neg here]
          split
          · rename_i above
            refine ⟨nofun, fun file => ?_⟩
            cases stores.opened m above here _ file
          · rfl
        rw [same, mem_store_cons here]
        simp only [mem_store_cons here, List.forall_mem_cons]
        simp
    | keep => simp
    | remove _ clears =>
      rw [clears.found]
      by_cases below : l <+: m
      · simp [below]
      · simp [below]
    | miss _ => simp

theorem Performed.beside (performed : Performed t work v) {place : Location}
    (below : ∀ x ∈ work, place <+: x.1) (outside : ¬ place <+: m) :
    v.find? m = t.find? m ∨ (v.find? m = some .directory ∧ m <+: place) := by
  induction performed with
  | nil => exact .inl rfl
  | @cons t u v l e work first rest ih =>
    have head : place <+: l := below (l, e) (by simp)
    have apart : ¬ l <+: m := fun inside => outside (head.trans inside)
    have one : u.find? m = t.find? m ∨ (u.find? m = some .directory ∧ m <+: place) := by
      cases first with
      | store stores =>
        have other : m ≠ l := by
          rintro rfl
          exact apart (List.prefix_refl m)
        rw [stores.found, if_neg other]
        split
        · rename_i above
          exact .inr ⟨rfl, (List.prefix_or_prefix_of_prefix above head).resolve_right outside⟩
        · exact .inl rfl
      | keep => exact .inl rfl
      | remove _ clears =>
        rw [clears.found, if_neg apart]
        exact .inl rfl
      | miss _ => exact .inl rfl
    rcases ih fun x inside => below x (by simp [inside]) with same | made
    · rw [same]
      exact one
    · exact .inr made

theorem present_of_performed (sound : t.Sound) (orderly : Orderly t (before ++ (l, e) :: after))
    (performed : Performed t before u) (there : t.find? l ≠ none) : u.find? l ≠ none := by
  induction performed with
  | nil => exact there
  | @cons t w u k d before first rest ih =>
    refine ih (first.sound sound) (orderly.step sound first) ?_
    have inside : (l, e) ∈ before ++ (l, e) :: after := by simp
    cases first with
    | store stores =>
      rw [stores.found]
      split
      · nofun
      · split
        · nofun
        · exact there
    | keep => exact there
    | remove _ clears =>
      rw [clears.found, if_neg (orderly.outside_of_removes sound rfl inside there)]
      exact there
    | miss _ => exact there

theorem stored_of_performed (performed : Performed t before u) (gone : t.find? l = none)
    (there : u.find? l ≠ none) : ∃ x ∈ before, ∃ b, x.2 = .store b ∧ l <+: x.1 := by
  induction performed with
  | nil => exact absurd gone there
  | @cons t w u k d before first rest ih =>
    by_cases still : w.find? l = none
    · obtain ⟨x, inside, stored⟩ := ih still there
      exact ⟨x, by simp [inside], stored⟩
    · cases first with
      | @store b _ stores =>
        refine ⟨_, List.mem_cons_self .., b, rfl, ?_⟩
        by_contra outside
        have other : l ≠ k := by
          rintro rfl
          exact outside (List.prefix_refl l)
        rw [stores.found, if_neg other, if_neg outside] at still
        exact still gone
      | keep => exact absurd gone still
      | remove _ clears =>
        rw [clears.found] at still
        split at still
        · exact absurd rfl still
        · exact absurd gone still
      | miss _ => exact absurd gone still

theorem remove_iff (sound : t.Sound) (orderly : Orderly t work) (performed : Performed t work v)
    (inside : (l, e) ∈ work) (removes : e.removes = true) : e = .remove ↔ t.find? l ≠ none := by
  obtain ⟨before, after, rfl⟩ := List.append_of_mem inside
  obtain ⟨u, first, rest⟩ := performed_append.mp performed
  cases rest with
  | cons here _ =>
    cases here with
    | store _ => cases removes
    | keep => cases removes
    | remove there _ =>
      refine ⟨fun _ gone => ?_, fun _ => rfl⟩
      obtain ⟨x, stored, b, _, below⟩ := stored_of_performed first gone there
      have strict : l ≠ x.1 := by
        have distinct := orderly.distinct
        rw [List.map_append, List.nodup_append] at distinct
        exact (distinct.2.2 x.1 (List.mem_map.mpr ⟨x, stored, rfl⟩) l (by simp)).symm
      obtain ⟨bytes, file⟩ := orderly.guarded (l, .remove) (by simp) x (by simp [stored]) rfl below
        strict
      rw [gone] at file
      cases file
    | miss gone =>
      exact ⟨nofun, fun there => absurd gone (present_of_performed sound orderly first there)⟩

/-- A file that stands at a location after its turn stands there at the end. -/
theorem kept_of_performed {bytes : Bytes} (sound : t.Sound) (orderly : Orderly t (before ++ after))
    (first : Performed t before u) (rest : Performed u after v) (inside : (l, e) ∈ before)
    (file : u.find? l = some (.file bytes)) : v.find? l = some (.file bytes) := by
  have whole := performed_append.mpr ⟨u, first, rest⟩
  have distinct := orderly.distinct
  rw [List.map_append, List.nodup_append] at distinct
  have other : ∀ x ∈ after, l ≠ x.1 := fun x later =>
    distinct.2.2 l (List.mem_map.mpr ⟨_, inside, rfl⟩) x.1 (List.mem_map.mpr ⟨x, later, rfl⟩)
  rw [performed_files sound orderly whole]
  rcases (performed_files sound (orderly.sublist (List.sublist_append_left ..)) first bytes).mp file
    with stored | ⟨old, unstored, unremoved⟩
  · exact .inl (List.mem_append_left _ stored)
  · refine .inr ⟨old, fun b stored => ?_, fun x there removed above => ?_⟩
    · rcases List.mem_append.mp stored with earlier | later
      · exact unstored b earlier
      · exact other _ later rfl
    · rcases List.mem_append.mp there with earlier | later
      · exact unremoved x earlier removed above
      · obtain ⟨b, upper⟩ := orderly.guarded x there (l, e) (by simp [inside])
          (by rw [removed]; rfl) above (other x later).symm
        rw [sound.blank_below upper above (other x later).symm] at old
        cases old

theorem stored_apart (sound : t.Sound) (orderly : Orderly t work) (performed : Performed t work v)
    {b c : Bytes} (one : (l, .store b) ∈ work) (two : (m, .store c) ∈ work) (below : l <+: m) :
    l = m := by
  have file := (performed_files sound orderly performed b).mpr (.inl one)
  have other := (performed_files sound orderly performed c).mpr (.inl two)
  by_contra strict
  rw [(performed.sound sound).blank_below file below strict] at other
  cases other

end Steps
end FileTree
end ClassHooks
