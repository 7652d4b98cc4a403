import ClassHooks.Proofs.Build.Rebuilding

/-!
When the planned files of a directory can be processed: each removal before what is written below it,
and no file in the place of a directory.
-/
namespace ClassHooks

open ClassHooks.Path (named segment?)

namespace Build

section Item
variable {b : Build} {t : FileTree} {zone l o : Location} {s : Session} {source destination : Path}
  {bytes : Bytes} (sound : t.Sound) (within : FileTree.Within zone t s.tree)
  (target : t.Target zone destination l) (ends : FileTree.EndsNamed destination.segments)
  (opened : ∀ m, m <+: l → m ≠ l → ∀ e, s.tree.find? m = some e → e = .directory)
include sound within target ends opened

theorem weaveFile_ok {weave : Bytes → Except Error Outcome}
    (free : s.tree.find? l ≠ some .directory) (read : s.tree.readFile source = .ok bytes)
    (weavable : source.extension? = some "class" → ∃ outcome, weave bytes = .ok outcome) :
    ∃ s', weaveFile weave source destination s = .ok () s' := by
  obtain ⟨v, parent, place⟩ := target.parent_ok sound within ends opened free
  have writes (new : Bytes) : ∃ w, v.writeFile destination new = .ok w :=
    ⟨_, bind_ok_iff.mpr ⟨_, place, rfl⟩⟩
  unfold weaveFile
  rw [state_bind_of_ok (RunM.look_ok_iff.mpr ⟨read, rfl⟩),
    state_bind_of_ok (a := ()) (RunM.change_ok_iff.mpr ⟨v, parent, rfl⟩)]
  split
  · rename_i kind
    obtain ⟨outcome, woven⟩ := weavable kind
    obtain ⟨w, written⟩ := writes (outcome.written bytes)
    rw [state_bind_of_ok (RunM.lift_ok_iff.mpr ⟨mapError_ok_iff.mpr woven, rfl⟩),
      state_bind_of_ok (a := ()) (RunM.record_ok_iff.mpr rfl)]
    refine ⟨_, RunM.change_ok_iff.mpr ⟨w, ?_, rfl⟩⟩
    cases outcome <;> exact written
  · obtain ⟨w, written⟩ := writes bytes
    rw [state_bind_of_ok (a := ()) (RunM.change_ok_iff.mpr ⟨w, written, rfl⟩)]
    exact ⟨_, RunM.record_ok_iff.mpr rfl⟩

theorem copyThrough_ok {policy : CopyPolicy} (free : s.tree.find? l ≠ some .directory)
    (read : ∀ u, FileTree.Within zone t u → u.entry source = .ok (o, .file bytes)) :
    ∃ s', copyThrough policy source destination s = .ok () s' := by
  obtain ⟨v, w, parent, copied⟩ := target.copy_ok sound within ends opened free read
  unfold copyThrough
  rw [state_get_bind]
  split
  · rw [state_bind_of_ok (a := ()) (RunM.change_ok_iff.mpr ⟨v, parent, rfl⟩),
      state_bind_of_ok (a := ()) (RunM.change_ok_iff.mpr ⟨w, copied, rfl⟩)]
    exact ⟨_, RunM.record_ok_iff.mpr rfl⟩
  · exact ⟨_, RunM.record_ok_iff.mpr rfl⟩

theorem delete_ok : ∃ s', delete destination s = .ok () s' := by
  obtain ⟨⟨removed, u⟩, done⟩ := target.remove_ok sound within ends opened
  unfold delete
  rw [state_bind_of_ok (RunM.look_ok_iff.mpr ⟨done, rfl⟩)]
  dsimp only
  rw [state_modify_bind]
  split
  · exact ⟨_, RunM.record_ok_iff.mpr rfl⟩
  · exact ⟨_, rfl⟩

end Item

theorem processItem_ok {b : Build} {t : FileTree} {zone l : Location} {s : Session}
    {item : PlannedFile} (sound : t.Sound) (within : FileTree.Within zone t s.tree)
    (target : t.Target zone item.target l) (ends : FileTree.EndsNamed item.target.segments)
    (opened : ∀ m, m <+: l → m ≠ l → ∀ e, s.tree.find? m = some e → e = .directory)
    (free : item.action ≠ .delete → s.tree.find? l ≠ some .directory)
    (read : item.action ≠ .delete → ∃ o bytes,
      (∀ u, FileTree.Within zone t u → u.entry item.file = .ok (o, .file bytes)) ∧
      (item.file.extension? = some "class" → item.action = .weave →
        ∃ outcome, b.weave bytes = .ok outcome)) :
    ∃ s', b.processItem item s = .ok () s' := by
  unfold processItem
  cases action : item.action with
  | weave =>
    have kept : item.action ≠ .delete := by rw [action]; nofun
    obtain ⟨o, bytes, found, weavable⟩ := read kept
    exact weaveFile_ok sound within target ends opened (free kept)
      (FileTree.readFile_eq_ok_iff.mpr ⟨o, found s.tree within⟩) fun kind => weavable kind action
  | copyThrough =>
    have kept : item.action ≠ .delete := by rw [action]; nofun
    obtain ⟨o, bytes, found, _⟩ := read kept
    exact copyThrough_ok sound within target ends opened (free kept) found
  | delete => exact delete_ok sound within target ends opened

abbrev Tasks := List (List String × Action)

/-- No file stands below another one, before or after, and none comes where there were some below. -/
structure Untangled (before after : List String → Option Bytes) : Prop where
  old : ∀ ms more, before ms ≠ none → before (ms ++ more) ≠ none → more = []
  new : ∀ ms more, after ms ≠ none → after (ms ++ more) ≠ none → more = []
  flat : ∀ ms more, after ms ≠ none → before (ms ++ more) ≠ none → more = []

/-- Tasks for what is after, of what was before; a removal does not come behind what is written
below it. -/
structure Fitting (before after : List String → Option Bytes) (tasks : Tasks) : Prop where
  proper : ∀ x ∈ tasks, x.1 ≠ []
  wanted : ∀ x ∈ tasks, x.2 ≠ .delete → after x.1 ≠ none
  known : ∀ x ∈ tasks, x.2 ≠ .weave → before x.1 ≠ none
  ordered : tasks.Pairwise fun x y => x.2 = .weave → y.2 = .delete → ¬ y.1 <+: x.1

/-- A tree in which the tasks can be done: each file below the destination stays or is still to be
removed, and each directory there has or had something below it. -/
structure Passable (before after : List String → Option Bytes) (P : Location) (tasks : Tasks)
    (v : FileTree) : Prop where
  above : ∀ m, m <+: P → ∀ e, v.find? m = some e → e = .directory
  files : ∀ ms bytes, v.find? (P ++ ms) = some (.file bytes) →
    after ms ≠ none ∨ (before ms ≠ none ∧ (ms, .delete) ∈ tasks)
  directories : ∀ ms, ms ≠ [] → v.find? (P ++ ms) = some .directory →
    ∃ more, more ≠ [] ∧ (before (ms ++ more) ≠ none ∨ after (ms ++ more) ≠ none)
  plain : ∀ ms target, v.find? (P ++ ms) ≠ some (.link target)

namespace Passable
variable {before after : List String → Option Bytes} {P : Location} {x : List String × Action}
  {tasks : Tasks} {v v' : FileTree}

theorem opened (passable : Passable before after P (x :: tasks) v)
    (untangled : Untangled before after) (fitting : Fitting before after (x :: tasks)) {m : Location}
    (above : m <+: P ++ x.1) (strict : m ≠ P ++ x.1) {e : Entry} (found : v.find? m = some e) :
    e = .directory := by
  rcases List.prefix_or_prefix_of_prefix above (List.prefix_append P x.1) with up | ⟨ms, rfl⟩
  · exact passable.above m up e found
  rw [List.prefix_append_right_inj] at above
  obtain ⟨more, whole⟩ := id above
  have further : more ≠ [] := by
    rintro rfl
    rw [List.append_nil] at whole
    exact strict (by rw [whole])
  cases e with
  | directory => rfl
  | link target => exact absurd found (passable.plain ms target)
  | file bytes =>
    exfalso
    rcases passable.files ms bytes found with new | ⟨old, pending⟩
    · by_cases removed : x.2 = .delete
      · have was := fitting.known x (by simp) (by rw [removed]; nofun)
        exact further (untangled.flat ms more new (whole ▸ was))
      · exact further (untangled.new ms more new (whole ▸ fitting.wanted x (by simp) removed))
    · by_cases written : x.2 = .weave
      · rcases List.mem_cons.mp pending with rfl | later
        · cases written
        · exact (List.pairwise_cons.mp fitting.ordered).1 _ later written rfl above
      · exact further (untangled.old ms more old (whole ▸ fitting.known x (by simp) written))

theorem free (passable : Passable before after P (x :: tasks) v)
    (untangled : Untangled before after) (fitting : Fitting before after (x :: tasks))
    (kept : x.2 ≠ .delete) : v.find? (P ++ x.1) ≠ some .directory := by
  intro found
  have wanted := fitting.wanted x (by simp) kept
  obtain ⟨more, further, old | new⟩ := passable.directories x.1 (fitting.proper x (by simp)) found
  · exact further (untangled.flat x.1 more wanted old)
  · exact further (untangled.new x.1 more wanted new)

theorem pending (passable : Passable before after P (x :: tasks) v) {ms : List String} {bytes : Bytes}
    (other : ms ≠ x.1 ∨ x.2 ≠ .delete) (found : v.find? (P ++ ms) = some (.file bytes)) :
    after ms ≠ none ∨ (before ms ≠ none ∧ (ms, .delete) ∈ tasks) := by
  refine (passable.files ms bytes found).imp_right (And.imp_right fun pending => ?_)
  refine (List.mem_cons.mp pending).resolve_left ?_
  rintro rfl
  simp at other

theorem stored (passable : Passable before after P (x :: tasks) v)
    (fitting : Fitting before after (x :: tasks)) (kept : x.2 ≠ .delete) {bytes : Bytes}
    (stores : FileTree.Stores v v' (P ++ x.1) bytes) : Passable before after P tasks v' := by
  have proper := fitting.proper x (by simp)
  have wanted := fitting.wanted x (by simp) kept
  refine ⟨fun m up f found => ?_, fun ms content found => ?_, fun ms some found => ?_,
    fun ms target found => ?_⟩
  · rw [stores.found, if_neg] at found
    · split at found
      · exact (Option.some.inj found).symm
      · exact passable.above m up f found
    · rintro rfl
      exact proper (List.append_right_eq_self.mp (up.eq_of_length_le (by simp)))
  · rw [stores.found] at found
    split at found
    · rename_i here
      exact .inl (List.append_cancel_left here ▸ wanted)
    · split at found
      · cases found
      · exact passable.pending (.inr kept) found
  · rw [stores.found] at found
    split at found
    · cases found
    · rename_i here
      split at found
      · rename_i below
        obtain ⟨more, whole⟩ := (List.prefix_append_right_inj P).mp below
        refine ⟨more, ?_, .inr (whole ▸ wanted)⟩
        rintro rfl
        rw [List.append_nil] at whole
        exact here (by rw [whole])
      · exact passable.directories ms some found
  · rw [stores.found] at found
    split at found
    · cases found
    · split at found
      · cases found
      · exact passable.plain ms target found

theorem cleared (passable : Passable before after P (x :: tasks) v)
    (clears : FileTree.Clears v v' (P ++ x.1)) : Passable before after P tasks v' := by
  have old {m : Location} {f : Entry} (found : v'.find? m = some f) :
      ¬ P ++ x.1 <+: m ∧ v.find? m = some f := by
    rw [clears.found] at found
    split at found
    · cases found
    · rename_i outside
      exact ⟨outside, found⟩
  refine ⟨fun m up f found => passable.above m up f (old found).2, fun ms bytes found => ?_,
    fun ms some found => passable.directories ms some (old found).2,
    fun ms target found => passable.plain ms target (old found).2⟩
  obtain ⟨outside, found⟩ := old found
  refine passable.pending (.inl ?_) found
  rintro rfl
  exact outside (List.prefix_refl _)

/-- The tree stays so when the first task is done. -/
theorem step (passable : Passable before after P (x :: tasks) v)
    (fitting : Fitting before after (x :: tasks)) {e : Effect}
    (happens : FileTree.Happens v (P ++ x.1) e v') (action : e.removes = true ↔ x.2 = .delete) :
    Passable before after P tasks v' := by
  cases happens with
  | store stores => exact passable.stored fitting (fun removed => by cases action.mpr removed) stores
  | keep =>
    have kept : x.2 ≠ .delete := fun removed => by cases action.mpr removed
    exact ⟨passable.above, fun _ _ => passable.pending (.inr kept), passable.directories,
      passable.plain⟩
  | remove _ clears => exact passable.cleared clears
  | miss gone =>
    refine ⟨passable.above, fun ms bytes found => ?_, passable.directories, passable.plain⟩
    refine passable.pending (.inl ?_) found
    rintro rfl
    rw [gone] at found
    cases found

theorem beside (passable : Passable before after P tasks v)
    (same : ∀ ms, v'.find? (P ++ ms) = v.find? (P ++ ms))
    (upper : ∀ m, m <+: P → v'.find? m = v.find? m ∨ v'.find? m = some .directory) :
    Passable before after P tasks v' where
  above m up e found := by
    rcases upper m up with old | made
    · exact passable.above m up e (old ▸ found)
    · rw [made] at found
      exact (Option.some.inj found).symm
  files ms bytes found := passable.files ms bytes (same ms ▸ found)
  directories ms some found := passable.directories ms some (same ms ▸ found)
  plain ms target found := passable.plain ms target (same ms ▸ found)

end Passable

theorem Deed.note_claimed (deed : Deed) (ledger : Ledger) :
    (deed.note ledger).claimed = ledger.claimed := by
  cases deed with
  | wove outcome _ => cases outcome <;> rfl
  | _ => rfl

def taskOf (destination : Path) (x : PlannedFile) : List String × Action :=
  (namesBelow destination x.target, x.action)

section Items
variable {b : Build} {t : FileTree} {zone P : Location} {destination : Path}
  {before after : List String → Option Bytes}

theorem items_ok {items : List PlannedFile} {s : Session} (untangled : Untangled before after)
    (sound : t.Sound) (within : FileTree.Within zone t s.tree)
    (targets : ∀ x ∈ items, t.Target zone x.target (placeOf P destination x.target) ∧
      FileTree.EndsNamed x.target.segments)
    (reads : ∀ x ∈ items, x.action ≠ .delete → ∃ o bytes, ¬ zone <+: o ∧
      (∀ u, FileTree.Within zone t u → u.entry x.file = .ok (o, .file bytes)) ∧
      (x.file.extension? = some "class" → x.action = .weave →
        ∃ outcome, b.weave bytes = .ok outcome))
    (fitting : Fitting before after (items.map (taskOf destination)))
    (passable : Passable before after P (items.map (taskOf destination)) s.tree) :
    ∃ s', items.forM b.processItem s = .ok () s' ∧ s'.ledger.claimed = s.ledger.claimed := by
  induction items generalizing s with
  | nil => exact ⟨s, rfl, rfl⟩
  | cons x items ih =>
    obtain ⟨target, ends⟩ := targets x (by simp)
    have read := reads x (by simp)
    obtain ⟨s₁, first⟩ : ∃ s₁, b.processItem x s = .ok () s₁ :=
      processItem_ok sound within target ends
        (fun m above strict e => passable.opened untangled fitting above strict)
        (passable.free untangled fitting)
        fun kept => (read kept).imp fun o found => found.imp fun bytes all => all.2
    obtain ⟨o, reading⟩ : ∃ o, x.action ≠ .delete → t.ReadsAt zone x.file o := by
      by_cases removed : x.action = .delete
      · exact ⟨[], fun kept => absurd removed kept⟩
      · obtain ⟨o, bytes, outside, found, _⟩ := read removed
        refine ⟨o, fun _ => ⟨outside, fun u inner l content there => ?_⟩⟩
        rw [found u inner] at there
        cases there
        rfl
    obtain ⟨deed, does, happens, noted, within₁⟩ :=
      processItem_does sound within target ends reading first
    have rest := passable.step fitting happens does.delete_iff
    have fitting' : Fitting before after (items.map (taskOf destination)) :=
      ⟨fun y inside => fitting.proper y (by simp [inside]),
        fun y inside => fitting.wanted y (by simp [inside]),
        fun y inside => fitting.known y (by simp [inside]), (List.pairwise_cons.mp fitting.ordered).2⟩
    obtain ⟨s', all, claimed⟩ := ih within₁ (fun y inside => targets y (by simp [inside]))
      (fun y inside => reads y (by simp [inside])) fitting' rest
    refine ⟨s', forM_cons_ok_iff.mpr ⟨s₁, first, all⟩, ?_⟩
    rw [claimed, noted, Deed.note_claimed]

end Items
end Build
end ClassHooks
