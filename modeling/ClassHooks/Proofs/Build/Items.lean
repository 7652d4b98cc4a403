import ClassHooks.Build.Run
import ClassHooks.Proofs.Build.Counterpart
import ClassHooks.Proofs.Files.Effects

/-!
What one planned file of a run does: its effect at the location of its target, and its note in the
ledger. Both are told by its action, the bytes of the file and whether its target is there.
-/
namespace ClassHooks

namespace RunM
variable {s s' : Session} {a : α}

theorem lift_ok_iff {result : Except Error α} :
    lift result s = .ok a s' ↔ result = .ok a ∧ s = s' := by
  unfold lift
  cases result with
  | ok b => simp
  | error e => simp

theorem look_ok_iff {operation : FileTree → Except FileFault α} {unit : Option String} :
    look operation unit s = .ok a s' ↔ operation s.tree = .ok a ∧ s = s' := by
  unfold look
  cases operation s.tree with
  | ok b => simp
  | error e => simp

theorem change_ok_iff {operation : FileTree → Except FileFault FileTree} {unit : Option String}
    {done : Unit} : change operation unit s = .ok done s' ↔
      ∃ tree, operation s.tree = .ok tree ∧ s' = { s with tree } := by
  unfold change
  rw [state_bind_ok_iff]
  constructor
  · rintro ⟨tree, t, looked, run⟩
    obtain ⟨found, rfl⟩ := look_ok_iff.mp looked
    cases run
    exact ⟨tree, found, rfl⟩
  · rintro ⟨tree, found, rfl⟩
    exact ⟨tree, s, look_ok_iff.mpr ⟨found, rfl⟩, rfl⟩

theorem record_ok_iff {entry : Ledger → Ledger} {done : Unit} :
    record entry s = .ok done s' ↔ s' = { s with ledger := entry s.ledger } := by
  constructor
  · intro run
    cases run
    rfl
  · rintro rfl
    rfl

end RunM

def Outcome.written (bytes : Bytes) : Outcome → Bytes
  | .woven new _ _ => new
  | .unchanged => bytes

/-- What has become of a planned file. -/
inductive Deed where
  | wove (outcome : Outcome) (bytes : Bytes)
  | resource (bytes : Bytes)
  | copied (bytes : Bytes)
  | kept
  | removed
  | missed
  deriving DecidableEq, Repr

namespace Deed

def effect : Deed → Effect
  | .wove _ bytes | .resource bytes | .copied bytes => .store bytes
  | .kept => .keep
  | .removed => .remove
  | .missed => .miss

def note : Deed → Ledger → Ledger
  | .wove outcome _ => (·.recordUnit outcome)
  | .resource _ => Ledger.recordResource
  | .copied _ => Ledger.recordCopy
  | .kept => Ledger.recordSkip
  | .removed => Ledger.recordDelete
  | .missed => id

end Deed

namespace Build

/-- What may become of a planned file with this content, where its target is there or not. -/
inductive Does (b : Build) (content : Option Bytes) (there : Prop) (item : PlannedFile) :
    Deed → Prop where
  | wove {bytes : Bytes} {outcome : Outcome} (action : item.action = .weave)
      (kind : item.file.extension? = some "class") (read : content = some bytes)
      (woven : b.weave bytes = .ok outcome) :
      Does b content there item (.wove outcome (outcome.written bytes))
  | resource {bytes : Bytes} (action : item.action = .weave)
      (kind : item.file.extension? ≠ some "class") (read : content = some bytes) :
      Does b content there item (.resource bytes)
  | copied {bytes : Bytes} (action : item.action = .copyThrough)
      (policy : b.config.copyUnchanged = .always ∨ (b.config.copyUnchanged = .ifMissing ∧ ¬ there))
      (read : content = some bytes) : Does b content there item (.copied bytes)
  | kept (action : item.action = .copyThrough)
      (policy : b.config.copyUnchanged = .never ∨ (b.config.copyUnchanged = .ifMissing ∧ there)) :
      Does b content there item .kept
  | removed (action : item.action = .delete) : Does b content there item .removed
  | missed (action : item.action = .delete) : Does b content there item .missed

section Inversion
variable {s s' : Session} {source destination : Path} {done : Unit}

theorem weaveFile_cases {weave : Bytes → Except Error Outcome}
    (run : weaveFile weave source destination s = .ok done s') :
    ∃ bytes made, s.tree.readFile source = .ok bytes ∧
      s.tree.createParent destination = .ok made ∧
      ((source.extension? = some "class" ∧ ∃ outcome, weave bytes = .ok outcome ∧
          made.writeFile destination (outcome.written bytes) = .ok s'.tree ∧
          s'.ledger = s.ledger.recordUnit outcome) ∨
        (source.extension? ≠ some "class" ∧ made.writeFile destination bytes = .ok s'.tree ∧
          s'.ledger = s.ledger.recordResource)) := by
  obtain ⟨bytes, s₁, looked, run⟩ := state_bind_ok_iff.mp run
  obtain ⟨read, rfl⟩ := RunM.look_ok_iff.mp looked
  obtain ⟨_, s₂, changed, run⟩ := state_bind_ok_iff.mp run
  obtain ⟨made, parent, rfl⟩ := RunM.change_ok_iff.mp changed
  refine ⟨bytes, made, read, parent, ?_⟩
  split at run
  · rename_i kind
    obtain ⟨outcome, s₃, lifted, run⟩ := state_bind_ok_iff.mp run
    obtain ⟨woven, rfl⟩ := RunM.lift_ok_iff.mp lifted
    obtain ⟨_, s₄, noted, run⟩ := state_bind_ok_iff.mp run
    obtain rfl := RunM.record_ok_iff.mp noted
    obtain ⟨w, written, rfl⟩ := RunM.change_ok_iff.mp run
    refine .inl ⟨kind, outcome, mapError_ok_iff.mp woven, ?_, rfl⟩
    cases outcome <;> exact written
  · rename_i kind
    obtain ⟨_, s₃, stored, run⟩ := state_bind_ok_iff.mp run
    obtain ⟨w, written, rfl⟩ := RunM.change_ok_iff.mp stored
    obtain rfl := RunM.record_ok_iff.mp run
    exact .inr ⟨kind, written, rfl⟩

theorem copyThrough_cases {policy : CopyPolicy}
    (run : copyThrough policy source destination s = .ok done s') :
    (copies policy s.tree destination = true ∧ ∃ made,
        s.tree.createParent destination = .ok made ∧
        made.copyFile source destination = .ok s'.tree ∧ s'.ledger = s.ledger.recordCopy) ∨
      (copies policy s.tree destination = false ∧ s'.tree = s.tree ∧
        s'.ledger = s.ledger.recordSkip) := by
  obtain ⟨_, s₁, got, run⟩ := state_bind_ok_iff.mp run
  cases got
  split at run
  · rename_i copies
    obtain ⟨_, s₂, changed, run⟩ := state_bind_ok_iff.mp run
    obtain ⟨made, parent, rfl⟩ := RunM.change_ok_iff.mp changed
    obtain ⟨_, s₃, copied, run⟩ := state_bind_ok_iff.mp run
    obtain ⟨w, written, rfl⟩ := RunM.change_ok_iff.mp copied
    obtain rfl := RunM.record_ok_iff.mp run
    exact .inl ⟨copies, made, parent, written, rfl⟩
  · rename_i keeps
    obtain rfl := RunM.record_ok_iff.mp run
    exact .inr ⟨eq_false_of_ne_true keeps, rfl, rfl⟩

theorem delete_cases (run : delete destination s = .ok done s') :
    ∃ removed, s.tree.removeIfPresent destination = .ok (removed, s'.tree) ∧
      s'.ledger = if removed = true then s.ledger.recordDelete else s.ledger := by
  obtain ⟨⟨removed, w⟩, s₁, looked, run⟩ := state_bind_ok_iff.mp run
  obtain ⟨ran, rfl⟩ := RunM.look_ok_iff.mp looked
  obtain ⟨_, s₂, modified, run⟩ := state_bind_ok_iff.mp run
  cases modified
  cases removed with
  | true =>
    obtain rfl := RunM.record_ok_iff.mp run
    exact ⟨true, ran, rfl⟩
  | false =>
    cases run
    exact ⟨false, ran, rfl⟩

end Inversion

section Item
variable {t : FileTree} {zone l o : Location} {s s' : Session} {source destination : Path}
  (sound : t.Sound) (within : FileTree.Within zone t s.tree)
  (target : t.Target zone destination l)

include sound within target

theorem weaveFile_does {weave : Bytes → Except Error Outcome} (reads : t.ReadsAt zone source o)
    {done : Unit} (run : weaveFile weave source destination s = .ok done s') :
    ∃ bytes, t.fileAt o = some bytes ∧
      ((source.extension? = some "class" ∧ ∃ outcome, weave bytes = .ok outcome ∧
          FileTree.Stores s.tree s'.tree l (outcome.written bytes) ∧
          s'.ledger = s.ledger.recordUnit outcome) ∨
        (source.extension? ≠ some "class" ∧ FileTree.Stores s.tree s'.tree l bytes ∧
          s'.ledger = s.ledger.recordResource)) := by
  obtain ⟨bytes, made, read, parent, cases⟩ := weaveFile_cases run
  obtain ⟨place, found⟩ := FileTree.readFile_eq_ok_iff.mp read
  refine ⟨bytes, reads.fileAt within found, ?_⟩
  rcases cases with ⟨kind, outcome, woven, written, noted⟩ | ⟨kind, written, noted⟩
  · exact .inl ⟨kind, outcome, woven, target.write_stores sound within parent written, noted⟩
  · exact .inr ⟨kind, target.write_stores sound within parent written, noted⟩

theorem copyThrough_does {policy : CopyPolicy} (reads : t.ReadsAt zone source o)
    (ends : FileTree.EndsNamed destination.segments) (inside : zone <+: l) {done : Unit}
    (run : copyThrough policy source destination s = .ok done s') :
    (∃ bytes, t.fileAt o = some bytes ∧
        (policy = .always ∨ (policy = .ifMissing ∧ s.tree.find? l = none)) ∧
        FileTree.Stores s.tree s'.tree l bytes ∧ s'.ledger = s.ledger.recordCopy) ∨
      ((policy = .never ∨ (policy = .ifMissing ∧ s.tree.find? l ≠ none)) ∧
        s'.tree = s.tree ∧ s'.ledger = s.ledger.recordSkip) := by
  have present := target.present_iff sound within ends
  rcases copyThrough_cases run with ⟨copies, made, parent, written, noted⟩ | ⟨keeps, same, noted⟩
  · obtain ⟨origin, bytes, found, stores⟩ := target.copy_stores sound within parent written
    have middle := target.parent_within sound within parent
    obtain rfl := reads.2 made middle origin bytes found
    have apart : l ≠ origin := by
      rintro rfl
      exact reads.1 inside
    rw [if_neg apart] at stores
    refine .inl ⟨bytes, reads.fileAt middle found, ?_, stores, noted⟩
    cases policy with
    | always => exact .inl rfl
    | ifMissing =>
      have missing : s.tree.isPresent destination = false := by simpa [Build.copies] using copies
      refine .inr ⟨rfl, ?_⟩
      by_contra there
      rw [present.mpr there] at missing
      cases missing
    | never => cases copies
  · refine .inr ⟨?_, same, noted⟩
    cases policy with
    | always => cases keeps
    | ifMissing => exact .inr ⟨rfl, present.mp (by simpa [Build.copies] using keeps)⟩
    | never => exact .inl rfl

theorem delete_does {done : Unit} (run : delete destination s = .ok done s') :
    (s.tree.find? l ≠ none ∧ FileTree.Clears s.tree s'.tree l ∧
        s'.ledger = s.ledger.recordDelete) ∨
      (s.tree.find? l = none ∧ s'.tree = s.tree ∧ s'.ledger = s.ledger) := by
  obtain ⟨removed, ran, noted⟩ := delete_cases run
  rcases target.remove_clears sound within ran with ⟨rfl, there, clears⟩ | ⟨rfl, same, gone⟩
  · exact .inl ⟨there, clears, noted⟩
  · exact .inr ⟨gone, same, noted⟩

end Item

theorem processItem_does {b : Build} {t : FileTree} {zone l o : Location} {s s' : Session}
    {item : PlannedFile} (sound : t.Sound) (within : FileTree.Within zone t s.tree)
    (target : t.Target zone item.target l) (ends : FileTree.EndsNamed item.target.segments)
    (reads : item.action ≠ .delete → t.ReadsAt zone item.file o) {done : Unit}
    (run : b.processItem item s = .ok done s') :
    ∃ deed, b.Does (t.fileAt o) (s.tree.find? l ≠ none) item deed ∧
      FileTree.Happens s.tree l deed.effect s'.tree ∧ s'.ledger = deed.note s.ledger ∧
      FileTree.Within zone t s'.tree := by
  unfold processItem at run
  cases action : item.action with
  | weave =>
    rw [action] at run
    obtain ⟨bytes, read, ⟨kind, outcome, woven, stores, noted⟩ | ⟨kind, stores, noted⟩⟩ :=
      weaveFile_does sound within target (reads (by rw [action]; nofun)) run
    · exact ⟨_, .wove action kind read woven, .store stores, noted,
        within.trans (stores.within target.inside within.linkless)⟩
    · exact ⟨_, .resource action kind read, .store stores, noted,
        within.trans (stores.within target.inside within.linkless)⟩
  | copyThrough =>
    rw [action] at run
    rcases copyThrough_does sound within target (reads (by rw [action]; nofun)) ends target.inside
      run with ⟨bytes, read, policy, stores, noted⟩ | ⟨policy, same, noted⟩
    · refine ⟨_, .copied action (policy.imp_right (And.imp_right ?_)) read, .store stores, noted,
        within.trans (stores.within target.inside within.linkless)⟩
      exact fun gone there => there gone
    · rw [same]
      exact ⟨_, .kept action policy, .keep, noted, within⟩
  | delete =>
    rw [action] at run
    rcases delete_does sound within target run with ⟨there, clears, noted⟩ | ⟨gone, same, noted⟩
    · exact ⟨_, .removed action, .remove there clears, noted,
        within.trans (clears.within target.inside within.linkless)⟩
    · rw [same]
      exact ⟨_, .missed action, .miss gone, noted, within⟩

/-- Planned files processed one after the other, with what became of each: `l` tells where their
targets are, and `o` where the files are. -/
inductive Executed (b : Build) (t : FileTree) (l o : PlannedFile → Location) :
    Session → List (PlannedFile × Deed) → Session → Prop where
  | nil {s : Session} : Executed b t l o s [] s
  | cons {s s₁ s' : Session} {item : PlannedFile} {deed : Deed} {done : List (PlannedFile × Deed)}
      (does : b.Does (t.fileAt (o item)) (s.tree.find? (l item) ≠ none) item deed)
      (happens : FileTree.Happens s.tree (l item) deed.effect s₁.tree)
      (noted : s₁.ledger = deed.note s.ledger) (rest : Executed b t l o s₁ done s') :
      Executed b t l o s ((item, deed) :: done) s'

def workOf (l : PlannedFile → Location) (done : List (PlannedFile × Deed)) : Work :=
  done.map fun x => (l x.1, x.2.effect)

section Executed
variable {b : Build} {t : FileTree} {zone : Location} {l o : PlannedFile → Location}
  {s s' : Session} {done before after : List (PlannedFile × Deed)}

theorem executed_of_run {items : List PlannedFile} (sound : t.Sound)
    (within : FileTree.Within zone t s.tree)
    (targets : ∀ x ∈ items, t.Target zone x.target (l x) ∧ FileTree.EndsNamed x.target.segments)
    (reads : ∀ x ∈ items, x.action ≠ .delete → t.ReadsAt zone x.file (o x)) {ended : PUnit}
    (run : items.forM b.processItem s = .ok ended s') :
    ∃ done, done.map Prod.fst = items ∧ Executed b t l o s done s' ∧
      FileTree.Within zone t s'.tree := by
  induction items generalizing s with
  | nil =>
    cases run
    exact ⟨[], rfl, .nil, within⟩
  | cons item items ih =>
    obtain ⟨s₁, first, rest⟩ := forM_cons_ok_iff.mp run
    obtain ⟨target, ends⟩ := targets item (by simp)
    obtain ⟨deed, does, happens, noted, within₁⟩ :=
      processItem_does sound within target ends (reads item (by simp)) first
    obtain ⟨done, same, executed, within'⟩ := ih within₁ (fun x inside => targets x (by simp [inside]))
      (fun x inside => reads x (by simp [inside])) rest
    exact ⟨(item, deed) :: done, by rw [List.map_cons, same], .cons does happens noted executed,
      within'⟩

namespace Executed

theorem performed (executed : Executed b t l o s done s') :
    FileTree.Performed s.tree (workOf l done) s'.tree := by
  induction executed with
  | nil => exact .nil
  | cons _ happens _ _ ih => exact .cons happens ih

theorem append {u : Session} (first : Executed b t l o s before u)
    (rest : Executed b t l o u after s') : Executed b t l o s (before ++ after) s' := by
  induction first with
  | nil => exact rest
  | cons does happens noted _ ih => exact .cons does happens noted (ih rest)

theorem ledger (executed : Executed b t l o s done s') :
    s'.ledger = done.foldl (fun ledger x => x.2.note ledger) s.ledger := by
  induction executed with
  | nil => rfl
  | cons _ _ noted _ ih => rw [ih, noted, List.foldl_cons]

theorem turn {item : PlannedFile} {deed : Deed}
    (executed : Executed b t l o s (before ++ (item, deed) :: after) s') :
    ∃ u, FileTree.Performed s.tree (workOf l before) u ∧
      b.Does (t.fileAt (o item)) (u.find? (l item) ≠ none) item deed := by
  induction before generalizing s with
  | nil =>
    cases executed with
    | cons does _ _ _ => exact ⟨s.tree, .nil, does⟩
  | cons x before ih =>
    cases executed with
    | cons _ happens _ rest =>
      obtain ⟨u, performed, does⟩ := ih rest
      exact ⟨u, .cons happens performed, does⟩

theorem does_of_mem {item : PlannedFile} {deed : Deed} (executed : Executed b t l o s done s')
    (inside : (item, deed) ∈ done) : ∃ there, b.Does (t.fileAt (o item)) there item deed := by
  obtain ⟨before, after, rfl⟩ := List.append_of_mem inside
  obtain ⟨u, _, does⟩ := executed.turn
  exact ⟨_, does⟩

end Executed

theorem Does.delete_iff {content : Option Bytes} {there : Prop} {item : PlannedFile} {deed : Deed}
    (does : b.Does content there item deed) :
    deed.effect.removes = true ↔ item.action = .delete := by
  cases does with
  | wove action _ _ _ => simp [action, Deed.effect, Effect.removes]
  | resource action _ _ => simp [action, Deed.effect, Effect.removes]
  | copied action _ _ => simp [action, Deed.effect, Effect.removes]
  | kept action _ => simp [action, Deed.effect, Effect.removes]
  | removed action => simp [action, Deed.effect, Effect.removes]
  | missed action => simp [action, Deed.effect, Effect.removes]

theorem Executed.orderly (executed : Executed b t l o s done s')
    (distinct : (done.map fun x => l x.1).Nodup)
    (guarded : ∀ x ∈ done.map Prod.fst, ∀ y ∈ done.map Prod.fst, x.action = .delete →
      l x <+: l y → l x ≠ l y → ∃ bytes, s.tree.find? (l x) = some (.file bytes)) :
    FileTree.Orderly s.tree (workOf l done) := by
  refine ⟨by rw [workOf, List.map_map]; exact distinct, ?_⟩
  intro x inside y there removes above strict
  obtain ⟨⟨item, deed⟩, member, rfl⟩ := List.mem_map.mp inside
  obtain ⟨⟨other, deed'⟩, member', rfl⟩ := List.mem_map.mp there
  obtain ⟨_, does⟩ := executed.does_of_mem member
  exact guarded item (List.mem_map.mpr ⟨_, member, rfl⟩) other (List.mem_map.mpr ⟨_, member', rfl⟩)
    (does.delete_iff.mp removes) above strict

end Executed

end Build
end ClassHooks
