import ClassHooks.Proofs.Build.Items
import Mathlib.Logic.Relation

/-!
What the work on one destination touches: the file tree at that path alone, and of the ledger not
the paths that are taken. This holds of work that fails as well.
-/
namespace ClassHooks

namespace FileTree

inductive Operates (p : Path) (t u : FileTree) : Prop
  | parent (run : t.createParent p = .ok u)
  | write {bytes : Bytes} (run : t.writeFile p bytes = .ok u)
  | copy {source : Path} (run : t.copyFile source p = .ok u)
  | remove {removed : Bool} (run : t.removeIfPresent p = .ok (removed, u))

end FileTree

def Session.Touched (p : Path) (s s' : Session) : Prop :=
  Relation.ReflTransGen (FileTree.Operates p) s.tree s'.tree ∧
    s'.ledger.claimed = s.ledger.claimed

namespace RunM

/-- The computation touches nothing else than the path, also when it fails. -/
def Touches {α : Type} (p : Path) (x : RunM α) : Prop := ∀ s, Keeps (Session.Touched p s) x

section Touches
variable {α β : Type} {p : Path}

theorem Touches.ok {x : RunM α} (touches : Touches p x) {s s' : Session} {a : α}
    (run : x s = .ok a s') : Session.Touched p s s' := by
  have touched := touches s s ⟨.refl, rfl⟩
  rw [run] at touched
  exact touched

theorem Touches.error {x : RunM α} (touches : Touches p x) {s s' : Session} {e : Error}
    (run : x s = .error e s') : Session.Touched p s s' := by
  have touched := touches s s ⟨.refl, rfl⟩
  rw [run] at touched
  exact touched

theorem touches_bind {x : RunM α} {f : α → RunM β} (first : Touches p x)
    (next : ∀ a, Touches p (f a)) : Touches p (x >>= f) :=
  fun s => keeps_bind (first s) fun a => next a s

theorem touches_pure (a : α) : Touches p (pure a : RunM α) := fun _ => keeps_pure a

theorem touches_of_still {x : RunM α}
    (still : ∀ s, (∃ a, x s = .ok a s) ∨ ∃ e, x s = .error e s) : Touches p x := by
  intro _ s holds
  rcases still s with ⟨a, run⟩ | ⟨e, run⟩
  · rw [run]
    exact holds
  · rw [run]
    exact holds

theorem touches_lift (result : Except Error α) : Touches p (lift result) := by
  refine touches_of_still fun s => ?_
  cases result with
  | ok a => exact .inl ⟨a, rfl⟩
  | error e => exact .inr ⟨e, rfl⟩

theorem touches_get : Touches p (get : RunM Session) := fun _ _ holds => holds

theorem touches_look (operation : FileTree → Except FileFault α) (unit : Option String) :
    Touches p (look operation unit) := by
  refine touches_of_still fun s => ?_
  unfold look
  cases operation s.tree with
  | ok a => exact .inl ⟨a, rfl⟩
  | error fault => exact .inr ⟨_, rfl⟩

theorem touches_modify {change : Session → Session}
    (quiet : ∀ s, (change s).tree = s.tree ∧ (change s).ledger.claimed = s.ledger.claimed) :
    Touches p (modify change : RunM Unit) := by
  intro _ s ⟨operated, taken⟩
  obtain ⟨tree, ledger⟩ := quiet s
  exact ⟨tree ▸ operated, ledger.trans taken⟩

theorem touches_record {entry : Ledger → Ledger} (quiet : ∀ l, (entry l).claimed = l.claimed) :
    Touches p (record entry) :=
  touches_modify fun s => ⟨rfl, quiet s.ledger⟩

theorem touches_warn (text : String) : Touches p (warn text) :=
  touches_modify fun _ => ⟨rfl, rfl⟩

theorem touches_change {operation : FileTree → Except FileFault FileTree} {unit : Option String}
    (operates : ∀ t u, operation t = .ok u → FileTree.Operates p t u) :
    Touches p (change operation unit) := by
  intro _ s ⟨operated, taken⟩
  cases run : operation s.tree with
  | ok u =>
    have done : change operation unit s = .ok () { s with tree := u } :=
      change_ok_iff.mpr ⟨u, run, rfl⟩
    rw [done]
    exact ⟨operated.tail (operates _ _ run), taken⟩
  | error fault =>
    have failed : ∃ e, look operation unit s = .error e s := by
      unfold look
      rw [run]
      exact ⟨_, rfl⟩
    obtain ⟨e, failed⟩ := failed
    have stopped : change operation unit s = .error e s := state_bind_of_error failed
    rw [stopped]
    exact ⟨operated, taken⟩

theorem touches_when {c : Prop} [Decidable c] {x : RunM Unit} {f : Unit → RunM β}
    (first : Touches p (if c then x else pure ())) (next : Touches p (f ())) :
    Touches p (if c then x >>= f else f ()) := by
  split
  · rename_i yes
    rw [if_pos yes] at first
    exact touches_bind first fun _ => next
  · exact next

theorem touches_mapM {f : α → RunM β} (each : ∀ a, Touches p (f a)) (xs : List α) :
    Touches p (xs.mapM f) := by
  induction xs with
  | nil => exact touches_pure _
  | cons x xs ih =>
    rw [List.mapM_cons]
    exact touches_bind (each x) fun _ => touches_bind ih fun _ => touches_pure _

theorem touches_forM {f : α → RunM PUnit} (each : ∀ a, Touches p (f a)) (xs : List α) :
    Touches p (xs.forM f) :=
  fun s => keeps_forM (fun a => each a s) xs

end Touches
end RunM

open RunM

theorem Ledger.claimed_recordUnit (l : Ledger) (outcome : Outcome) :
    (l.recordUnit outcome).claimed = l.claimed := by
  cases outcome <;> rfl

theorem Jar.touches_newData {weave : Bytes → Except Error Outcome} {jar p : Path} (e : Entry) :
    Touches p (newData weave jar e) := by
  unfold newData
  split
  · refine touches_bind ?_ fun outcome => ?_
    · exact touches_bind (touches_lift _) fun outcome =>
        touches_bind (touches_record fun l => l.claimed_recordUnit outcome) fun _ => touches_pure _
    · cases outcome <;> exact touches_pure _
  · exact touches_pure _

theorem Jar.touches_renew {weave : Bytes → Except Error Outcome} {jar p : Path} :
    Touches p (renew weave jar p) := by
  have loads : Touches p (load jar) := by
    refine touches_of_still fun s => ?_
    unfold load
    split
    · exact .inr ⟨_, rfl⟩
    · split
      · exact .inl ⟨_, rfl⟩
      · exact .inr ⟨_, rfl⟩
    · exact .inr ⟨_, rfl⟩
  refine touches_bind loads fun entries => ?_
  have warns : Touches p (if entries.any Entry.isSignature then warn (jar.text ++
      " is signed; rewriting its classes invalidates the signature") else pure ()) := by
    split
    · exact touches_warn _
    · exact touches_pure _
  refine touches_when warns ?_
  refine touches_bind (touches_mapM (fun e => ?_) entries) fun renewed => ?_
  · exact touches_bind (touches_newData e) fun data => touches_pure _
  refine touches_bind (touches_change fun t u run => .parent run) fun _ => ?_
  refine touches_bind (touches_change fun t u run => .write run) fun _ => ?_
  have counts : Touches p (record Ledger.recordResource) := touches_record fun _ => rfl
  exact touches_forM (fun _ => counts) _

namespace Build

theorem touches_copyThrough (policy : CopyPolicy) (source p : Path) :
    Touches p (copyThrough policy source p) := by
  refine touches_bind touches_get fun s => ?_
  split
  · exact touches_bind (touches_change fun t u run => .parent run) fun _ =>
      touches_bind (touches_change fun t u run => .copy run) fun _ => touches_record fun _ => rfl
  · exact touches_record fun _ => rfl

theorem touches_delete (p : Path) : Touches p (delete p) := by
  intro s₀ s ⟨operated, taken⟩
  cases run : s.tree.removeIfPresent p with
  | error fault =>
    have failed : RunM.look (·.removeIfPresent p) none s = .error (.file fault) s := by
      unfold RunM.look
      dsimp only
      rw [run]
    rw [delete, state_bind_of_error failed]
    exact ⟨operated, taken⟩
  | ok found =>
    obtain ⟨removed, tree⟩ := found
    have looked : RunM.look (·.removeIfPresent p) none s = .ok (removed, tree) s :=
      look_ok_iff.mpr ⟨run, rfl⟩
    have next : Touches p (if removed then RunM.record Ledger.recordDelete else pure ()) := by
      split
      · exact touches_record fun _ => rfl
      · exact touches_pure _
    rw [delete, state_bind_of_ok looked]
    exact next s₀ { s with tree } ⟨operated.tail (.remove run), taken⟩

theorem touches_weaveFile (weave : Bytes → Except Error Outcome) (source p : Path) :
    Touches p (weaveFile weave source p) := by
  refine touches_bind (touches_look _ _) fun bytes => ?_
  refine touches_bind (touches_change fun t u run => .parent run) fun _ => ?_
  split
  · refine touches_bind (touches_lift _) fun outcome => ?_
    refine touches_bind (touches_record fun l => l.claimed_recordUnit outcome) fun _ => ?_
    exact touches_change fun t u run => .write run
  · refine touches_bind (touches_change fun t u run => .write run) fun _ => ?_
    exact touches_record fun _ => rfl

theorem touches_processItem (b : Build) (item : PlannedFile) :
    Touches item.target (b.processItem item) := by
  unfold processItem
  split
  · exact touches_weaveFile _ _ _
  · exact touches_copyThrough _ _ _
  · exact touches_delete _

theorem touches_processArchive (b : Build) (mode : BuildMode) (jar : ArchiveInput) (p : Path) :
    Touches p (b.processArchive mode jar p) := by
  unfold processArchive
  split
  · exact Jar.touches_renew
  · exact touches_copyThrough _ _ _
  · exact touches_delete p

end Build
end ClassHooks
