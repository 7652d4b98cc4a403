import Mathlib
import ClassHooks.Proofs.Build.Planning

/-!
The files of a directory may be processed in any order. What becomes of a file is told by the tree
before the work, whichever files went first: a target is there at its turn if it was there before, or
if something was stored below it, which then keeps it from being stored in any order.
-/
namespace ClassHooks
namespace Build

open ClassHooks.Path (named segment?)

theorem note_comm (d e : Deed) (ledger : Ledger) :
    d.note (e.note ledger) = e.note (d.note ledger) := by
  cases d with
  | wove o _ =>
    cases o <;> cases e with
    | wove p _ => cases p <;> simp [Deed.note, Ledger.recordUnit, Nat.add_right_comm]
    | _ => simp [Deed.note, Ledger.recordUnit, Ledger.recordResource, Ledger.recordCopy,
        Ledger.recordSkip, Ledger.recordDelete]
  | _ =>
    cases e with
    | wove p _ =>
      cases p <;> simp [Deed.note, Ledger.recordUnit, Ledger.recordResource, Ledger.recordCopy,
        Ledger.recordSkip, Ledger.recordDelete]
    | _ => simp [Deed.note, Ledger.recordResource, Ledger.recordCopy, Ledger.recordSkip,
        Ledger.recordDelete]

theorem exists_bound (f : α → Nat) (xs : List α) : ∃ n, ∀ x ∈ xs, f x ≤ n := by
  induction xs with
  | nil => exact ⟨0, by simp⟩
  | cons x xs ih =>
    obtain ⟨n, bound⟩ := ih
    refine ⟨max (f x) n, fun y inside => ?_⟩
    rcases List.mem_cons.mp inside with rfl | inside
    · exact le_max_left ..
    · exact (bound y inside).trans (le_max_right ..)

theorem Does.copied_of_stored {b : Build} {content : Option Bytes} {there there' : Prop}
    {item : PlannedFile} {d e : Deed} {bytes : Bytes} (does : b.Does content there item d)
    (does' : b.Does content there' item e) (stored : d.effect = .store bytes)
    (unstored : ∀ c, e.effect ≠ .store c) : (∃ c, d = .copied c) ∧ e = .kept := by
  cases does' with
  | wove => exact absurd rfl (unstored _)
  | resource => exact absurd rfl (unstored _)
  | copied => exact absurd rfl (unstored _)
  | kept action' =>
    cases does with
    | copied => exact ⟨⟨_, rfl⟩, rfl⟩
    | kept => cases stored
    | _ action => simp [action] at action'
  | removed action' | missed action' =>
    cases does with
    | removed => cases stored
    | missed => cases stored
    | _ action => simp [action] at action'

section Agreement
variable {b : Build} {t : FileTree} {l o : PlannedFile → Location} {s s₁ s₂ : Session}
  {one two : List (PlannedFile × Deed)} {items : List PlannedFile}

/-- The same files processed in two orders, from one state. -/
structure Orders (b : Build) (t : FileTree) (l o : PlannedFile → Location) (s s₁ s₂ : Session)
    (one two : List (PlannedFile × Deed)) : Prop where
  sound : s.tree.Sound
  same : (one.map Prod.fst).Perm (two.map Prod.fst)
  first : Executed b t l o s one s₁
  second : Executed b t l o s two s₂
  distinct : (one.map fun x => l x.1).Nodup
  guarded : ∀ x ∈ one.map Prod.fst, ∀ y ∈ one.map Prod.fst, x.action = .delete → l x <+: l y →
    l x ≠ l y → ∃ bytes, s.tree.find? (l x) = some (.file bytes)

namespace Orders

theorem symm (orders : Orders b t l o s s₁ s₂ one two) : Orders b t l o s s₂ s₁ two one where
  sound := orders.sound
  same := orders.same.symm
  first := orders.second
  second := orders.first
  distinct := by
    have mapped := (orders.same.map l).nodup_iff
    rw [List.map_map, List.map_map] at mapped
    exact mapped.mp orders.distinct
  guarded x inside y there := orders.guarded x (orders.same.mem_iff.mpr inside) y
    (orders.same.mem_iff.mpr there)

theorem orderly (orders : Orders b t l o s s₁ s₂ one two) :
    FileTree.Orderly s.tree (workOf l one) :=
  orders.first.orderly orders.distinct orders.guarded

theorem other (orders : Orders b t l o s s₁ s₂ one two) {item : PlannedFile} {deed : Deed}
    (inside : (item, deed) ∈ one) : ∃ deed', (item, deed') ∈ two := by
  have there := orders.same.mem_iff.mp (List.mem_map.mpr ⟨_, inside, rfl⟩)
  obtain ⟨⟨item', deed'⟩, member, rfl⟩ := List.mem_map.mp there
  exact ⟨deed', member⟩

theorem mem_work {item : PlannedFile} {deed : Deed} {done : List (PlannedFile × Deed)}
    (inside : (item, deed) ∈ done) : (l item, deed.effect) ∈ workOf l done :=
  List.mem_map.mpr ⟨_, inside, rfl⟩

/-- A file that was copied in one order but not in the other: its target was not there before the
work, and in the other order it came with a file stored below it. -/
theorem stored_below (orders : Orders b t l o s s₁ s₂ one two) {item : PlannedFile}
    {bytes : Bytes} (copied : (item, .copied bytes) ∈ one) (kept : (item, .kept) ∈ two) :
    b.config.copyUnchanged = .ifMissing ∧ ∃ x d c, (x, d) ∈ two ∧ d.effect = .store c ∧
      l item <+: l x ∧ l item ≠ l x := by
  obtain ⟨before, after, rfl⟩ := List.append_of_mem copied
  obtain ⟨before', after', rfl⟩ := List.append_of_mem kept
  obtain ⟨u, performed, does⟩ := orders.first.turn
  obtain ⟨u', performed', does'⟩ := orders.second.turn
  have orderly := orders.orderly
  rw [workOf, List.map_append, List.map_cons] at orderly
  cases does with
  | copied action policy read =>
    cases does' with
    | kept action' policy' =>
      rcases policy with always | ⟨missing, gone⟩
      · rcases policy' with never | ⟨missing, there⟩
        · rw [always] at never
          cases never
        · rw [always] at missing
          cases missing
      · rcases policy' with never | ⟨_, there⟩
        · rw [missing] at never
          cases never
        · have absent : s.tree.find? (l item) = none := by
            by_contra there'
            exact gone (FileTree.present_of_performed orders.sound orderly performed there')
          obtain ⟨x, inside, c, stored, below⟩ :=
            FileTree.stored_of_performed performed' absent there
          obtain ⟨⟨other, deed⟩, member, rfl⟩ := List.mem_map.mp inside
          refine ⟨missing, other, deed, c, List.mem_append_left _ member, stored, below, ?_⟩
          have distinct := orders.symm.distinct
          rw [List.map_append, List.nodup_append] at distinct
          exact (distinct.2.2 _ (List.mem_map.mpr ⟨_, member, rfl⟩) (l item) (by simp)).symm

/-- What is missing at its turn in one order is missing in the other. The deepest target first: it is
there only because something is stored below it, and that is stored in both orders. -/
theorem not_copied_and_kept (depth : Nat) (orders : Orders b t l o s s₁ s₂ one two)
    (bound : ∀ x ∈ one.map Prod.fst, (l x).length ≤ depth) {item : PlannedFile} {bytes : Bytes}
    (copied : (item, .copied bytes) ∈ one) (kept : (item, .kept) ∈ two) : False := by
  -- The orders change places at each step, which leads to a deeper target.
  induction left : depth - (l item).length using Nat.strongRecOn
    generalizing one two s₁ s₂ item bytes with
  | ind n ih =>
    obtain ⟨missing, x, d, c, inside, stored, below, strict⟩ := orders.stored_below copied kept
    obtain ⟨d', inside'⟩ := orders.symm.other inside
    have deeper : (l item).length < (l x).length := by
      refine lt_of_le_of_ne below.length_le fun same => strict (below.eq_of_length same)
    have within : (l x).length ≤ depth := bound x (List.mem_map.mpr ⟨_, inside', rfl⟩)
    have unstored : ∀ c', d'.effect ≠ .store c' := by
      intro c' stored'
      have one' := mem_work (l := l) copied
      have two' := mem_work (l := l) inside'
      rw [stored'] at two'
      exact strict (FileTree.stored_apart orders.sound orders.orderly orders.first.performed one'
        two' below)
    obtain ⟨_, does⟩ := orders.second.does_of_mem inside
    obtain ⟨_, does'⟩ := orders.first.does_of_mem inside'
    obtain ⟨⟨c', rfl⟩, rfl⟩ := does.copied_of_stored does' stored unstored
    exact ih (depth - (l x).length) (by omega) orders.symm
      (fun y there => bound y (orders.same.mem_iff.mpr there)) inside inside' rfl

/-- The same becomes of a file in both orders. -/
theorem agree (orders : Orders b t l o s s₁ s₂ one two) {item : PlannedFile} {d e : Deed}
    (inside : (item, d) ∈ one) (there : (item, e) ∈ two) : d = e := by
  obtain ⟨depth, bound⟩ := exists_bound (fun x => (l x).length) (one.map Prod.fst)
  have bound' := fun x there => bound x (orders.same.mem_iff.mpr there)
  have removed := FileTree.remove_iff orders.sound orders.orderly orders.first.performed
    (mem_work inside)
  have removed' := FileTree.remove_iff orders.sound orders.symm.orderly orders.second.performed
    (mem_work there)
  obtain ⟨_, does⟩ := orders.first.does_of_mem inside
  obtain ⟨_, does'⟩ := orders.second.does_of_mem there
  cases does with
  | wove action kind read woven =>
    cases does' with
    | wove _ _ read' woven' =>
      obtain rfl := Option.some.inj (read.symm.trans read')
      obtain rfl := Except.ok.inj (woven.symm.trans woven')
      rfl
    | resource _ kind' => exact absurd kind kind'
    | _ action' => simp [action] at action'
  | resource action kind read =>
    cases does' with
    | wove _ kind' => exact absurd kind' kind
    | resource _ _ read' =>
      obtain rfl := Option.some.inj (read.symm.trans read')
      rfl
    | _ action' => simp [action] at action'
  | copied action _ read =>
    cases does' with
    | copied _ _ read' =>
      obtain rfl := Option.some.inj (read.symm.trans read')
      rfl
    | kept => exact (orders.not_copied_and_kept depth bound inside there).elim
    | _ action' => simp [action] at action'
  | kept action =>
    cases does' with
    | copied => exact (orders.symm.not_copied_and_kept depth bound' there inside).elim
    | kept => rfl
    | _ action' => simp [action] at action'
  | removed action =>
    cases does' with
    | removed => rfl
    | missed => exact absurd ((removed' rfl).mpr ((removed rfl).mp rfl)) nofun
    | _ action' => simp [action] at action'
  | missed action =>
    cases does' with
    | missed => rfl
    | removed => exact absurd ((removed rfl).mpr ((removed' rfl).mp rfl)) nofun
    | _ action' => simp [action] at action'

/-- Both orders do the same work. -/
theorem perm (orders : Orders b t l o s s₁ s₂ one two) : one.Perm two := by
  have distinct := List.Nodup.of_map _ orders.distinct
  have distinct' := List.Nodup.of_map _ orders.symm.distinct
  rw [List.perm_ext_iff_of_nodup distinct distinct']
  rintro ⟨item, deed⟩
  constructor
  · intro inside
    obtain ⟨deed', there⟩ := orders.other inside
    rwa [orders.agree inside there]
  · intro inside
    obtain ⟨deed', there⟩ := orders.symm.other inside
    rwa [orders.symm.agree inside there]

theorem ledger (orders : Orders b t l o s s₁ s₂ one two) : s₁.ledger = s₂.ledger := by
  rw [orders.first.ledger, orders.second.ledger]
  exact orders.perm.foldl_eq' (fun x _ y _ ledger => note_comm y.2 x.2 ledger) s.ledger

theorem files (orders : Orders b t l o s s₁ s₂ one two) (m : Location) :
    s₁.tree.fileAt m = s₂.tree.fileAt m := by
  have same : (workOf l one).Perm (workOf l two) := orders.perm.map _
  refine Option.ext fun bytes => ?_
  rw [FileTree.fileAt_eq_some_iff, FileTree.fileAt_eq_some_iff,
    FileTree.performed_files orders.sound orders.orderly orders.first.performed,
    FileTree.performed_files orders.sound orders.symm.orderly orders.second.performed]
  simp only [same.mem_iff]

end Orders
end Agreement

def namesBelow (base p : Path) : List String :=
  (p.components.drop base.components.length).filterMap segment?

theorem namesBelow_eq {base p : Path} {ns : List String}
    (spelled : p.components = base.components ++ named ns) : namesBelow base p = ns := by
  unfold namesBelow
  rw [spelled, List.drop_left, Path.filterMap_named]

/-- Where a target stands, if its destination stands at the location. -/
def placeOf (area : Location) (destination target : Path) : Location :=
  area ++ namesBelow destination target

theorem placeOf_eq {area : Location} {destination target : Path} {ns : List String}
    (spelled : target.components = destination.components ++ named ns) :
    placeOf area destination target = area ++ ns := by
  unfold placeOf
  rw [namesBelow_eq spelled]

section Planned
variable {mode : BuildMode} {d : DirectoryInput} {destination : Path} {area : Location}
  {s s' : Session} {files : List (Path × Action)} {planned : List PlannedFile}

theorem Plans.target {t : FileTree} {zone : Location} (worked : work mode d s = .ok files s')
    (plans : Plans d destination s files planned) (leads : t.Leads zone destination area)
    (within : zone <+: area) {x : PlannedFile} (inside : x ∈ planned) :
    t.Target zone x.target (placeOf area destination x.target) ∧
      FileTree.EndsNamed x.target.segments := by
  obtain ⟨ns, more, _, spelled, ends⟩ := plans.spelled worked inside
  rw [placeOf_eq spelled]
  exact ⟨.of_leads leads within more spelled, ends⟩

theorem Plans.nodup (worked : work mode d s = .ok files s')
    (plans : Plans d destination s files planned) :
    (planned.map fun x => placeOf area destination x.target).Nodup := by
  refine List.pairwise_map.mpr (plans.distinct.imp_of_mem fun {x y} inside there apart same => ?_)
  obtain ⟨ns, _, _, spelled, _⟩ := plans.spelled worked inside
  obtain ⟨ms, _, _, spelled', _⟩ := plans.spelled worked there
  rw [placeOf_eq spelled, placeOf_eq spelled'] at same
  rw [spelled, spelled', List.append_cancel_left same] at apart
  exact apart rfl

theorem Plans.startsWith (worked : work mode d s = .ok files s')
    (plans : Plans d destination s files planned) {x y : PlannedFile} (inside : x ∈ planned)
    (there : y ∈ planned)
    (above : placeOf area destination x.target <+: placeOf area destination y.target) :
    y.target.startsWith x.target = true := by
  obtain ⟨ns, _, _, spelled, _⟩ := plans.spelled worked inside
  obtain ⟨ms, _, _, spelled', _⟩ := plans.spelled worked there
  rw [placeOf_eq spelled, placeOf_eq spelled', List.prefix_append_right_inj] at above
  exact Path.startsWith_of_names spelled' spelled above

end Planned

/-- Planned files that may be processed in any order: each has a target of its own, what is to be
deleted above another target is a file, and no file is read where targets are. -/
structure Ready (t : FileTree) (area : Location) (l o : PlannedFile → Location)
    (planned : List PlannedFile) : Prop where
  sound : t.Sound
  linkless : ∀ m, area <+: m → ∀ target, t.find? m ≠ some (.link target)
  targets : ∀ x ∈ planned, t.Target area x.target (l x) ∧ FileTree.EndsNamed x.target.segments
  reads : ∀ x ∈ planned, x.action ≠ .delete → t.ReadsAt area x.file (o x)
  distinct : (planned.map l).Nodup
  guarded : ∀ x ∈ planned, ∀ y ∈ planned, x.action = .delete → l x <+: l y → l x ≠ l y →
    ∃ bytes, t.find? (l x) = some (.file bytes)

namespace Ready
variable {b : Build} {area : Location} {l o : PlannedFile → Location} {s s₁ s₂ : Session}
  {planned one two : List PlannedFile}

theorem within (ready : Ready s.tree area l o planned) : FileTree.Within area s.tree s.tree :=
  .refl ready.sound ready.linkless

theorem reorder (ready : Ready s.tree area l o planned) (order : one.Perm planned) :
    Ready s.tree area l o one where
  sound := ready.sound
  linkless := ready.linkless
  targets x inside := ready.targets x (order.mem_iff.mp inside)
  reads x inside := ready.reads x (order.mem_iff.mp inside)
  distinct := (order.map l).nodup_iff.mpr ready.distinct
  guarded x inside y there := ready.guarded x (order.mem_iff.mp inside) y (order.mem_iff.mp there)

theorem execute (ready : Ready s.tree area l o planned) {items : List PlannedFile}
    (part : items ⊆ planned) {v : Session} (within : FileTree.Within area s.tree v.tree)
    (run : items.forM b.processItem v = .ok () s₁) : ∃ done, done.map Prod.fst = items ∧
      Executed b s.tree l o v done s₁ ∧ FileTree.Within area s.tree s₁.tree :=
  executed_of_run ready.sound within (fun x inside => ready.targets x (part inside))
    (fun x inside => ready.reads x (part inside)) run

theorem orderly (ready : Ready s.tree area l o planned) {done : List (PlannedFile × Deed)}
    (all : done.map Prod.fst = planned) (executed : Executed b s.tree l o s done s₁) :
    FileTree.Orderly s.tree (workOf l done) := by
  refine executed.orderly ?_ (by rw [all]; exact ready.guarded)
  have distinct := ready.distinct
  rwa [← all, List.map_map] at distinct

theorem orders (ready : Ready s.tree area l o planned) (first : one.Perm planned)
    (second : two.Perm planned) (run₁ : one.forM b.processItem s = .ok () s₁)
    (run₂ : two.forM b.processItem s = .ok () s₂) :
    ∃ done done', Orders b s.tree l o s s₁ s₂ done done' := by
  have ready₁ := ready.reorder first
  obtain ⟨done, same, executed, _⟩ := ready₁.execute (List.Subset.refl _) ready.within run₁
  obtain ⟨done', same', executed', _⟩ :=
    (ready.reorder second).execute (List.Subset.refl _) ready.within run₂
  have distinct := ready₁.distinct
  rw [← same, List.map_map] at distinct
  exact ⟨done, done', ready.sound, by rw [same, same']; exact first.trans second.symm, executed,
    executed', distinct, by rw [same]; exact ready₁.guarded⟩

theorem kept {before after : List PlannedFile} {x : PlannedFile} {u : Session} {bytes : Bytes}
    (ready : Ready s.tree area l o (before ++ x :: after))
    (run : (before ++ x :: after).forM b.processItem s = .ok () s₁)
    (turn : (before ++ [x]).forM b.processItem s = .ok () u)
    (read : u.tree.readFile x.target = .ok bytes) : s₁.tree.readFile x.target = .ok bytes := by
  rw [List.append_cons, forM_append_ok_iff] at run
  obtain ⟨u', turn', late⟩ := run
  obtain rfl : u' = u := by
    rw [turn'] at turn
    cases turn
    rfl
  obtain ⟨earlier, sameEarlier, head, inner⟩ :=
    ready.execute (fun y inside => by simp at inside ⊢; tauto) ready.within turn'
  obtain ⟨later, sameLater, tail, inner'⟩ :=
    ready.execute (fun y inside => by simp [inside]) inner late
  have whole : (earlier ++ later).map Prod.fst = before ++ x :: after := by
    rw [List.map_append, sameEarlier, sameLater, List.append_assoc]
    rfl
  have orderly := ready.orderly whole (head.append tail)
  rw [workOf, List.map_append] at orderly
  obtain ⟨target, ends⟩ := ready.targets x (by simp)
  rw [target.readFile_iff ready.sound inner ends] at read
  rw [target.readFile_iff ready.sound inner' ends]
  have there : x ∈ earlier.map Prod.fst := by simp [sameEarlier]
  obtain ⟨⟨y, deed⟩, held, rfl⟩ := List.mem_map.mp there
  exact FileTree.kept_of_performed ready.sound orderly head.performed tail.performed
    (Orders.mem_work held) read

end Ready

/-- The planned files of a directory may be processed in any order: the same files are left with the
same bytes, and the same is reported. What stands at a target after its turn stands there at the end.
-/
theorem orders_agree {b : Build} {mode : BuildMode} {d : DirectoryInput} {destination : Path}
    {area : Location} {s s₀ s₁ s₂ : Session} {planned one two : List PlannedFile}
    (plan : schedule mode d destination s = .ok planned s₀) (sound : s.tree.Sound)
    (leads : s.tree.Leads area destination area)
    (linkless : ∀ l, area <+: l → ∀ target, s.tree.find? l ≠ some (.link target))
    (apart : ∀ x ∈ planned, x.action ≠ .delete → ∃ o, s.tree.ReadsAt area x.file o)
    (guarded : ∀ x ∈ planned, ∀ y ∈ planned, x ≠ y → x.action = .delete →
      y.target.startsWith x.target = true → ∃ bytes, s.tree.readFile x.target = .ok bytes)
    (first : one.Perm planned) (second : two.Perm planned)
    (run₁ : one.forM b.processItem s₀ = .ok () s₁)
    (run₂ : two.forM b.processItem s₀ = .ok () s₂) :
    (∀ l, s₁.tree.fileAt l = s₂.tree.fileAt l) ∧ s₁.ledger.report = s₂.ledger.report ∧
      ∀ before x after u, one = before ++ x :: after →
        (before ++ [x]).forM b.processItem s₀ = .ok () u →
        ∀ bytes, u.tree.readFile x.target = .ok bytes → s₁.tree.readFile x.target = .ok bytes := by
  obtain ⟨files, worked, plans, taken⟩ := schedule_ok_iff.mp plan
  have tree : s₀.tree = s.tree := by rw [taken]
  choose! o reads using apart
  have targets := fun x inside => plans.target worked leads (List.prefix_refl area) (x := x) inside
  have ready : Ready s₀.tree area (fun x => placeOf area destination x.target) o planned := by
    rw [tree]
    refine ⟨sound, linkless, targets, reads, plans.nodup worked,
      fun x inside y there delete above strict => ?_⟩
    obtain ⟨bytes, read⟩ := guarded x inside y there (by rintro rfl; exact strict rfl) delete
      (plans.startsWith worked inside there above)
    obtain ⟨target, ends⟩ := targets x inside
    exact ⟨bytes, (target.readFile_iff sound (.refl sound linkless) ends).mp read⟩
  obtain ⟨done, done', orders⟩ := ready.orders first second run₁ run₂
  refine ⟨orders.files, congrArg Ledger.report orders.ledger, ?_⟩
  rintro before x after u rfl turn bytes read
  exact (ready.reorder first).kept run₁ turn read

def hookless (policy : CopyPolicy) : Build :=
  ⟨⟨fun name _ => .ok (.parse ("out/" ++ name)), some (.parse "out")⟩, .empty, .default,
    ⟨false, policy⟩⟩

def directoryWith (root : String) (changes : List (String × ChangeStatus)) : DirectoryInput :=
  ⟨root, .parse root, changes.map fun c => (.parse c.1, c.2)⟩

def workspace (entries : List (Location × Entry)) : FileTree :=
  ⟨(["w"], .directory) :: entries.map fun e => ("w" :: e.1, e.2), ["w"]⟩

def finish (b : Build) (planned : List PlannedFile) (s : Session) : Option Session :=
  match planned.forM b.processItem s with
  | .ok _ s' => some s'
  | .error _ _ => none

theorem finish_eq_some_iff {b : Build} {planned : List PlannedFile} {s s' : Session} :
    b.finish planned s = some s' ↔ planned.forM b.processItem s = .ok () s' := by
  unfold finish
  cases planned.forM b.processItem s <;> simp

theorem orders_agree_replaced : ∃ x y z s₀ s₁ s₂,
    schedule .incremental
      (directoryWith "in" [("a", .removed), ("a/b", .addedOrChanged), ("c", .addedOrChanged)])
      (.parse "out")
      ⟨workspace [(["in"], .directory), (["in", "a"], .directory), (["in", "a", "b"], .file [1]),
        (["in", "c"], .file [2]), (["out"], .directory), (["out", "a"], .file [3])],
        .start .incremental, []⟩ = .ok [x, y, z] s₀ ∧
    [x, y, z].forM (hookless .ifMissing).processItem s₀ = .ok () s₁ ∧
    [z, x, y].forM (hookless .ifMissing).processItem s₀ = .ok () s₂ ∧
    (∀ l, s₁.tree.fileAt l = s₂.tree.fileAt l) ∧ s₁.ledger.report = s₂.ledger.report := by
  let t := workspace [(["in"], .directory), (["in", "a"], .directory),
    (["in", "a", "b"], .file [1]), (["in", "c"], .file [2]), (["out"], .directory),
    (["out", "a"], .file [3])]
  let x : PlannedFile := ⟨⟨false, ["in", "a"]⟩, ⟨false, ["out", "a"]⟩, .delete⟩
  let y : PlannedFile := ⟨⟨false, ["in", "a", "b"]⟩, ⟨false, ["out", "a", "b"]⟩, .weave⟩
  let z : PlannedFile := ⟨⟨false, ["in", "c"]⟩, ⟨false, ["out", "c"]⟩, .weave⟩
  let s₀ : Session := ⟨t, ⟨[z.target, y.target, x.target], .start .incremental⟩, []⟩
  have plan : schedule .incremental
      (directoryWith "in" [("a", .removed), ("a/b", .addedOrChanged), ("c", .addedOrChanged)])
      (.parse "out") ⟨t, .start .incremental, []⟩ = .ok [x, y, z] s₀ := by cbv
  have sound : t.Sound := by decide
  have none : ∀ l target, t.find? l ≠ some (.link target) :=
    FileTree.linkless_of_entries (by decide)
  have spelled : (Path.parse "out").components = named ["out"] := by decide
  have leads : t.Leads ["w", "out"] (.parse "out") ["w", "out"] :=
    FileTree.leads_of_named spelled (by decide) none
  have first : (t.eraseTree ["w", "out"]).entry y.file = .ok (["w", "in", "a", "b"], .file [1]) := by
    cbv
  have second : (t.eraseTree ["w", "out"]).entry z.file = .ok (["w", "in", "c"], .file [2]) := by
    cbv
  have apart : ∀ v ∈ [x, y, z], v.action ≠ .delete → ∃ o, t.ReadsAt ["w", "out"] v.file o := by
    intro v inside change
    simp only [List.mem_cons, List.not_mem_nil, or_false] at inside
    rcases inside with rfl | rfl | rfl
    · exact absurd rfl change
    · exact ⟨_, FileTree.readsAt_of_entry sound first⟩
    · exact ⟨_, FileTree.readsAt_of_entry sound second⟩
  have guarded : ∀ v ∈ [x, y, z], ∀ w ∈ [x, y, z], v ≠ w → v.action = .delete →
      w.target.startsWith v.target = true → ∃ bytes, t.readFile v.target = .ok bytes := by
    intro v inside w _ _ delete _
    simp only [List.mem_cons, List.not_mem_nil, or_false] at inside
    rcases inside with rfl | rfl | rfl
    · exact ⟨[3], by cbv⟩
    · cases delete
    · cases delete
  obtain ⟨s₁, one⟩ : ∃ s₁, (hookless .ifMissing).finish [x, y, z] s₀ = some s₁ :=
    Option.isSome_iff_exists.mp (by cbv)
  obtain ⟨s₂, two⟩ : ∃ s₂, (hookless .ifMissing).finish [z, x, y] s₀ = some s₂ :=
    Option.isSome_iff_exists.mp (by cbv)
  have run₁ := finish_eq_some_iff.mp one
  have run₂ := finish_eq_some_iff.mp two
  have agree := orders_agree plan sound leads (fun l _ => none l) apart guarded (.refl _)
    (by decide) run₁ run₂
  exact ⟨x, y, z, s₀, s₁, s₂, plan, run₁, run₂, agree.1, agree.2.1⟩

/-- Two planned files are left differently by their two orders, though both complete. -/
def Disagree (b : Build) (d : DirectoryInput) (destination : Path) (t : FileTree)
    (seen : Session → α) : Prop :=
  ∃ x y s₀ s₁ s₂, schedule .incremental d destination ⟨t, .start .incremental, []⟩ = .ok [x, y] s₀ ∧
    [x, y].forM b.processItem s₀ = .ok () s₁ ∧ [y, x].forM b.processItem s₀ = .ok () s₂ ∧
    seen s₁ ≠ seen s₂

def disagrees [DecidableEq α] (b : Build) (d : DirectoryInput) (destination : Path) (t : FileTree)
    (seen : Session → α) : Bool :=
  match schedule .incremental d destination ⟨t, .start .incremental, []⟩ with
  | .ok [x, y] s₀ =>
    match b.finish [x, y] s₀, b.finish [y, x] s₀ with
    | some s₁, some s₂ => seen s₁ ≠ seen s₂
    | _, _ => false
  | _ => false

theorem disagree_of_disagrees [DecidableEq α] {b : Build} {d : DirectoryInput} {destination : Path}
    {t : FileTree} {seen : Session → α} (told : b.disagrees d destination t seen = true) :
    b.Disagree d destination t seen := by
  unfold disagrees at told
  split at told
  · rename_i x y s₀ plan
    split at told
    · rename_i s₁ s₂ one two
      exact ⟨x, y, s₀, s₁, s₂, plan, finish_eq_some_iff.mp one, finish_eq_some_iff.mp two,
        of_decide_eq_true told⟩
    · cases told
  · cases told

/-- What the theorem above asks for is needed. A removal takes away what was written below its
target; a link joins two targets; a file is read that is written as well; and a destination that is
spelled through itself is there only after some of the work. -/
theorem orders_disagree :
    (hookless .ifMissing).Disagree
        (directoryWith "/w/in" [("/w/in/a/b", .addedOrChanged), ("a", .removed)]) (.parse "out")
        (workspace [(["in"], .directory), (["in", "a"], .directory),
          (["in", "a", "b"], .file [1])])
        (·.tree.fileAt ["w", "out", "a", "b"]) ∧
      (hookless .ifMissing).Disagree
        (directoryWith "in" [("l/a", .addedOrChanged), ("m/a", .addedOrChanged)]) (.parse "out")
        (workspace [(["in"], .directory), (["in", "l"], .directory), (["in", "l", "a"], .file [1]),
          (["in", "m"], .directory), (["in", "m", "a"], .file [2]), (["out"], .directory),
          (["out", "m"], .directory), (["out", "l"], .link (.parse "m"))])
        (·.tree.fileAt ["w", "out", "m", "a"]) ∧
      (hookless .ifMissing).Disagree
        (directoryWith "in" [("a", .addedOrChanged), ("out/a", .addedOrChanged)]) (.parse "in/out")
        (workspace [(["in"], .directory), (["in", "a"], .file [1]), (["in", "out"], .directory),
          (["in", "out", "a"], .file [2])])
        (·.tree.fileAt ["w", "in", "out", "out", "a"]) ∧
      (hookless .ifMissing).Disagree
        (directoryWith "in" [("a", .addedOrChanged), ("x", .removed)]) (.parse "out/x/..")
        (workspace [(["in"], .directory), (["in", "a"], .file [1])])
        (·.ledger.report.outputsDeleted) := by
  refine ⟨disagree_of_disagrees ?_, disagree_of_disagrees ?_, disagree_of_disagrees ?_,
    disagree_of_disagrees ?_⟩ <;> cbv

end Build
end ClassHooks
