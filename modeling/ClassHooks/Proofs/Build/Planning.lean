import ClassHooks.Proofs.Build.Items
import ClassHooks.Proofs.Files.Listing

/-!
The plan for a directory: its files with their actions and targets. No two targets are the same, and
none was taken before; planning changes nothing but the targets that are taken.
-/
namespace ClassHooks

open ClassHooks.Path (named)

def Ledger.taking (l : Ledger) (paths : List Path) : Ledger :=
  { l with claimed := paths.reverse ++ l.claimed }

theorem Ledger.taking_cons (l : Ledger) (path : Path) (paths : List Path) :
    l.taking (path :: paths) = (l.taking [path]).taking paths := by
  simp [taking]

namespace RunM
variable {s s' : Session}

theorem claim_ok_iff {path : Path} {done : Unit} : claim path s = .ok done s' ↔
    (∀ c ∈ s.ledger.claimed, c.components ≠ path.components) ∧
      s' = { s with ledger := s.ledger.taking [path] } := by
  have free : s.ledger.claimed.any (·.sameAs path) = false ↔
      ∀ c ∈ s.ledger.claimed, c.components ≠ path.components := by
    simp [Path.sameAs]
  rw [← free]
  unfold claim
  rw [state_bind_ok_iff]
  constructor
  · rintro ⟨_, s₁, got, run⟩
    cases got
    obtain ⟨ledger, s₂, lifted, run⟩ := state_bind_ok_iff.mp run
    obtain ⟨claimed, rfl⟩ := lift_ok_iff.mp lifted
    unfold Ledger.claim at claimed
    split at claimed
    · cases claimed
    · rename_i unclaimed
      cases claimed
      cases run
      exact ⟨by simpa using unclaimed, rfl⟩
  · rintro ⟨unclaimed, rfl⟩
    refine ⟨s, s, rfl, state_bind_ok_iff.mpr ⟨_, s, lift_ok_iff.mpr ⟨?_, rfl⟩, rfl⟩⟩
    unfold Ledger.claim
    rw [unclaimed]
    rfl

end RunM

namespace Build

/-- A plan for these files that takes its targets. -/
structure Plans (d : DirectoryInput) (destination : Path) (s : Session)
    (files : List (Path × Action)) (items : List PlannedFile) : Prop where
  targets : List.Forall₂ (fun f (item : PlannedFile) => item.file = f.1 ∧ item.action = f.2 ∧
    counterpart d.root destination f.1 = .ok item.target) files items
  fresh : ∀ item ∈ items, ∀ c ∈ s.ledger.claimed, c.components ≠ item.target.components
  distinct : items.Pairwise fun x y => x.target.components ≠ y.target.components

section Plan
variable {d : DirectoryInput} {destination : Path} {s s' : Session}

theorem plan_ok_iff {file : Path} {action : Action} {item : PlannedFile} :
    plan d destination file action s = .ok item s' ↔
      (item.file = file ∧ item.action = action ∧
        counterpart d.root destination file = .ok item.target) ∧
      (∀ c ∈ s.ledger.claimed, c.components ≠ item.target.components) ∧
      s' = { s with ledger := s.ledger.taking [item.target] } := by
  unfold plan
  rw [state_bind_ok_iff]
  constructor
  · rintro ⟨target, s₁, lifted, run⟩
    obtain ⟨goes, rfl⟩ := RunM.lift_ok_iff.mp lifted
    obtain ⟨_, s₂, claimed, run⟩ := state_bind_ok_iff.mp run
    obtain ⟨free, rfl⟩ := RunM.claim_ok_iff.mp claimed
    cases run
    exact ⟨⟨rfl, rfl, goes⟩, free, rfl⟩
  · rintro ⟨⟨rfl, rfl, goes⟩, free, rfl⟩
    exact ⟨_, s, RunM.lift_ok_iff.mpr ⟨goes, rfl⟩,
      state_bind_ok_iff.mpr ⟨(), _, RunM.claim_ok_iff.mpr ⟨free, rfl⟩, rfl⟩⟩

theorem plans_ok_iff {files : List (Path × Action)} {items : List PlannedFile} :
    (files.mapM fun f => plan d destination f.1 f.2) s = .ok items s' ↔
      Plans d destination s files items ∧
        s' = { s with ledger := s.ledger.taking (items.map PlannedFile.target) } := by
  induction files generalizing items s s' with
  | nil =>
    constructor
    · intro run
      cases run
      exact ⟨⟨.nil, by simp, .nil⟩, rfl⟩
    · rintro ⟨plans, rfl⟩
      cases plans.targets
      rfl
  | cons f files ih =>
    rw [List.mapM_cons, state_bind_ok_iff]
    constructor
    · rintro ⟨item, s₁, first, run⟩
      obtain ⟨goes, free, rfl⟩ := plan_ok_iff.mp first
      obtain ⟨rest, s₂, others, run⟩ := state_bind_ok_iff.mp run
      obtain ⟨plans, rfl⟩ := ih.mp others
      cases run
      have apart : ∀ other ∈ rest, item.target.components ≠ other.target.components :=
        fun other inside => plans.fresh other inside item.target (by simp [Ledger.taking])
      refine ⟨⟨.cons goes plans.targets, ?_, .cons apart plans.distinct⟩, ?_⟩
      · intro other inside c taken
        rcases List.mem_cons.mp inside with rfl | inside
        · exact free c taken
        · exact plans.fresh other inside c (by simp [Ledger.taking, taken])
      · simp [Ledger.taking]
    · rintro ⟨⟨targets, fresh, distinct⟩, rfl⟩
      cases targets with
      | @cons _ item _ rest goes others =>
        have apart := List.pairwise_cons.mp distinct
        rw [List.map_cons, Ledger.taking_cons]
        refine ⟨item, _, plan_ok_iff.mpr ⟨goes, fresh item (by simp), rfl⟩,
          state_bind_ok_iff.mpr ⟨rest, _, ih.mpr ⟨⟨others, ?_, apart.2⟩, rfl⟩, rfl⟩⟩
        intro other inside c taken
        rcases List.mem_cons.mp taken with rfl | taken
        · exact apart.1 other inside
        · exact fresh other (by simp [inside]) c taken

theorem work_incremental_ok_iff {files : List (Path × Action)} :
    work .incremental d s = .ok files s' ↔
      files = d.changes.map (fun change =>
        (d.root.join change.1, Action.decide change.2 .incremental)) ∧ s' = s := by
  change EStateM.Result.ok _ s = _ ↔ _
  rw [EStateM.Result.ok.injEq, eq_comm, @eq_comm _ s]

theorem work_full_ok_iff {files : List (Path × Action)} :
    work .full d s = .ok files s' ↔
      ∃ listed, s.tree.listFiles d.root = .ok listed ∧
        files = listed.map (fun file => (file, Action.weave)) ∧ s' = s := by
  change (RunM.lift _ >>= _) s = _ ↔ _
  rw [state_bind_ok_iff]
  constructor
  · rintro ⟨listed, s₁, lifted, run⟩
    obtain ⟨ran, rfl⟩ := RunM.lift_ok_iff.mp lifted
    cases run
    exact ⟨listed, ran, rfl, rfl⟩
  · rintro ⟨listed, ran, rfl, rfl⟩
    exact ⟨listed, s', RunM.lift_ok_iff.mpr ⟨ran, rfl⟩, rfl⟩

theorem listed_under {t : FileTree} {root : Path} {listed : List Path}
    (run : t.listFiles root = .ok listed) : ∀ p ∈ listed, p.startsWith root = true := by
  obtain ⟨files, walked, sorted⟩ := bind_ok_iff.mp run
  cases sorted
  intro p inside
  rw [List.mem_mergeSort] at inside
  refine FileTree.listFrom_closed (P := fun p => p.startsWith root = true) (fun p n below => ?_)
    walked (fun p start => ?_) p inside
  · have further := Path.startsWith_join p (q := ⟨false, [n]⟩) rfl
    rw [Path.startsWith_iff] at below further ⊢
    exact below.trans further
  · obtain rfl : p = root := by simpa using start
    exact Path.startsWith_iff.mpr (List.prefix_refl _)

theorem work_under {mode : BuildMode} {files : List (Path × Action)}
    (run : work mode d s = .ok files s') :
    s' = s ∧ ∀ f ∈ files, f.1.absolute = true ∨ f.1.startsWith d.root = true := by
  cases mode with
  | incremental =>
    obtain ⟨rfl, rfl⟩ := work_incremental_ok_iff.mp run
    refine ⟨rfl, fun f inside => ?_⟩
    obtain ⟨⟨key, status⟩, _, rfl⟩ := List.mem_map.mp inside
    cases absolute : key.absolute with
    | true =>
      left
      unfold Path.join
      rw [if_pos absolute, absolute]
    | false => exact .inr (Path.startsWith_join d.root absolute)
  | full =>
    obtain ⟨listed, ran, rfl, rfl⟩ := work_full_ok_iff.mp run
    refine ⟨rfl, fun f inside => ?_⟩
    obtain ⟨file, there, rfl⟩ := List.mem_map.mp inside
    exact .inr (listed_under ran file there)

def schedule (mode : BuildMode) (d : DirectoryInput) (destination : Path) :
    RunM (List PlannedFile) := do
  let files ← work mode d
  files.mapM fun f => plan d destination f.1 f.2

theorem processDirectory_ok_iff {b : Build} {mode : BuildMode} {done : Unit} :
    b.processDirectory mode d destination s = .ok done s' ↔
      ∃ planned s₀, schedule mode d destination s = .ok planned s₀ ∧
        planned.forM b.processItem s₀ = .ok done s' := by
  unfold processDirectory schedule
  simp only [state_bind_ok_iff]
  constructor
  · rintro ⟨files, s₁, first, planned, s₀, plans, run⟩
    exact ⟨planned, s₀, ⟨files, s₁, first, plans⟩, run⟩
  · rintro ⟨planned, s₀, ⟨files, s₁, first, plans⟩, run⟩
    exact ⟨files, s₁, first, planned, s₀, plans, run⟩

theorem schedule_ok_iff {mode : BuildMode} {planned : List PlannedFile} :
    schedule mode d destination s = .ok planned s' ↔ ∃ files, work mode d s = .ok files s ∧
      Plans d destination s files planned ∧
      s' = { s with ledger := s.ledger.taking (planned.map PlannedFile.target) } := by
  unfold schedule
  rw [state_bind_ok_iff]
  constructor
  · rintro ⟨files, s₁, worked, planned⟩
    obtain ⟨rfl, -⟩ := work_under worked
    obtain ⟨plans, rfl⟩ := plans_ok_iff.mp planned
    exact ⟨files, worked, plans, rfl⟩
  · rintro ⟨files, worked, plans, rfl⟩
    exact ⟨files, s, worked, plans_ok_iff.mpr ⟨plans, rfl⟩⟩

theorem Plans.spelled {mode : BuildMode} {files : List (Path × Action)} {planned : List PlannedFile}
    (worked : work mode d s = .ok files s') (plans : Plans d destination s files planned)
    {x : PlannedFile} (inside : x ∈ planned) :
    ∃ ns, ns ≠ [] ∧ x.file.components = d.root.components ++ named ns ∧
      x.target.components = destination.components ++ named ns ∧
      FileTree.EndsNamed x.target.segments := by
  obtain ⟨f, there, file, _, goes⟩ := related_of_mem_right plans.targets inside
  rw [file]
  exact counterpart_spelled ((work_under worked).2 f there) goes

end Plan
end Build
end ClassHooks
