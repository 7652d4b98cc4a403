import ClassHooks.Proofs.Build.Mirroring

/-!
The keys of a change map. They are in the order of paths; where they are spelled alike, a file comes
before what stands below it.
-/
namespace ClassHooks

open ClassHooks.Path (named)

namespace ChangeMap

def Sorted (changes : ChangeMap) : Prop :=
  changes.Pairwise fun x y => x.1.compare y.1 = .lt

instance {changes : ChangeMap} : Decidable changes.Sorted :=
  inferInstanceAs (Decidable (changes.Pairwise _))

end ChangeMap

namespace Build

def Spelled (d : DirectoryInput) : Prop :=
  ∀ c ∈ d.changes, ∃ ns, ns ≠ [] ∧ (d.root.join c.1).components = d.root.components ++ named ns

instance {d : DirectoryInput} : Decidable (Spelled d) :=
  decidable_of_iff (∀ c ∈ d.changes, namesBelow d.root (d.root.join c.1) ≠ [] ∧
      (d.root.join c.1).components =
        d.root.components ++ named (namesBelow d.root (d.root.join c.1)))
    ⟨fun each c inside => ⟨_, each c inside⟩, fun spelled c inside => by
      obtain ⟨ns, more, names⟩ := spelled c inside
      rw [namesBelow_eq names]
      exact ⟨more, names⟩⟩

/-- The changes name each file once, by a path of a file, and no removal comes behind a change below
it. -/
structure Plannable (d : DirectoryInput) : Prop where
  spelled : Spelled d
  ends : ∀ c ∈ d.changes, FileTree.EndsNamed (d.root.join c.1).segments
  distinct : d.changes.Pairwise fun x y =>
    (d.root.join x.1).components ≠ (d.root.join y.1).components
  ordered : d.changes.Pairwise fun x y => x.2 = .addedOrChanged → y.2 = .removed →
    (d.root.join x.1).startsWith (d.root.join y.1) = false

theorem Plannable.of_sorted {d : DirectoryInput} (front : List Component)
    (spelled : Spelled d) (ends : ∀ c ∈ d.changes, FileTree.EndsNamed (d.root.join c.1).segments)
    (alike : ∀ c ∈ d.changes, (d.root.join c.1).components = front ++ c.1.components)
    (sorted : d.changes.Sorted) : Plannable d := by
  have apart : d.changes.Pairwise fun x y =>
      (d.root.join x.1).startsWith (d.root.join y.1) = false := by
    refine sorted.imp_of_mem fun {x y} inside there before => ?_
    rw [Bool.eq_false_iff]
    intro above
    rw [Path.startsWith_iff, alike x inside, alike y there, List.prefix_append_right_inj] at above
    obtain ⟨more, whole⟩ := above
    unfold Path.compare at before
    rw [← whole] at before
    exact Path.compareComponents_append _ more before
  refine ⟨spelled, ends, apart.imp fun other same => ?_, apart.imp fun other _ _ => other⟩
  rw [← Bool.not_eq_true] at other
  refine other (Path.startsWith_iff.mpr ?_)
  rw [same]

def marksOf (d : DirectoryInput) : List (List String × ChangeStatus) :=
  d.changes.map fun c => (namesBelow d.root (d.root.join c.1), c.2)

theorem marks_iff {d : DirectoryInput} (spelled : Spelled d) {ns : List String}
    {status : ChangeStatus} : (Input.directory d).Marks ns status ↔ (ns, status) ∈ marksOf d := by
  constructor
  · intro marks
    cases marks with
    | file there more names =>
      refine List.mem_map.mpr ⟨_, there, ?_⟩
      dsimp only
      rw [namesBelow_eq names]
  · intro inside
    obtain ⟨c, there, same⟩ := List.mem_map.mp inside
    cases same
    obtain ⟨ns, more, names⟩ := spelled c there
    rw [namesBelow_eq names]
    exact .file there more names

end Build
end ClassHooks
