import ClassHooks.Build.Input
import ClassHooks.Proofs.Files.Components
import ClassHooks.Proofs.Success

/-!
Where the files of a directory go: a file that stands below the root of its input by some names goes
below the destination by the same names.
-/
namespace ClassHooks

open ClassHooks.Path (named Trimmed)

namespace Path

theorem endsNamed_join (p : Path) {q : Path} {ms : List String} {n : String} (trimmed : Trimmed q)
    (spelled : q.components = named (ms ++ [n])) : FileTree.EndsNamed (p.join q).segments := by
  have last : q.components = named ms ++ [.normal n] := by
    rw [spelled, named_append]
    rfl
  have ends := endsNamed_of_trimmed trimmed last
  have some : q.segments ≠ [] := by
    intro empty
    have names := inner_of_named spelled
    rw [empty] at names
    simp [named] at names
  obtain ⟨front, split⟩ := join_of_relative p
  intro s last
  refine ends s ?_
  rw [split q (relative_of_named spelled) some, List.getLast?_append_of_ne_nil _ some] at last
  exact last

theorem text_of_trimmed {q : Path} (trimmed : Trimmed q) (none : q.components = []) :
    q.text = "" := by
  have spelled : q.components = named [] := none
  have relative : q.absolute = false := relative_of_named spelled
  have empty : q.segments = [] := by
    rw [← map_steps]
    rcases List.eq_nil_or_concat' q.steps with empty | ⟨front, step, split⟩
    · rw [empty]
      rfl
    · have full := trimmed step (by rw [split]; simp)
      obtain ⟨c, component⟩ := Option.ne_none_iff_exists'.mp full
      rw [components_eq, relative, split, trace_append] at none
      simp [trace, component] at none
  unfold text
  rw [relative, empty]
  rfl

theorem mem_intersperse {x : α} {xs : List α} (sep : α) (inside : x ∈ xs) :
    x ∈ xs.intersperse sep := by
  induction xs with
  | nil => cases inside
  | cons y xs ih =>
    cases xs with
    | nil => exact inside
    | cons z xs =>
      rw [List.intersperse_cons_cons]
      rcases List.mem_cons.mp inside with rfl | later
      · exact List.mem_cons_self ..
      · exact List.mem_cons_of_mem _ (List.mem_cons_of_mem _ (ih later))

theorem text_ne_empty {p : Path} {s : String} (inside : s ∈ p.segments) (full : s ≠ "") :
    p.text ≠ "" := by
  intro empty
  have blank := (String.append_eq_empty_iff.mp empty).2
  rw [← String.toList_eq_nil_iff, String.toList_intercalate, List.intercalate,
    List.flatten_eq_nil_iff] at blank
  exact full (String.toList_eq_nil_iff.mp
    (blank _ (mem_intersperse _ (List.mem_map.mpr ⟨s, inside, rfl⟩))))

theorem text_of_named {p : Path} {ns : List String} (more : ns ≠ [])
    (spelled : p.components = named ns) : p.text ≠ "" := by
  obtain ⟨n, others, rfl⟩ := List.exists_cons_of_ne_nil more
  have inside : n ∈ significant p.segments := by
    rw [significant_segments, spelled, filterMap_named]
    exact List.mem_cons_self
  have below : p.components = [] ++ named (n :: others) := spelled
  have name := isName_iff.mp (names_of_components below n List.mem_cons_self)
  exact text_ne_empty (List.mem_of_mem_filter inside) name.1

end Path

theorem named_of_normal {cs : List Component} (normal : ∀ c ∈ cs, c.isNormal = true) :
    ∃ ns, cs = named ns := by
  induction cs with
  | nil => exact ⟨[], rfl⟩
  | cons c cs ih =>
    obtain ⟨ns, rfl⟩ := ih fun d inside => normal d (by simp [inside])
    cases c with
    | normal name => exact ⟨name :: ns, rfl⟩
    | root => cases normal .root (by simp)
    | current => cases normal .current (by simp)
    | parent => cases normal .parent (by simp)

theorem passes_of_named {below : Path} {ns : List String} (more : ns ≠ [])
    (spelled : below.components = named ns) :
    (below.components.any (!·.isNormal) || below.text == "") = false := by
  rw [Bool.or_eq_false_iff, spelled, List.any_eq_false]
  refine ⟨fun c inside => ?_, by simpa using Path.text_of_named more spelled⟩
  obtain ⟨n, _, rfl⟩ := List.mem_map.mp inside
  simp [Component.isNormal]

theorem named_of_passes {below : Path} (tight : below.components = [] → below.text = "")
    (passes : (below.components.any (!·.isNormal) || below.text == "") = false) :
    ∃ ns, ns ≠ [] ∧ below.components = named ns := by
  rw [Bool.or_eq_false_iff, List.any_eq_false] at passes
  obtain ⟨normal, full⟩ := passes
  obtain ⟨ns, spelled⟩ := named_of_normal fun c inside => by simpa using normal c inside
  refine ⟨ns, ?_, spelled⟩
  rintro rfl
  simp [tight spelled] at full

section Counterpart
variable {root destination file target : Path}

theorem counterpart_of_relative {below : Path}
    (under : file.absolute = true ∨ file.startsWith root = true)
    (rest : file.relativeTo? root = some below) :
    counterpart root destination file =
      if below.components.any (!·.isNormal) || below.text == "" then
        .error (.invalidDestination (.noFileUnderRoot file.text root.text))
      else .ok (destination.join below) := by
  unfold counterpart
  rw [if_pos (by simpa using under), rest]
  dsimp only
  change (if _ then _ else _) = _
  split <;> rfl

theorem counterpart_spelled (under : file.absolute = true ∨ file.startsWith root = true)
    (run : counterpart root destination file = .ok target) :
    ∃ ns, ns ≠ [] ∧ file.components = root.components ++ named ns ∧
      target.components = destination.components ++ named ns ∧
      FileTree.EndsNamed target.segments := by
  cases rest : file.relativeTo? root with
  | none =>
    unfold counterpart at run
    rw [if_pos (by simpa using under), rest] at run
    cases run
  | some below =>
    obtain ⟨split, trimmed⟩ := Path.relativeTo_spelled rest
    rw [counterpart_of_relative under rest] at run
    split at run
    · cases run
    · rename_i passes
      obtain ⟨ns, more, spelled⟩ :=
        named_of_passes (Path.text_of_trimmed trimmed) (eq_false_of_ne_true passes)
      cases run
      obtain ⟨ms, n, rfl⟩ := (List.eq_nil_or_concat' ns).resolve_left more
      exact ⟨_, more, spelled ▸ split, Path.components_join spelled destination,
        Path.endsNamed_join destination trimmed spelled⟩

theorem counterpart_ok {ns : List String} (more : ns ≠ [])
    (spelled : file.components = root.components ++ named ns) (destination : Path) :
    ∃ target, counterpart root destination file = .ok target := by
  have first := Path.startsWith_of_spelled spelled
  obtain ⟨below, rest⟩ : ∃ below, file.relativeTo? root = some below := by
    unfold Path.relativeTo?
    rw [if_pos first]
    dsimp only
    split <;> exact ⟨_, rfl⟩
  obtain ⟨split, _⟩ := Path.relativeTo_spelled rest
  rw [spelled] at split
  have components := List.append_cancel_left split
  refine ⟨destination.join below, ?_⟩
  rw [counterpart_of_relative (.inr first) rest, passes_of_named more components.symm,
    if_neg Bool.false_ne_true]

end Counterpart
end ClassHooks
