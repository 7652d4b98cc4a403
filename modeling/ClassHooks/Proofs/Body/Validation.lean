import ClassHooks.Proofs.Instruction.Marks
import ClassHooks.Proofs.Code.Frame
import ClassHooks.Body.Validation

/-!
What a valid body is: its labels stand once each, and stand for every label that something names.
-/
namespace ClassHooks.Body
open Item

/-- Something in the body names the label. -/
inductive Names (b : Body) (l : Label) : Prop where
  | target {i : Instruction Label} (member : i ∈ b.instructions) (here : l ∈ i.targets)
  | region {r : Region} (member : r ∈ b.handlers)
      (here : l = r.start ∨ l = r.finish ∨ l = r.handler)
  | line {m : LineMark} (member : m ∈ b.lines) (here : l = m.start)
  | range {v : Variable} (member : v ∈ b.locals ∨ v ∈ b.variableTypes)
      (here : l = v.start ∨ l = v.finish)
  | frame {f : Frame Label} (member : f ∈ b.frames.getD []) (here : l ∈ f.positions)

theorem types_positions (ts : List (VerificationType Label)) :
    ts.filterMap namedLabels.typeLabel? = ts.flatMap VerificationType.positions := by
  induction ts with
  | nil => rfl
  | cons t ts ih =>
    rw [List.filterMap_cons, List.flatMap_cons, ih]
    cases t <;> rfl

theorem frameLabels_eq (f : Frame Label) : namedLabels.frameLabels f = f.positions := by
  unfold namedLabels.frameLabels Frame.positions
  congr 1
  cases f.kind with
  | sameOneItem t => cases t <;> rfl
  | append locals => exact types_positions locals
  | full locals stack => exact types_positions (locals ++ stack)
  | _ => rfl

theorem mem_namedLabels_iff {b : Body} {l : Label} : l ∈ b.namedLabels ↔ b.Names l := by
  simp only [namedLabels, funext frameLabels_eq, List.mem_append, List.mem_flatMap, List.mem_map,
    List.mem_cons, List.not_mem_nil, or_false]
  constructor
  · rintro ((((⟨i, member, here⟩ | ⟨r, member, here⟩) | ⟨m, member, rfl⟩) | ⟨v, member, here⟩) |
      ⟨f, member, here⟩)
    · exact .target member here
    · exact .region member here
    · exact .line member rfl
    · exact .range member here
    · exact .frame member here
  · rintro (⟨member, here⟩ | ⟨member, here⟩ | ⟨member, rfl⟩ | ⟨member, here⟩ | ⟨member, here⟩)
    · exact .inl (.inl (.inl (.inl ⟨_, member, here⟩)))
    · exact .inl (.inl (.inl (.inr ⟨_, member, here⟩)))
    · exact .inl (.inl (.inr ⟨_, member, rfl⟩))
    · exact .inl (.inr ⟨_, member, here⟩)
    · exact .inr ⟨_, member, here⟩

theorem placedLabels_ok_iff {placed all : Std.TreeSet Label} {items : List Item} :
    placedLabels placed items = .ok all ↔ ((labels items).Nodup ∧ ∀ l ∈ labels items, l ∉ placed) ∧
      all = placed.insertMany (labels items) := by
  induction items generalizing placed with
  | nil => simp [placedLabels, eq_comm]
  | cons item rest ih =>
    cases item with
    | op i => exact ih
    | mark l =>
      rw [placedLabels, labels_mark, List.nodup_cons, List.forall_mem_cons,
        Std.TreeSet.insertMany_cons]
      by_cases again : l ∈ placed
      · rw [if_pos (Std.TreeSet.mem_iff_contains.mp again)]
        simp [again]
      · rw [if_neg (fun holds => again (Std.TreeSet.mem_iff_contains.mpr holds)), ih]
        refine and_congr_left fun _ => ?_
        have apart : ∀ l', l' ∉ placed.insert l ↔ l' ≠ l ∧ l' ∉ placed := by
          intro l'
          rw [Std.TreeSet.mem_insert, Std.LawfulEqCmp.compare_eq_iff_eq, not_or, ne_comm]
        simp only [apart]
        constructor
        · rintro ⟨once, free⟩
          exact ⟨⟨fun here => (free l here).1 rfl, once⟩, again, fun l' here => (free l' here).2⟩
        · rintro ⟨⟨new, once⟩, _, free⟩
          refine ⟨once, fun l' here => ⟨?_, free l' here⟩⟩
          rintro rfl
          exact new here

/-- A body is valid exactly if every label stands once and whatever names a label names one that
stands. -/
theorem validate_ok_iff {b : Body} : b.validate = .ok () ↔
    (labels b.items).Nodup ∧ ∀ l, b.Names l → l ∈ labels b.items := by
  have stands : ∀ l, l ∈ (∅ : Std.TreeSet Label).insertMany (labels b.items) ↔
      l ∈ labels b.items := fun l => by simp [Std.TreeSet.mem_insertMany_list]
  constructor
  · intro valid
    obtain ⟨all, placed, checked⟩ := bind_ok_iff.mp valid
    obtain ⟨⟨once, _⟩, rfl⟩ := placedLabels_ok_iff.mp placed
    refine ⟨once, fun l named => ?_⟩
    split at checked
    · cases checked
    · rename_i none
      have held := List.find?_eq_none.mp none l (mem_namedLabels_iff.mpr named)
      exact (stands l).mp (Std.TreeSet.mem_iff_contains.mpr (by simpa using held))
  · rintro ⟨once, placed⟩
    refine bind_ok_iff.mpr ⟨_, placedLabels_ok_iff.mpr ⟨⟨once, by simp⟩, rfl⟩, ?_⟩
    have none : b.namedLabels.find? (fun l =>
        !((∅ : Std.TreeSet Label).insertMany (labels b.items)).contains l) = none := by
      rw [List.find?_eq_none]
      intro l named
      have held := (stands l).mpr (placed l (mem_namedLabels_iff.mp named))
      simpa using Std.TreeSet.mem_iff_contains.mp held
    rw [none]
    rfl

end ClassHooks.Body
