import ClassHooks.Proofs.Weaving.Anchoring
import ClassHooks.Proofs.Weaving.Events
import Mathlib.Logic.Relation

/-!
Bodies that are woven again and again. The labels stay in order as long as no hook names one.
-/
namespace ClassHooks
namespace Weaving
open Item

/-- A body and what becomes of it when a label is handed out, or when a chain is woven into it whose
hooks name no label. -/
inductive Edited : Body → Body → Prop where
  | labelled {b b' : Body} {l : Label} (made : b.newLabel = .ok (l, b')) : Edited b b'
  | woven {b : Body} {chain : Chain} {requireFrames : Bool} {method : MethodName} {p p' : Pool}
      {woven : WovenMethod}
      (silent : ∀ descriptor enter exit error q,
        MethodDescriptor.parse method.descriptor = .ok descriptor →
        Emits chain method descriptor.returnType b.returnCount p enter exit error q →
          (interleaving b enter exit error).NamesNothing)
      (run : b.weave chain requireFrames method p = .ok woven p') : Edited b woven.body

theorem anchored_of_edited {b b' : Body} (anchored : b.Anchored) (step : Edited b b') :
    b'.Anchored := by
  cases step with
  | labelled made => exact Body.anchored_newLabel anchored made
  | woven silent run =>
    obtain ⟨enter, exit, error, made⟩ := made_of_weave run
    obtain ⟨descriptor, _, _, parsed, emits, _⟩ := made.emits
    exact anchored_of_made made anchored (silent descriptor _ _ _ _ parsed emits)

/-- Weaving puts code between places, and never takes it away. -/
theorem apart_of_rewritten {ls : List Label} {b b' : Body} (anchored : b.Anchored)
    (apart : b.Apart ls) (step : Edited b b') : b'.Apart ls := by
  cases step with
  | labelled made =>
    obtain ⟨_, _, _, rfl⟩ := Body.newLabel_ok_iff.mp made
    exact ⟨apart.placed, apart.apart⟩
  | woven _ run =>
    obtain ⟨enter, exit, error, made⟩ := made_of_weave run
    have shape := woven_of_numbered anchored.numbered made
    refine ⟨fun l member => mem_labels_woven shape (apart.placed l member), ?_⟩
    intro l member l' member' n one two
    obtain ⟨k, marks⟩ := marked_iff_mem.mpr (apart.placed l member)
    obtain ⟨k', marks'⟩ := marked_iff_mem.mpr (apart.placed l' member')
    have same := marks_unique shape.once one (shape.marks l k marks)
    have same' := marks_unique shape.once two (shape.marks l' k' marks')
    obtain rfl := begin_injective shape marks marks' (same.symm.trans same')
    exact apart.apart l member l' member' k marks marks'

theorem labels_of_rewriting {ls : List Label} {b b' : Body} (anchored : b.Anchored)
    (apart : b.Apart ls) (rewriting : Relation.ReflTransGen Edited b b') :
    b'.Anchored ∧ b'.Apart ls := by
  induction rewriting with
  | refl => exact ⟨anchored, apart⟩
  | tail _ step ih =>
    exact ⟨anchored_of_edited ih.1 step, apart_of_rewritten ih.1 ih.2 step⟩

/-- However often a body that was read is rewritten, its labels are consistent, and those placed by
reading mark different places. -/
theorem rewriting_keeps_labels {c : CodeAttribute} {pool : Pool} {b b' : Body}
    (read : Body.ofCode c pool = .ok b) (rewriting : Relation.ReflTransGen Edited b b') :
    b'.Consistent ∧ b'.Apart (labels b.items) := by
  have anchored := (Body.orderly_of_ofCode read).anchored
  obtain ⟨anchored', apart⟩ :=
    labels_of_rewriting anchored (Body.apart_of_ofCode read) rewriting
  exact ⟨anchored'.consistent, apart⟩

theorem twoReturns_keeps_labels : ∃ b b', Body.ofCode twoReturns Pool.empty = .ok b ∧
    Relation.ReflTransGen Edited b b' ∧ b'.Consistent ∧ b'.Apart (labels b.items) := by
  have weaves : (Body.ofCode twoReturns Pool.empty).toOption.any (fun b =>
      match b.weave reporting false ⟨"A", "m", "()V"⟩ Pool.empty with
      | .ok woven p =>
        woven.body.newLabel.toOption.any fun made =>
          succeeds (made.2.weave reporting true ⟨"A", "m", "()V"⟩) p
      | .error _ _ => false) = true := by decide +kernel
  have silent : reporting.NamesNothing := callbacks_name_nothing (by simp [reporting])
  obtain ⟨b, read⟩ := ok_of_isSome (Option.isSome_of_any weaves)
  rw [read] at weaves
  change (match b.weave reporting false ⟨"A", "m", "()V"⟩ Pool.empty with
    | .ok woven p =>
      woven.body.newLabel.toOption.any fun made =>
        succeeds (made.2.weave reporting true ⟨"A", "m", "()V"⟩) p
    | .error _ _ => false) = true at weaves
  cases first : b.weave reporting false ⟨"A", "m", "()V"⟩ Pool.empty with
  | error e p =>
    rw [first] at weaves
    cases weaves
  | ok woven p =>
    rw [first] at weaves
    obtain ⟨⟨l, labelled⟩, made⟩ := ok_of_isSome (Option.isSome_of_any weaves)
    dsimp only at weaves
    rw [made] at weaves
    obtain ⟨again, p', second⟩ := ok_of_succeeds weaves
    -- Woven, given a label, and woven again.
    have rewriting : Relation.ReflTransGen Edited b again.body :=
      ((Relation.ReflTransGen.single
        (.woven (fun _ _ _ _ _ _ emits => names_nothing_of_emits silent emits) first)).tail
        (.labelled made)).tail
        (.woven (fun _ _ _ _ _ _ emits => names_nothing_of_emits silent emits) second)
    exact ⟨b, again.body, read, rewriting, rewriting_keeps_labels read rewriting⟩

def strayingPolicy : Policy := ⟨"p", fun site =>
  match site.event with
  | .enter => .ofOperations [.raw ⟨0, .branch ⟨40⟩⟩ [] []]
  | _ => .done⟩

def straying : Chain := ⟨[strayingPolicy], by simp⟩

theorem straying_not_consistent : ∃ b woven p', Body.ofCode soleReturn Pool.empty = .ok b ∧
    b.weave straying false ⟨"A", "m", "()V"⟩ Pool.empty = .ok woven p' ∧
    woven.body.validate = .error (.undefinedLabel ⟨40⟩) ∧ ¬ woven.body.Consistent := by
  have weaves : (Body.ofCode soleReturn Pool.empty).toOption.any (fun b =>
      match b.weave straying false ⟨"A", "m", "()V"⟩ Pool.empty with
      | .ok woven _ =>
        match woven.body.validate with
        | .error (.undefinedLabel l) => l = ⟨40⟩
        | _ => false
      | .error _ _ => false) = true := by decide +kernel
  obtain ⟨b, read⟩ := ok_of_isSome (Option.isSome_of_any weaves)
  rw [read, Except.toOption, Option.any_some] at weaves
  split at weaves
  · rename_i woven p' run
    split at weaves
    · rename_i l refused
      obtain rfl := of_decide_eq_true weaves
      refine ⟨b, woven, p', read, run, refused, fun consistent => ?_⟩
      rw [consistent.valid] at refused
      cases refused
    · cases weaves
  · cases weaves

end Weaving
end ClassHooks
