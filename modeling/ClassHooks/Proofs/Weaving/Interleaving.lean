import ClassHooks.Instruction.Basic

/-!
Hooks around the instructions of a method, as instruction numbers only: the enter hook, then every
instruction with the return hook before it if it is a return, then the error hook and a throw.
-/
namespace ClassHooks

namespace Instruction

def withHook (hook : List (Instruction Label)) (i : Instruction Label) :
    List (Instruction Label) :=
  if i.isReturn then hook ++ [i] else [i]

def shift (hook is : List (Instruction Label)) (k : Nat) : Nat :=
  ((is.take k).flatMap (withHook hook)).length

def returnPlaces (is : List (Instruction Label)) : List Nat :=
  (List.range is.length).filter fun k => is[k]?.any isReturn

theorem withHook_length (hook : List (Instruction Label)) (i : Instruction Label) :
    (withHook hook i).length = (if i.isReturn then hook.length else 0) + 1 := by
  unfold withHook
  split <;> simp

@[simp] theorem withHook_nil : withHook [] = fun i => [i] := by
  funext i
  simp [withHook]

@[simp] theorem flatMap_withHook_nil (is : List (Instruction Label)) :
    is.flatMap (withHook []) = is := by
  rw [withHook_nil, List.flatMap_singleton']

theorem shift_nil {is : List (Instruction Label)} {k : Nat} (inside : k ≤ is.length) :
    shift [] is k = k := by
  simp [shift, inside]

@[simp] theorem shift_zero (hook is : List (Instruction Label)) : shift hook is 0 = 0 := by
  simp [shift]

theorem shift_cons (hook : List (Instruction Label)) (i : Instruction Label)
    (is : List (Instruction Label)) (k : Nat) :
    shift hook (i :: is) (k + 1) = (withHook hook i).length + shift hook is k := by
  simp [shift]

theorem returnPlaces_cons (i : Instruction Label) (is : List (Instruction Label)) :
    returnPlaces (i :: is) =
      (if i.isReturn then [0] else []) ++ (returnPlaces is).map (· + 1) := by
  simp only [returnPlaces, List.length_cons, List.range_succ_eq_map, List.filter_cons,
    List.filter_map, List.getElem?_cons_zero, Option.any_some]
  split <;> rfl

end Instruction

structure Interleaving where
  enter : List (Instruction Label)
  exit : List (Instruction Label)
  error : List (Instruction Label)
  original : List (Instruction Label)

namespace Interleaving
open Instruction
variable (w : Interleaving)

abbrev unit (i : Instruction Label) : List (Instruction Label) := withHook w.exit i

def main : List (Instruction Label) := w.original.flatMap w.unit

def instructions : List (Instruction Label) :=
  w.enter ++ (w.main ++ (w.error ++ [.plain Opcode.athrow]))

def begin (k : Nat) : Nat := w.enter.length + shift w.exit w.original k

def lead (k : Nat) : Nat := if w.original[k]?.any Instruction.isReturn then w.exit.length else 0

def place (k : Nat) : Nat := w.begin k + w.lead k

def finish : Nat := w.begin w.original.length

def rethrow : Nat := w.finish + w.error.length

inductive Spot : Nat → Prop where
  | enter {p : Nat} (early : p < w.enter.length) : Spot p
  | lead {p k : Nat} (inside : k < w.original.length) (after : w.begin k ≤ p)
      (before : p < w.place k) : Spot p
  | original {k : Nat} (inside : k < w.original.length) : Spot (w.place k)
  | error {p : Nat} (after : w.finish ≤ p) (before : p < w.rethrow) : Spot p
  | rethrow : Spot w.rethrow

variable {w}

theorem begin_zero : w.begin 0 = w.enter.length := by simp [begin]

theorem unit_length {k : Nat} (inside : k < w.original.length) :
    (w.unit w.original[k]).length = w.lead k + 1 := by
  rw [withHook_length, lead, List.getElem?_eq_getElem inside, Option.any_some]

theorem begin_succ {k : Nat} (inside : k < w.original.length) :
    w.begin (k + 1) = w.place k + 1 := by
  have length := w.unit_length inside
  simp only [begin, shift, place, List.take_succ_eq_append_getElem inside, List.flatMap_append,
    List.length_append, List.flatMap_singleton, length]
  omega

theorem begin_le_place (k : Nat) : w.begin k ≤ w.place k := Nat.le_add_right _ _

theorem begin_mono {k m : Nat} (order : k ≤ m) : w.begin k ≤ w.begin m := by
  induction order with
  | refl => exact Nat.le_refl _
  | @step m _ ih =>
    change w.begin k ≤ w.begin (m + 1)
    by_cases inside : m < w.original.length
    · have next := w.begin_succ inside
      have here := w.begin_le_place m
      omega
    · have same : w.begin (m + 1) = w.begin m := by
        simp only [begin, shift, List.take_of_length_le (Nat.le_of_not_lt inside),
          List.take_of_length_le (Nat.le_succ_of_le (Nat.le_of_not_lt inside))]
      omega

theorem place_lt_begin {k m : Nat} (order : k < m) (inside : k < w.original.length) :
    w.place k < w.begin m := by
  have next := w.begin_succ inside
  have later : w.begin (k + 1) ≤ w.begin m := w.begin_mono order
  omega

theorem begin_lt_begin {k m : Nat} (order : k < m) (inside : k < w.original.length) :
    w.begin k < w.begin m :=
  Nat.lt_of_le_of_lt (w.begin_le_place k) (w.place_lt_begin order inside)

theorem place_lt_finish {k : Nat} (inside : k < w.original.length) : w.place k < w.finish :=
  w.place_lt_begin inside inside

theorem enter_le_begin (k : Nat) : w.enter.length ≤ w.begin k := Nat.le_add_right _ _

theorem finish_le_rethrow : w.finish ≤ w.rethrow := Nat.le_add_right _ _

theorem unit_unique {p k m : Nat} (inside : k < w.original.length)
    (inside' : m < w.original.length) (after : w.begin k ≤ p) (before : p ≤ w.place k)
    (after' : w.begin m ≤ p) (before' : p ≤ w.place m) : k = m := by
  rcases Nat.lt_trichotomy k m with order | same | order
  · have := w.place_lt_begin order inside
    omega
  · exact same
  · have := w.place_lt_begin order inside'
    omega

theorem place_injective {k m : Nat} (inside : k < w.original.length)
    (inside' : m < w.original.length) (same : w.place k = w.place m) : k = m :=
  w.unit_unique inside inside' (w.begin_le_place k) (Nat.le_refl _)
    (same ▸ w.begin_le_place m) (Nat.le_of_eq same)

theorem main_length : w.enter.length + w.main.length = w.finish := by
  simp [main, finish, begin, shift]

theorem instructions_length : w.instructions.length = w.rethrow + 1 := by
  have length := w.main_length
  simp only [instructions, rethrow, List.length_append, List.length_singleton]
  omega

theorem mem_instructions {i : Instruction Label} (member : i ∈ w.instructions) :
    (i ∈ w.enter ∨ i ∈ w.exit ∨ i ∈ w.error) ∨ i ∈ w.original ∨ i = .plain Opcode.athrow := by
  simp only [instructions, main, List.mem_append, List.mem_flatMap, List.mem_singleton] at member
  rcases member with enter | ⟨j, inside, here⟩ | error | last
  · exact .inl (.inl enter)
  · unfold unit withHook at here
    split at here
    · rcases List.mem_append.mp here with exit | same
      · exact .inl (.inr (.inl exit))
      · exact .inr (.inl (List.mem_singleton.mp same ▸ inside))
    · exact .inr (.inl (List.mem_singleton.mp here ▸ inside))
  · exact .inl (.inr (.inr error))
  · exact .inr (.inr last)

theorem instructions_split {k : Nat} (inside : k < w.original.length) :
    ∃ before after, before.length = w.begin k ∧
      w.instructions = before ++ (w.unit w.original[k] ++ after) := by
  refine ⟨w.enter ++ (w.original.take k).flatMap w.unit,
    (w.original.drop (k + 1)).flatMap w.unit ++ (w.error ++ [.plain Opcode.athrow]), ?_, ?_⟩
  · simp [begin, shift]
  · have whole : w.original = w.original.take k ++ w.original[k] :: w.original.drop (k + 1) := by
      rw [← List.drop_eq_getElem_cons inside, List.take_append_drop]
    have parts : w.main = (w.original.take k).flatMap w.unit ++
        (w.unit w.original[k] ++ (w.original.drop (k + 1)).flatMap w.unit) := by
      conv => lhs; rw [main, whole]
      rw [List.flatMap_append, List.flatMap_cons]
    simp only [instructions, parts, List.append_assoc]

theorem instructions_enter {p : Nat} (early : p < w.enter.length) :
    w.instructions[p]? = w.enter[p]? := by
  rw [instructions, List.getElem?_append_left early]

theorem unit_of_lead {k j : Nat} (inside : k < w.original.length) (hook : j < w.lead k) :
    w.unit w.original[k] = w.exit ++ [w.original[k]] ∧ w.lead k = w.exit.length := by
  simp only [unit, withHook, lead, List.getElem?_eq_getElem inside, Option.any_some] at hook ⊢
  split at hook
  · rename_i ends
    simp [ends]
  · omega

theorem instructions_lead {p k : Nat} (inside : k < w.original.length) (after : w.begin k ≤ p)
    (before : p < w.place k) : w.instructions[p]? = w.exit[p - w.begin k]? := by
  obtain ⟨front, back, length, whole⟩ := w.instructions_split inside
  have hook : p - w.begin k < w.lead k := by
    simp only [place] at before
    omega
  obtain ⟨unit, lead⟩ := w.unit_of_lead inside hook
  rw [whole, List.getElem?_append_right (by omega), length, unit, List.append_assoc,
    List.getElem?_append_left (by omega)]

theorem instructions_place {k : Nat} (inside : k < w.original.length) :
    w.instructions[w.place k]? = some w.original[k] := by
  obtain ⟨front, back, length, whole⟩ := w.instructions_split inside
  have shift : w.place k - front.length = w.lead k := by
    simp only [place]
    omega
  rw [whole, List.getElem?_append_right (by simp only [place]; omega), shift]
  simp only [unit, withHook, lead, List.getElem?_eq_getElem inside, Option.any_some]
  split <;> simp

theorem instructions_error {p : Nat} (after : w.finish ≤ p) (before : p < w.rethrow) :
    w.instructions[p]? = w.error[p - w.finish]? := by
  have length := w.main_length
  simp only [rethrow] at before
  rw [instructions, List.getElem?_append_right (by omega), List.getElem?_append_right (by omega),
    List.getElem?_append_left (by omega), Nat.sub_sub, length]

theorem instructions_rethrow : w.instructions[w.rethrow]? = some (.plain Opcode.athrow) := by
  have length := w.main_length
  have order : w.enter.length ≤ w.finish := w.enter_le_begin _
  simp only [rethrow]
  rw [instructions, List.getElem?_append_right (by omega), List.getElem?_append_right (by omega),
    List.getElem?_append_right (by omega),
    show w.finish + w.error.length - w.enter.length - w.main.length - w.error.length = 0 by omega]
  rfl

/-- Every place before the error hook and behind the enter hook belongs to one instruction. -/
theorem unit_of_place {p m : Nat} (bound : m ≤ w.original.length)
    (late : w.enter.length ≤ p) (early : p < w.begin m) :
    ∃ k < m, w.begin k ≤ p ∧ p ≤ w.place k := by
  induction m with
  | zero =>
    rw [begin_zero] at early
    omega
  | succ m ih =>
    by_cases here : w.begin m ≤ p
    · have next := w.begin_succ (Nat.lt_of_succ_le bound)
      exact ⟨m, Nat.lt_succ_self m, here, by omega⟩
    · obtain ⟨k, before, bounds⟩ := ih (Nat.le_of_succ_le bound) (by omega)
      exact ⟨k, Nat.lt_succ_of_lt before, bounds⟩

theorem spot_of_lt {p : Nat} (inside : p < w.instructions.length) : w.Spot p := by
  rw [instructions_length] at inside
  by_cases enter : p < w.enter.length
  · exact .enter enter
  by_cases early : p < w.finish
  · obtain ⟨k, bound, after, before⟩ := w.unit_of_place (Nat.le_refl _) (by omega) early
    rcases Nat.lt_or_eq_of_le before with lead | rfl
    · exact .lead bound after lead
    · exact .original bound
  by_cases error : p < w.rethrow
  · exact .error (by omega) error
  · obtain rfl : p = w.rethrow := by omega
    exact .rethrow

variable (w) in
def hooked : List Nat := (List.range w.original.length).filter fun k => 0 < w.lead k

theorem mem_hooked_iff {k : Nat} :
    k ∈ w.hooked ↔ k < w.original.length ∧ w.begin k < w.place k := by
  simp [hooked, place]

theorem hooked_sorted : w.hooked.Pairwise (· < ·) := List.pairwise_lt_range.filter _

theorem hooked_of_nil (empty : w.exit = []) : w.hooked = [] := by
  simp [hooked, lead, empty]

theorem hooked_of_cons (filled : w.exit ≠ []) : w.hooked = returnPlaces w.original := by
  have length : 0 < w.exit.length := List.length_pos_iff.mpr filled
  unfold hooked returnPlaces
  apply List.filter_congr
  intro k _
  unfold lead
  split <;> simp_all

theorem place_of_hooked {k : Nat} (hooked : k ∈ w.hooked) :
    w.place k = w.begin k + w.exit.length := by
  have lead := (w.mem_hooked_iff.mp hooked).2
  unfold place Interleaving.lead at lead ⊢
  split at lead
  · rename_i ends
    rw [if_pos ends]
  · omega

end Interleaving
end ClassHooks
