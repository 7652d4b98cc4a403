import ClassHooks.Proofs.Instruction.Marks
import ClassHooks.Body.Basic

/-!
Paths of control through a body. Instructions are told by their numbers. Any of them may throw, and
what it throws goes to the handler of the first region that covers it and catches that.
-/
namespace ClassHooks

/-- An instruction on a path, and what it throws if it throws. -/
structure Move (τ : Type) where
  place : Nat
  thrown : Option τ

namespace Move

def line (p count : Nat) : List (Move τ) := (List.range' p count).map fun q => ⟨q, none⟩

theorem line_zero (p : Nat) : (line p 0 : List (Move τ)) = [] := rfl

theorem line_snoc (p count : Nat) :
    (line p (count + 1) : List (Move τ)) = line p count ++ [⟨p + count, none⟩] := by
  simp [line, List.range'_concat]

theorem mem_line_iff {move : Move τ} {p count : Nat} :
    move ∈ line p count ↔ move.thrown = none ∧ p ≤ move.place ∧ move.place < p + count := by
  obtain ⟨q, thrown⟩ := move
  simp only [line, List.mem_map, List.mem_range'_1, Move.mk.injEq]
  constructor
  · rintro ⟨_, bounds, rfl, rfl⟩
    exact ⟨rfl, bounds⟩
  · rintro ⟨rfl, bounds⟩
    exact ⟨q, bounds, rfl, rfl⟩

end Move

namespace Region

def Covers (items : List Item) (r : Region) (n : Nat) : Prop :=
  ∃ s f, Item.Marks items r.start s ∧ Item.Marks items r.finish f ∧ s ≤ n ∧ n < f

def Catches (catches : UInt16 → τ → Prop) (r : Region) (t : τ) : Prop :=
  ∀ c, r.catchType = some c → catches c t

inductive Selects (p : Region → Prop) : List Region → Option Label → Prop where
  | nothing : Selects p [] none
  | first {r : Region} {rest : List Region} (here : p r) : Selects p (r :: rest) (some r.handler)
  | later {r : Region} {rest : List Region} {o : Option Label} (other : ¬ p r)
      (behind : Selects p rest o) : Selects p (r :: rest) o

theorem selects_total (p : Region → Prop) (regions : List Region) :
    ∃ o, Selects p regions o := by
  induction regions with
  | nil => exact ⟨none, .nothing⟩
  | cons r rest ih =>
    by_cases here : p r
    · exact ⟨_, .first here⟩
    · obtain ⟨o, behind⟩ := ih
      exact ⟨o, .later here behind⟩

theorem selects_unique {p : Region → Prop} {regions : List Region} {o o' : Option Label}
    (one : Selects p regions o) (two : Selects p regions o') : o = o' := by
  induction one with
  | nothing => cases two; rfl
  | first here =>
    cases two with
    | first => rfl
    | later other => exact absurd here other
  | later other behind ih =>
    cases two with
    | first here => exact absurd here other
    | later _ behind' => exact ih behind'

theorem selects_none_iff {p : Region → Prop} {regions : List Region} :
    Selects p regions none ↔ ∀ r ∈ regions, ¬ p r := by
  induction regions with
  | nil => exact ⟨fun _ r member => (List.not_mem_nil member).elim, fun _ => .nothing⟩
  | cons r rest ih =>
    rw [List.forall_mem_cons, ← ih]
    constructor
    · intro selects
      cases selects with
      | later other behind => exact ⟨other, behind⟩
    · rintro ⟨other, behind⟩
      exact .later other behind

theorem selects_never (regions : List Region) : Selects (fun _ => False) regions none :=
  selects_none_iff.mpr fun _ _ absurd => absurd

theorem mem_of_selects {p : Region → Prop} {regions : List Region} {l : Label}
    (selects : Selects p regions (some l)) : ∃ r ∈ regions, p r ∧ r.handler = l := by
  generalize found : some l = o at selects
  induction selects with
  | nothing => cases found
  | first here =>
    cases found
    exact ⟨_, by simp, here, rfl⟩
  | later _ _ ih =>
    obtain ⟨r, member, here, handler⟩ := ih found
    exact ⟨r, by simp [member], here, handler⟩

theorem selects_append_iff {p : Region → Prop} {a b : List Region} {o : Option Label} :
    Selects p (a ++ b) o ↔
      (∃ l, o = some l ∧ Selects p a (some l)) ∨ (Selects p a none ∧ Selects p b o) := by
  induction a with
  | nil =>
    constructor
    · intro selects
      exact .inr ⟨.nothing, selects⟩
    · rintro (⟨l, _, selects⟩ | ⟨_, selects⟩)
      · cases selects
      · exact selects
  | cons r a ih =>
    constructor
    · intro selects
      cases selects with
      | first here => exact .inl ⟨_, rfl, .first here⟩
      | later other behind =>
        rcases ih.mp behind with ⟨l, rfl, early⟩ | ⟨none, late⟩
        · exact .inl ⟨l, rfl, .later other early⟩
        · exact .inr ⟨.later other none, late⟩
    · rintro (⟨l, rfl, early⟩ | ⟨none, late⟩)
      · cases early with
        | first here => exact .first here
        | later other behind => exact .later other (ih.mpr (.inl ⟨l, rfl, behind⟩))
      · cases none with
        | later other behind => exact .later other (ih.mpr (.inr ⟨behind, late⟩))

/-- Pieces stand in for their region: they have its handler, and one of them has the property
exactly if the region has the other property. -/
def StandIn (p p' : Region → Prop) (r : Region) (pieces : List Region) : Prop :=
  (∀ q ∈ pieces, q.handler = r.handler) ∧ ((∃ q ∈ pieces, p' q) ↔ p r)

theorem selects_pieces {p p' : Region → Prop} {r : Region} {pieces : List Region}
    (same : StandIn p p' r pieces) :
    (p r → Selects p' pieces (some r.handler)) ∧ (¬ p r → Selects p' pieces none) := by
  obtain ⟨handler, some_iff⟩ := same
  constructor
  · intro here
    obtain ⟨o, selects⟩ := selects_total p' pieces
    cases o with
    | none =>
      obtain ⟨q, member, holds⟩ := some_iff.mpr here
      exact absurd holds (selects_none_iff.mp selects q member)
    | some l =>
      obtain ⟨q, member, _, rfl⟩ := mem_of_selects selects
      rwa [handler q member] at selects
  · intro other
    rw [selects_none_iff]
    intro q member holds
    exact other (some_iff.mp ⟨q, member, holds⟩)

/-- Cutting every region into pieces changes no choice. -/
theorem selects_flatten {p p' : Region → Prop} {regions : List Region}
    {parts : List (List Region)} (related : List.Forall₂ (StandIn p p') regions parts)
    {o : Option Label} (selects : Selects p regions o) : Selects p' parts.flatten o := by
  induction related generalizing o with
  | nil => exact selects_unique selects .nothing ▸ .nothing
  | cons same _ ih =>
    obtain ⟨inside, outside⟩ := selects_pieces same
    rw [List.flatten_cons, selects_append_iff]
    cases selects with
    | first here => exact .inl ⟨_, rfl, inside here⟩
    | later other behind => exact .inr ⟨outside other, ih behind⟩

end Region

namespace Body

/-- Where an exception goes that instruction number `n` throws: to a handler, or nowhere. -/
def Handles (catches : UInt16 → τ → Prop) (b : Body) (n : Nat) (t : τ) : Option Label → Prop :=
  Region.Selects (fun r => r.Covers b.items n ∧ r.Catches catches t) b.handlers

inductive Step (catches : UInt16 → τ → Prop) (b : Body) : Move τ → Nat → Prop where
  | next {n : Nat} {i : Instruction Label} (here : b.instructions[n]? = some i)
      (goesOn : i.isTerminal = false) (more : n + 1 < b.instructions.length) :
      Step catches b ⟨n, none⟩ (n + 1)
  | jump {n m : Nat} {i : Instruction Label} {l : Label} (here : b.instructions[n]? = some i)
      (target : l ∈ i.targets) (marks : Item.Marks b.items l m)
      (inside : m < b.instructions.length) : Step catches b ⟨n, none⟩ m
  | caught {n m : Nat} {t : τ} {l : Label} (here : n < b.instructions.length)
      (handled : b.Handles catches n t (some l)) (marks : Item.Marks b.items l m)
      (inside : m < b.instructions.length) : Step catches b ⟨n, some t⟩ m

inductive Leaves (catches : UInt16 → τ → Prop) (b : Body) : Move τ → Prop where
  | returned {n : Nat} {i : Instruction Label} (here : b.instructions[n]? = some i)
      (ends : i.isReturn = true) : Leaves catches b ⟨n, none⟩
  | thrown {n : Nat} {t : τ} (here : n < b.instructions.length)
      (escapes : b.Handles catches n t none) : Leaves catches b ⟨n, some t⟩

inductive Walk (catches : UInt16 → τ → Prop) (b : Body) : Nat → List (Move τ) → Nat → Prop where
  | stay (n : Nat) : Walk catches b n [] n
  | move {n m k : Nat} {thrown : Option τ} {trace : List (Move τ)}
      (step : Step catches b ⟨n, thrown⟩ m) (rest : Walk catches b m trace k) :
      Walk catches b n (⟨n, thrown⟩ :: trace) k

/-- The moves of a path from instruction number `n` out of the method, and the exception by which
it ends, if it ends by one. -/
inductive Run (catches : UInt16 → τ → Prop) (b : Body) :
    Nat → List (Move τ) → Option τ → Prop where
  | leave {n : Nat} {outcome : Option τ} (leaves : Leaves catches b ⟨n, outcome⟩) :
      Run catches b n [⟨n, outcome⟩] outcome
  | move {n m : Nat} {thrown outcome : Option τ} {moves : List (Move τ)}
      (step : Step catches b ⟨n, thrown⟩ m) (rest : Run catches b m moves outcome) :
      Run catches b n (⟨n, thrown⟩ :: moves) outcome

section Paths
variable {catches : UInt16 → τ → Prop} {b : Body}

theorem walk_line {p count : Nat}
    (each : ∀ q, p ≤ q → q < p + count → b.Step catches ⟨q, none⟩ (q + 1)) :
    b.Walk catches p (Move.line p count) (p + count) := by
  induction count generalizing p with
  | zero => exact .stay p
  | succ count ih =>
    have rest := ih (p := p + 1) fun q after before => each q (by omega) (by omega)
    rw [Nat.add_assoc, Nat.add_comm 1] at rest
    exact .move (each p (Nat.le_refl p) (by omega)) rest

theorem run_of_walk {n m : Nat} {trace moves : List (Move τ)} {outcome : Option τ}
    (before : b.Walk catches n trace m) (after : b.Run catches m moves outcome) :
    b.Run catches n (trace ++ moves) outcome := by
  induction before with
  | stay n => exact after
  | move step _ ih => exact .move step (ih after)

theorem walk_of_run {n : Nat} {moves : List (Move τ)} {outcome : Option τ}
    (run : b.Run catches n moves outcome) : ∃ trace k, moves = trace ++ [⟨k, outcome⟩] ∧
      b.Walk catches n trace k ∧ b.Leaves catches ⟨k, outcome⟩ := by
  induction run with
  | @leave n outcome leaves => exact ⟨[], n, rfl, .stay n, leaves⟩
  | move step _ ih =>
    obtain ⟨trace, k, rfl, walk, leaves⟩ := ih
    exact ⟨_, k, rfl, .move step walk, leaves⟩

end Paths
end Body
end ClassHooks
