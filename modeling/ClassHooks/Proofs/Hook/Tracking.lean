import ClassHooks.Proofs.Hook.Machine
import ClassHooks.Proofs.Hook.Emission
import ClassHooks.Proofs.Text.ModifiedUtf8

/-!
The emitter's account of the operand stack is right. What operations emit takes values that the
hook has put on the stack and no others, finds them there, and needs the slots that are reported.
-/
namespace ClassHooks

namespace Instruction

/-- Neither a branch, a switch, a return, a throw or a subroutine, nor an access to a local
variable. -/
def Harmless (i : Instruction Label) : Prop :=
  i.targets = [] ∧ ¬ (0x15 ≤ i.opcode.toNat ∧ i.opcode.toNat ≤ 0x2D) ∧
    ¬ (0x36 ≤ i.opcode.toNat ∧ i.opcode.toNat ≤ 0x4E) ∧ i.opcode.toNat ≠ 0x84 ∧
    ¬ (0x99 ≤ i.opcode.toNat ∧ i.opcode.toNat ≤ 0xB1) ∧ i.opcode.toNat ≠ 0xBF ∧
    i.opcode.toNat ≠ 0xC4 ∧ i.opcode.toNat ≤ 0xC5

theorem harmless_of_checks {i : Instruction Label} (assigned : Opcode.isAssigned i.opcode = true)
    (straight : i.Straight) (locals : Opcode.accessesLocals i.opcode = false)
    (none : i.targets = []) : i.Harmless := by
  have looked : ∀ op : Opcode, Opcode.isAssigned op = true →
      (Opcode.flow op = .sequential ∨ Opcode.flow op = .call) → Opcode.accessesLocals op = false →
      ¬ (0x15 ≤ op.toNat ∧ op.toNat ≤ 0x2D) ∧ ¬ (0x36 ≤ op.toNat ∧ op.toNat ≤ 0x4E) ∧
        op.toNat ≠ 0x84 ∧ ¬ (0x99 ≤ op.toNat ∧ op.toNat ≤ 0xB1) ∧ op.toNat ≠ 0xBF ∧
        op.toNat ≠ 0xC4 ∧ op.toNat ≤ 0xC5 := Opcode.forall_of_fin (by decide +kernel)
  exact ⟨none, looked i.opcode assigned straight locals⟩

end Instruction

/-- An instruction of a hook, by the kinds of the hook's own values before and behind it: it takes
some of them, or it copies the value that the hook has found. -/
inductive Moves (pool : Pool) (base : Option ValueKind) (i : Instruction Label) :
    List ValueKind → List ValueKind → Prop where
  | acts {taken given rest : List ValueKind} (takes : Takes id pool i taken given) :
      Moves pool base i (taken ++ rest) (given ++ rest)
  | copies {k : ValueKind} (found : base = some k)
      (copy : i = .plain (if k.slots = 2 then Opcode.dup2 else Opcode.dup)) :
      Moves pool base i [] [k]

/-- Instructions of a hook, the kinds of its own values behind them, and the most slots that it has
had for them. -/
inductive Tracks (pool : Pool) (base : Option ValueKind) :
    List (Instruction Label) → List ValueKind → Nat → Prop where
  | start : Tracks pool base [] [] 0
  | next {is : List (Instruction Label)} {i : Instruction Label} {own own' : List ValueKind}
      {peak : Nat} (before : Tracks pool base is own peak) (moves : Moves pool base i own own')
      (harmless : i.Harmless) :
      Tracks pool base (is ++ [i]) own' (max peak (slotsOf id own'))

structure Growth (pool : Pool) (base : Option ValueKind) (is : List (Instruction Label))
    (peak : Nat) (own : Nat → List ValueKind) : Prop where
  start : own 0 = []
  bounded : ∀ n ≤ is.length, slotsOf id (own n) ≤ peak
  reached : ∃ n ≤ is.length, slotsOf id (own n) = peak
  moves : ∀ n i, is[n]? = some i → Moves pool base i (own n) (own (n + 1))
  harmless : ∀ i ∈ is, i.Harmless

theorem growth_of_tracks {pool : Pool} {base : Option ValueKind} {is : List (Instruction Label)}
    {last : List ValueKind} {peak : Nat} (tracks : Tracks pool base is last peak) :
    ∃ own, Growth pool base is peak own ∧ own is.length = last := by
  induction tracks with
  | start =>
    refine ⟨fun _ => [], ⟨rfl, ?_, ⟨0, by simp, rfl⟩, by simp, by simp⟩, rfl⟩
    intro n _
    exact Nat.le_refl 0
  | @next is i own own' peak _ moves harmless ih =>
    obtain ⟨grown, growth, same⟩ := ih
    let further : Nat → List ValueKind := fun n => if n ≤ is.length then grown n else own'
    have early : ∀ n, n ≤ is.length → further n = grown n := fun n bound => if_pos bound
    have late : further (is.length + 1) = own' := if_neg (by omega)
    refine ⟨further, ⟨?_, ?_, ?_, ?_, ?_⟩, by rw [List.length_append]; exact late⟩
    · rw [early 0 (Nat.zero_le _), growth.start]
    · intro n bound
      rcases Nat.lt_or_ge is.length n with outside | inside
      · obtain rfl : n = is.length + 1 := by simp at bound; omega
        rw [late]
        omega
      · have := growth.bounded n inside
        rw [early n inside]
        omega
    · obtain ⟨n, bound, high⟩ := growth.reached
      rcases Nat.le_total (slotsOf id own') peak with lower | higher
      · refine ⟨n, by simp; omega, ?_⟩
        rw [early n bound, high]
        omega
      · refine ⟨is.length + 1, by simp, ?_⟩
        rw [late]
        omega
    · intro n j here
      rcases Nat.lt_or_ge n is.length with inside | outside
      · rw [List.getElem?_append_left inside] at here
        rw [early n (Nat.le_of_lt inside), early (n + 1) inside]
        exact growth.moves n j here
      · have bound := (List.getElem?_eq_some_iff.mp here).1
        obtain rfl : n = is.length := by simp at bound; omega
        rw [List.getElem?_concat_length, Option.some.injEq] at here
        subst here
        rw [early _ (Nat.le_refl _), late, same]
        exact moves
    · intro j member
      rcases List.mem_append.mp member with old | new
      · exact growth.harmless j old
      · rw [List.mem_singleton.mp new]
        exact harmless

section Execution
variable {ν : Type} {kind : ν → ValueKind} {pool : Pool} {base : Option ValueKind}
  {i : Instruction Label} {found below : List ν}

theorem copy_shuffles (v : ν) :
    (Instruction.plain (if (kind v).slots = 2 then Opcode.dup2 else Opcode.dup) :
        Instruction Label).Fits ∧
      Shuffles kind (if (kind v).slots = 2 then Opcode.dup2 else Opcode.dup) [v] [v, v] := by
  constructor
  · split <;> exact ⟨.nothing, rfl, rfl⟩
  · have amount : (if (kind v).slots = 2 then Opcode.dup2 else Opcode.dup).copied? =
        some (slotsOf kind [v], slotsOf kind ([] : List ν)) := by
      simp only [slotsOf, List.map_cons, List.map_nil, List.sum_cons, List.sum_nil]
      cases kind v <;> rfl
    exact .copy amount

/-- Above what was found stand the hook's own values and nothing else, and the next instruction
takes only of them, or copies the value found. -/
theorem acts_of_moves {own own' : List ValueKind} (moves : Moves pool base i own own')
    (value : found.map kind = base.toList) {mine taken given rest : List ν}
    (kinds : mine.map kind = own) (takes : Takes kind pool i taken given)
    (stack : taken ++ rest = mine ++ (found ++ below)) :
    ∃ mine', given ++ rest = mine' ++ (found ++ below) ∧ mine'.map kind = own' ∧
      (taken <+: mine ∨ (mine = [] ∧ taken = found ∧ given = found ++ found)) := by
  have first : taken.map kind <+: (taken ++ rest).map kind := by simp
  cases moves with
  | @acts tk gk rk known =>
    have second : tk <+: (taken ++ rest).map kind := by
      rw [stack, List.map_append, kinds]
      exact ⟨rk ++ (found ++ below).map kind, by simp⟩
    obtain ⟨rfl, rfl⟩ := takes_unique (takes_kinds takes) known first second
    -- The values taken are as many as the first of the hook's own.
    obtain ⟨a, mine', rfl, same, rfl⟩ := List.map_eq_append_iff.mp kinds
    have length : a.length = taken.length := by
      have := congrArg List.length same
      simpa using this
    rw [List.append_assoc] at stack
    obtain ⟨rfl, rfl⟩ := List.append_inj stack length.symm
    exact ⟨given ++ mine', by simp, by simp, .inl (List.prefix_append _ _)⟩
  | @copies k known copy =>
    obtain rfl := List.map_eq_nil_iff.mp kinds
    rw [known] at value
    obtain ⟨v, rfl, rfl⟩ := List.map_eq_singleton_iff.mp value
    subst copy
    obtain ⟨fits, copies⟩ := copy_shuffles v
    cases takes with
    | computes fits' signature =>
      rw [signature_of_shuffles fits copies] at signature
      cases signature
    | shuffles fits' shuffles =>
      have top : [v] <+: taken ++ rest := by simp [stack]
      obtain ⟨rfl, rfl⟩ := shuffles_unique shuffles copies (List.prefix_append _ _) top
      have behind : rest = below := by simpa using stack
      subst behind
      exact ⟨[v], rfl, rfl, .inr ⟨rfl, rfl, rfl⟩⟩

theorem acts_exists (inhabited : ∀ k, ∃ v, kind v = k) {own own' : List ValueKind}
    (moves : Moves pool base i own own') (value : found.map kind = base.toList) {mine : List ν}
    (kinds : mine.map kind = own) : ∃ after, Acts kind pool i (mine ++ (found ++ below)) after := by
  cases moves with
  | acts takes =>
    obtain ⟨taken, rest, rfl, same, rfl⟩ := List.map_eq_append_iff.mp kinds
    obtain ⟨given, _, lifted⟩ := takes_values inhabited takes same
    exact ⟨_, taken, given, rest ++ (found ++ below), lifted, by simp, rfl⟩
  | copies known copy =>
    obtain rfl := List.map_eq_nil_iff.mp kinds
    rw [known] at value
    obtain ⟨v, rfl, rfl⟩ := List.map_eq_singleton_iff.mp value
    subst copy
    obtain ⟨fits, copies⟩ := copy_shuffles v
    exact ⟨_, [v], [v, v], below, .shuffles fits copies, rfl, rfl⟩

theorem executes_next_iff {start : List ν} {is : List (Instruction Label)} {after : List ν} :
    Executes kind pool start (is ++ [i]) after ↔
      ∃ before, Executes kind pool start is before ∧ Acts kind pool i before after := by
  constructor
  · intro run
    generalize whole : is ++ [i] = js at run
    cases run with
    | none => simp at whole
    | next sofar acts =>
      obtain ⟨rfl, rfl⟩ := List.append_inj' whole rfl |>.imp_right List.singleton_inj.mp
      exact ⟨_, sofar, acts⟩
  · rintro ⟨before, sofar, acts⟩
    exact .next sofar acts

/-- However far a hook is carried out, what it found is where it was. -/
theorem kept_of_growth {is : List (Instruction Label)} {peak : Nat} {own : Nat → List ValueKind}
    (growth : Growth pool base is peak own) (value : found.map kind = base.toList) (n : Nat)
    (bound : n ≤ is.length) {stack : List ν}
    (run : Executes kind pool (found ++ below) (is.take n) stack) :
    ∃ mine, stack = mine ++ (found ++ below) ∧ mine.map kind = own n := by
  induction n generalizing stack with
  | zero =>
    rw [List.take_zero] at run
    generalize none : ([] : List (Instruction Label)) = js at run
    cases run with
    | none => exact ⟨[], rfl, by rw [growth.start]; rfl⟩
    | next => simp at none
  | succ n ih =>
    have here : is[n]? = some is[n] := List.getElem?_eq_getElem bound
    rw [← List.take_append_getElem bound, executes_next_iff] at run
    obtain ⟨before, sofar, taken, given, rest, takes, split, rfl⟩ := run
    obtain ⟨mine, stack, kinds⟩ := ih (Nat.le_of_lt bound) sofar
    rw [split] at stack
    obtain ⟨mine', after, kinds', _⟩ :=
      acts_of_moves (growth.moves n _ here) value kinds takes stack
    exact ⟨mine', after, kinds'⟩

end Execution
end ClassHooks
