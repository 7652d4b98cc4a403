import Mathlib
import ClassHooks.Proofs.Instruction.Shapes
import ClassHooks.Descriptor.Basic
import ClassHooks.Pool.Basic

/-!
A typed operand stack: what each instruction takes off it and puts there. Values are of any type,
told apart by their kinds; lists of values have the top of the stack first. Only the instructions
that move values about hand on values that were there, all others take some off and give new ones.
-/
namespace ClassHooks

/-- Kinds of the values that an instruction takes off and gives, the last kind on top. -/
structure Signature where
  takes : List ValueKind
  gives : List ValueKind
  deriving DecidableEq, Repr

namespace Signature

def ofMethod (receiver : List ValueKind) (d : MethodDescriptor) : Signature :=
  ⟨receiver ++ d.parameters.map FieldType.kind, d.returnKind.toList⟩

end Signature

namespace Constant

def isFieldRef : Constant → Bool
  | .fieldRef _ _ => true
  | _ => false

def isMethodRef : Constant → Bool
  | .methodRef _ _ | .interfaceMethodRef _ _ => true
  | _ => false

end Constant

namespace Pool

def typeAt? (pool : Pool) (index : UInt16) : Option String :=
  match pool.get index with
  | .ok (.nameAndType _ descriptor) => (pool.utf8 descriptor).toOption
  | _ => none

def fieldKind? (descriptor : String) : Option ValueKind :=
  (FieldType.parse descriptor).toOption.map FieldType.kind

def loadedKind? (pool : Pool) (index : UInt16) : Option ValueKind :=
  match pool.get index with
  | .ok (.integer _) => some .int
  | .ok (.float _) => some .float
  | .ok (.long _) => some .long
  | .ok (.double _) => some .double
  | .ok (.classRef _) | .ok (.string _) | .ok (.methodHandle _ _) | .ok (.methodType _) =>
    some .reference
  | .ok (.dynamic _ nat) => (pool.typeAt? nat).bind fieldKind?
  | _ => none

def referred? (pool : Pool) (sort : Constant → Bool) (index : UInt16) : Option String :=
  match pool.get index, pool.member index with
  | .ok c, .ok (_, _, descriptor) => if sort c then some descriptor else none
  | _, _ => none

def fieldAt? (pool : Pool) (index : UInt16) : Option ValueKind :=
  (pool.referred? Constant.isFieldRef index).bind fieldKind?

def methodAt? (pool : Pool) (index : UInt16) : Option MethodDescriptor :=
  (pool.referred? Constant.isMethodRef index).bind fun descriptor =>
    (MethodDescriptor.parse descriptor).toOption

def dynamicAt? (pool : Pool) (index : UInt16) : Option MethodDescriptor :=
  match pool.get index with
  | .ok (.invokeDynamic _ nat) =>
    (pool.typeAt? nat).bind fun descriptor => (MethodDescriptor.parse descriptor).toOption
  | _ => none

end Pool

namespace Opcode

def family (n : Nat) : ValueKind :=
  match n with
  | 0 => .int
  | 1 => .long
  | 2 => .float
  | 3 => .double
  | _ => .reference

def element (n : Nat) : ValueKind := if n ≤ 4 then family n else .int

/-- What the opcode takes and gives whatever its operand, for those that do not move values about
and need not look into the pool. The address that `jsr` pushes has no kind. -/
def signature? (op : Opcode) : Option Signature :=
  let n := op.toNat
  if n = 0x00 then some ⟨[], []⟩
  else if n = 0x01 then some ⟨[], [.reference]⟩
  else if n ≤ 0x08 then some ⟨[], [.int]⟩
  else if n ≤ 0x0A then some ⟨[], [.long]⟩
  else if n ≤ 0x0D then some ⟨[], [.float]⟩
  else if n ≤ 0x0F then some ⟨[], [.double]⟩
  else if n ≤ 0x11 then some ⟨[], [.int]⟩
  else if n ≤ 0x14 then none
  else if n ≤ 0x19 then some ⟨[], [family (n - 0x15)]⟩
  else if n ≤ 0x2D then some ⟨[], [family ((n - 0x1A) / 4)]⟩
  else if n ≤ 0x35 then some ⟨[.reference, .int], [element (n - 0x2E)]⟩
  else if n ≤ 0x3A then some ⟨[family (n - 0x36)], []⟩
  else if n ≤ 0x4E then some ⟨[family ((n - 0x3B) / 4)], []⟩
  else if n ≤ 0x56 then some ⟨[.reference, .int, element (n - 0x4F)], []⟩
  else if n ≤ 0x5F then none
  else if n ≤ 0x73 then some ⟨[family (n % 4), family (n % 4)], [family (n % 4)]⟩
  else if n ≤ 0x77 then some ⟨[family (n % 4)], [family (n % 4)]⟩
  else if n ≤ 0x7D then some ⟨[family (n % 2), .int], [family (n % 2)]⟩
  else if n ≤ 0x83 then some ⟨[family (n % 2), family (n % 2)], [family (n % 2)]⟩
  else if n = 0x84 then some ⟨[], []⟩
  else if n ≤ 0x90 then
    let source := (n - 0x85) / 3
    let other := (n - 0x85) % 3
    some ⟨[family source], [family (if other < source then other else other + 1)]⟩
  else if n ≤ 0x93 then some ⟨[.int], [.int]⟩
  else if n = 0x94 then some ⟨[.long, .long], [.int]⟩
  else if n ≤ 0x96 then some ⟨[.float, .float], [.int]⟩
  else if n ≤ 0x98 then some ⟨[.double, .double], [.int]⟩
  else if n ≤ 0x9E then some ⟨[.int], []⟩
  else if n ≤ 0xA4 then some ⟨[.int, .int], []⟩
  else if n ≤ 0xA6 then some ⟨[.reference, .reference], []⟩
  else if n = 0xA7 then some ⟨[], []⟩
  else if n = 0xA8 then none
  else if n = 0xA9 then some ⟨[], []⟩
  else if n ≤ 0xAB then some ⟨[.int], []⟩
  else if n ≤ 0xB0 then some ⟨[family (n - 0xAC)], []⟩
  else if n = 0xB1 then some ⟨[], []⟩
  else if n ≤ 0xBA then none
  else if n = 0xBB then some ⟨[], [.reference]⟩
  else if n ≤ 0xBD then some ⟨[.int], [.reference]⟩
  else if n = 0xBE then some ⟨[.reference], [.int]⟩
  else if n = 0xBF then some ⟨[.reference], []⟩
  else if n = 0xC0 then some ⟨[.reference], [.reference]⟩
  else if n = 0xC1 then some ⟨[.reference], [.int]⟩
  else if n ≤ 0xC3 then some ⟨[.reference], []⟩
  else if n ≤ 0xC5 then none
  else if n ≤ 0xC7 then some ⟨[.reference], []⟩
  else if n = 0xC8 then some ⟨[], []⟩
  else none

def dropped? (op : Opcode) : Option Nat :=
  if op = pop then some 1
  else if op = pop2 then some 2
  else none

/-- How many slots the opcode copies, and below how many more it puts the copy. -/
def copied? (op : Opcode) : Option (Nat × Nat) :=
  if dup ≤ op ∧ op < dup2 then some (1, op.toNat - dup.toNat)
  else if dup2 ≤ op ∧ op < swap then some (2, op.toNat - dup2.toNat)
  else none

end Opcode

namespace Instruction

def signature? (pool : Pool) (i : Instruction τ) : Option Signature :=
  match i.operand with
  | .constant index =>
    if i.opcode = 0x12 ∨ i.opcode = 0x13 then
      (pool.loadedKind? index).bind fun k => if k.slots = 1 then some ⟨[], [k]⟩ else none
    else if i.opcode = 0x14 then
      (pool.loadedKind? index).bind fun k => if k.slots = 2 then some ⟨[], [k]⟩ else none
    else if i.opcode = 0xB2 then (pool.fieldAt? index).map fun k => ⟨[], [k]⟩
    else if i.opcode = 0xB3 then (pool.fieldAt? index).map fun k => ⟨[k], []⟩
    else if i.opcode = 0xB4 then (pool.fieldAt? index).map fun k => ⟨[.reference], [k]⟩
    else if i.opcode = 0xB5 then (pool.fieldAt? index).map fun k => ⟨[.reference, k], []⟩
    else if i.opcode = 0xB6 ∨ i.opcode = 0xB7 then
      (pool.methodAt? index).map (Signature.ofMethod [.reference])
    else if i.opcode = 0xB8 then (pool.methodAt? index).map (Signature.ofMethod [])
    else i.opcode.signature?
  | .interfaceCall index _ => (pool.methodAt? index).map (Signature.ofMethod [.reference])
  | .dynamicCall index => (pool.dynamicAt? index).map (Signature.ofMethod [])
  | .multiArray _ dimensions =>
    some ⟨List.replicate dimensions.toNat .int, [.reference]⟩
  | _ => i.opcode.signature?

end Instruction

section Values
variable {ν : Type} (kind : ν → ValueKind)

def slotsOf (vs : List ν) : Nat := (vs.map fun v => (kind v).slots).sum

inductive Shuffles : Opcode → List ν → List ν → Prop where
  | drop {op : Opcode} {vs : List ν} (amount : op.dropped? = some (slotsOf kind vs)) :
      Shuffles op vs []
  | copy {op : Opcode} {vs under : List ν}
      (amount : op.copied? = some (slotsOf kind vs, slotsOf kind under)) :
      Shuffles op (vs ++ under) (vs ++ (under ++ vs))
  | swap {a b : ν} (one : (kind a).slots = 1) (other : (kind b).slots = 1) :
      Shuffles Opcode.swap [a, b] [b, a]

inductive Takes (pool : Pool) (i : Instruction Label) : List ν → List ν → Prop where
  | computes {s : Signature} {taken given : List ν} (fits : i.Fits)
      (signature : i.signature? pool = some s) (operands : taken.map kind = s.takes.reverse)
      (results : given.map kind = s.gives.reverse) : Takes pool i taken given
  | shuffles {taken given : List ν} (fits : i.Fits)
      (shuffles : Shuffles kind i.opcode taken given) : Takes pool i taken given

/-- The instruction is carried out; it does not touch what lies below the values that it takes. -/
def Acts (pool : Pool) (i : Instruction Label) (before after : List ν) : Prop :=
  ∃ taken given below, Takes kind pool i taken given ∧ before = taken ++ below ∧
    after = given ++ below

inductive Executes (pool : Pool) (start : List ν) : List (Instruction Label) → List ν → Prop where
  | none : Executes pool start [] start
  | next {is : List (Instruction Label)} {i : Instruction Label} {before after : List ν}
      (sofar : Executes pool start is before) (acts : Acts kind pool i before after) :
      Executes pool start (is ++ [i]) after

end Values

section Slots
variable {ν : Type} {kind : ν → ValueKind}

theorem slots_positive (k : ValueKind) : 0 < k.slots := by
  cases k <;> decide

theorem slotsOf_append (a b : List ν) : slotsOf kind (a ++ b) = slotsOf kind a + slotsOf kind b := by
  simp [slotsOf]

theorem slotsOf_map (vs : List ν) : slotsOf id (vs.map kind) = slotsOf kind vs := by
  simp [slotsOf, Function.comp_def]

theorem nil_of_slotsOf {vs : List ν} (none : slotsOf kind vs = 0) : vs = [] := by
  cases vs with
  | nil => rfl
  | cons v vs =>
    have := slots_positive (kind v)
    simp [slotsOf] at none
    omega

theorem eq_of_starts {a b stack : List ν} (first : a <+: stack) (second : b <+: stack)
    (same : slotsOf kind a = slotsOf kind b) : a = b := by
  rcases List.prefix_or_prefix_of_prefix first second with ⟨c, rfl⟩ | ⟨c, rfl⟩
  · rw [slotsOf_append] at same
    have none : slotsOf kind c = 0 := by omega
    rw [nil_of_slotsOf none, List.append_nil]
  · rw [slotsOf_append] at same
    have none : slotsOf kind c = 0 := by omega
    rw [nil_of_slotsOf none, List.append_nil]

end Slots

namespace Opcode

theorem moving_facts : ∀ op : Opcode,
    ((dropped? op).isSome → copied? op = none ∧ op ≠ swap) ∧
    ((copied? op).isSome → op ≠ swap) ∧
    ((dropped? op).isSome ∨ (copied? op).isSome ∨ op = swap →
      shape? op = some .nothing ∧ signature? op = none) :=
  forall_of_fin (by decide +kernel)

end Opcode

section Shuffling
variable {ν : Type} {kind : ν → ValueKind} {pool : Pool} {i : Instruction Label}

theorem operand_of_fits (fits : i.Fits) (plain : i.opcode.shape? = some .nothing) :
    i.operand = .nothing := by
  obtain ⟨shape, known, fits⟩ := fits
  rw [plain, Option.some.injEq] at known
  subst known
  cases operand : i.operand <;> simp_all [Operand.fits]

theorem signature_of_shuffles {taken given : List ν} (fits : i.Fits)
    (shuffles : Shuffles kind i.opcode taken given) : i.signature? pool = none := by
  have moving : i.opcode.dropped?.isSome ∨ i.opcode.copied?.isSome ∨ i.opcode = Opcode.swap := by
    generalize i.opcode = op at shuffles
    cases shuffles with
    | drop amount => exact .inl (by simp [amount])
    | copy amount => exact .inr (.inl (by simp [amount]))
    | swap => exact .inr (.inr rfl)
  obtain ⟨plain, none⟩ := (Opcode.moving_facts i.opcode).2.2 moving
  rw [Instruction.signature?, operand_of_fits fits plain, none]

theorem shuffles_map {op : Opcode} {taken given : List ν} (shuffles : Shuffles kind op taken given) :
    Shuffles id op (taken.map kind) (given.map kind) := by
  cases shuffles with
  | drop amount => exact .drop (by rw [amount, slotsOf_map])
  | copy amount =>
    simp only [List.map_append]
    exact .copy (by rw [amount, slotsOf_map, slotsOf_map])
  | swap one other => exact .swap one other

theorem shuffles_lift {op : Opcode} {ks gs : List ValueKind} (shuffles : Shuffles id op ks gs)
    {taken : List ν} (same : taken.map kind = ks) :
    ∃ given, given.map kind = gs ∧ Shuffles kind op taken given := by
  cases shuffles with
  | drop amount =>
    subst same
    exact ⟨[], rfl, .drop (by rw [amount, slotsOf_map])⟩
  | copy amount =>
    obtain ⟨vs, under, rfl, rfl, rfl⟩ := List.map_eq_append_iff.mp same
    refine ⟨vs ++ (under ++ vs), by simp, .copy ?_⟩
    rw [amount, slotsOf_map, slotsOf_map]
  | swap one other =>
    obtain ⟨v, rest, rfl, rfl, behind⟩ := List.map_eq_cons_iff.mp same
    obtain ⟨u, rest, rfl, rfl, last⟩ := List.map_eq_cons_iff.mp behind
    obtain rfl := List.map_eq_nil_iff.mp last
    exact ⟨[u, v], rfl, .swap one other⟩

/-- From the same stack an opcode moves the same values to the same places. -/
theorem shuffles_unique {op : Opcode} {a b g h stack : List ν} (one : Shuffles kind op a g)
    (two : Shuffles kind op b h) (first : a <+: stack) (second : b <+: stack) :
    a = b ∧ g = h := by
  obtain ⟨drops, copies, _⟩ := Opcode.moving_facts op
  cases one with
  | drop amount =>
    cases two with
    | drop amount' =>
      rw [amount, Option.some.injEq] at amount'
      exact ⟨eq_of_starts first second amount', rfl⟩
    | copy amount' =>
      rw [(drops (by simp [amount])).1] at amount'
      cases amount'
    | swap => exact absurd rfl (drops (by simp [amount])).2
  | @copy _ vs under amount =>
    cases two with
    | drop amount' =>
      rw [(drops (by simp [amount'])).1] at amount
      cases amount
    | @copy _ vs' under' amount' =>
      rw [amount, Option.some.injEq, Prod.mk.injEq] at amount'
      have top : vs = vs' :=
        eq_of_starts ((List.prefix_append vs under).trans first)
          ((List.prefix_append vs' under').trans second) amount'.1
      have deep : slotsOf kind (vs ++ under) = slotsOf kind (vs' ++ under') := by
        rw [slotsOf_append, slotsOf_append]
        omega
      have whole : vs ++ under = vs' ++ under' := eq_of_starts first second deep
      subst top
      obtain rfl := List.append_cancel_left whole
      exact ⟨rfl, rfl⟩
    | swap => exact absurd rfl (copies (by simp [amount]))
  | swap =>
    cases two with
    | drop amount' => exact absurd rfl (drops (by simp [amount'])).2
    | copy amount' => exact absurd rfl (copies (by simp [amount']))
    | swap =>
      obtain ⟨rest, rfl⟩ := first
      obtain ⟨rest', same⟩ := second
      cases same
      exact ⟨rfl, rfl⟩

end Shuffling

section Taking
variable {ν : Type} {kind : ν → ValueKind} {pool : Pool} {i : Instruction Label}

theorem takes_kinds {taken given : List ν} (takes : Takes kind pool i taken given) :
    Takes id pool i (taken.map kind) (given.map kind) := by
  cases takes with
  | computes fits signature operands results =>
    exact .computes fits signature (by simpa using operands) (by simpa using results)
  | shuffles fits shuffles => exact .shuffles fits (shuffles_map shuffles)

theorem values_of_kinds (inhabited : ∀ k, ∃ v, kind v = k) (ks : List ValueKind) :
    ∃ vs : List ν, vs.map kind = ks := by
  induction ks with
  | nil => exact ⟨[], rfl⟩
  | cons k ks ih =>
    obtain ⟨v, rfl⟩ := inhabited k
    obtain ⟨vs, rfl⟩ := ih
    exact ⟨v :: vs, rfl⟩

theorem takes_values (inhabited : ∀ k, ∃ v, kind v = k) {ks gs : List ValueKind}
    (takes : Takes id pool i ks gs) {taken : List ν} (same : taken.map kind = ks) :
    ∃ given, given.map kind = gs ∧ Takes kind pool i taken given := by
  cases takes with
  | computes fits signature operands results =>
    obtain ⟨given, known⟩ := values_of_kinds inhabited gs
    refine ⟨given, known, .computes fits signature ?_ ?_⟩
    · rw [same]
      simpa using operands
    · rw [known]
      simpa using results
  | shuffles fits shuffles =>
    obtain ⟨given, known, lifted⟩ := shuffles_lift shuffles same
    exact ⟨given, known, .shuffles fits lifted⟩

/-- The kinds on the stack settle which of them an instruction takes and what it gives. -/
theorem takes_unique {a b g h stack : List ValueKind} (one : Takes id pool i a g)
    (two : Takes id pool i b h) (first : a <+: stack) (second : b <+: stack) :
    a = b ∧ g = h := by
  cases one with
  | computes fits signature operands results =>
    cases two with
    | computes fits' signature' operands' results' =>
      rw [signature, Option.some.injEq] at signature'
      subst signature'
      simp only [List.map_id] at operands results operands' results'
      exact ⟨operands.trans operands'.symm, results.trans results'.symm⟩
    | shuffles fits' shuffles =>
      rw [signature_of_shuffles fits' shuffles] at signature
      cases signature
  | shuffles fits shuffles =>
    cases two with
    | computes fits' signature' =>
      rw [signature_of_shuffles fits shuffles] at signature'
      cases signature'
    | shuffles fits' shuffles' => exact shuffles_unique shuffles shuffles' first second

end Taking
end ClassHooks
