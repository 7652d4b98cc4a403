import ClassHooks.Proofs.Hook.Soundness

/-!
Hook code run on symbols. A symbol tells where a value comes from: it was found on the stack, it is a
text of the pool, it is null, or a call has answered it. The machine keeps the calls that were made
with their arguments. It knows the instructions that reports are made of.
-/
namespace ClassHooks

inductive Symbol (ν : Type) where
  | found (value : ν)
  | text (text : String)
  | null
  /-- What the call of this number has answered. -/
  | answer (call : Nat) (kind : ValueKind)
  deriving DecidableEq, Repr

def Symbol.kind (kind : ν → ValueKind) : Symbol ν → ValueKind
  | .found v => kind v
  | .text _ | .null => .reference
  | .answer _ k => k

structure Call (ν : Type) where
  owner : String
  name : String
  descriptor : String
  arguments : List (Symbol ν)
  deriving DecidableEq, Repr

/-- The stack, its top first, and the calls made so far. -/
structure Machine (ν : Type) where
  stack : List (Symbol ν)
  calls : List (Call ν)
  deriving DecidableEq, Repr

namespace Pool

def stringAt? (pool : Pool) (index : UInt16) : Option String :=
  match pool.get index with
  | .ok (.string text) => (pool.utf8 text).toOption
  | _ => none

def calledAt? (pool : Pool) (index : UInt16) : Option (String × String × String) :=
  match pool.get index, pool.member index with
  | .ok c, .ok member => if c.isMethodRef then some member else none
  | _, _ => none

theorem stringAt?_of_holdsText {pool : Pool} {index n : UInt16} {text : String}
    (here : pool.entries[index.toNat]? = some (.string n)) (holds : pool.holdsText n text = true) :
    pool.stringAt? index = some text := by
  unfold stringAt?
  rw [get_of_entry here nofun]
  dsimp only
  rw [utf8_of_holdsText holds]
  rfl

theorem calledAt?_of_holdsMethod {pool : Pool} {index : UInt16} {owner name descriptor : String}
    (holds : pool.HoldsMethod index owner name descriptor) :
    pool.calledAt? index = some (owner, name, descriptor) := by
  have member := member_of_holdsMethod holds
  obtain ⟨o, n, here, _⟩ := holds
  unfold calledAt?
  rw [get_of_entry here nofun, member]
  rfl

end Pool

namespace Machine
variable {ν : Type}

def push (m : Machine ν) (v : Symbol ν) : Machine ν := { m with stack := v :: m.stack }

def start (found : List ν) : Machine ν := ⟨found.map .found, []⟩

def above (m : Machine ν) (found : List ν) : Machine ν :=
  { m with stack := m.stack ++ found.map .found }

def call? (kind : ν → ValueKind) (m : Machine ν) (owner name descriptor : String) :
    Option (Machine ν) :=
  match MethodDescriptor.parse descriptor with
  | .error _ => none
  | .ok d =>
    let taken := m.stack.take d.parameters.length
    if taken.map (Symbol.kind kind) = (d.parameters.map FieldType.kind).reverse then
      some ⟨d.returnKind.toList.map (.answer m.calls.length) ++ m.stack.drop d.parameters.length,
        m.calls ++ [⟨owner, name, descriptor, taken.reverse⟩]⟩
    else none

def copy? (kind : ν → ValueKind) (slots : Nat) (m : Machine ν) : Option (Machine ν) :=
  match m.stack with
  | v :: rest =>
    if (v.kind kind).slots = slots then some { m with stack := v :: v :: rest }
    else
      match rest with
      | u :: below =>
        if (v.kind kind).slots + (u.kind kind).slots = slots then
          some { m with stack := v :: u :: v :: u :: below }
        else none
      | [] => none
  | [] => none

def swap? (kind : ν → ValueKind) (m : Machine ν) : Option (Machine ν) :=
  match m.stack with
  | v :: u :: rest =>
    if (v.kind kind).slots = 1 ∧ (u.kind kind).slots = 1 then
      some { m with stack := u :: v :: rest }
    else none
  | _ => none

def step? (kind : ν → ValueKind) (pool : Pool) (m : Machine ν) (i : Instruction Label) :
    Option (Machine ν) :=
  match i.operand with
  | .nothing =>
    if i.opcode = Opcode.aconstNull then some (m.push .null)
    else if i.opcode = Opcode.dup then m.copy? kind 1
    else if i.opcode = Opcode.dup2 then m.copy? kind 2
    else if i.opcode = Opcode.swap then m.swap? kind
    else none
  | .constant index =>
    if i.opcode = Opcode.ldc then (pool.stringAt? index).map fun text => m.push (.text text)
    else if i.opcode = Opcode.invokestatic then
      (pool.calledAt? index).bind fun (owner, name, descriptor) =>
        m.call? kind owner name descriptor
    else none
  | _ => none

def run? (kind : ν → ValueKind) (pool : Pool) (m : Machine ν) (is : List (Instruction Label)) :
    Option (Machine ν) :=
  is.foldlM (step? kind pool) m

section Stepping
variable {kind : ν → ValueKind} {pool : Pool} {m m' : Machine ν}

theorem run?_append (is js : List (Instruction Label)) :
    m.run? kind pool (is ++ js) = (m.run? kind pool is).bind (run? kind pool · js) :=
  List.foldlM_append

theorem step?_swap : m.step? kind pool (.plain Opcode.swap) = m.swap? kind := rfl

theorem step?_call {index : UInt16} {owner name descriptor : String}
    (called : pool.calledAt? index = some (owner, name, descriptor)) :
    m.step? kind pool ⟨Opcode.invokestatic, .constant index⟩ =
      m.call? kind owner name descriptor := by
  change (pool.calledAt? index).bind _ = _
  rw [called]
  rfl

theorem call?_some {owner name descriptor : String}
    (calls : m.call? kind owner name descriptor = some m') :
    ∃ d taken rest, MethodDescriptor.parse descriptor = .ok d ∧ m.stack = taken ++ rest ∧
      taken.map (Symbol.kind kind) = (d.parameters.map FieldType.kind).reverse ∧
      m' = ⟨d.returnKind.toList.map (.answer m.calls.length) ++ rest,
        m.calls ++ [⟨owner, name, descriptor, taken.reverse⟩]⟩ := by
  unfold call? at calls
  cases parsed : MethodDescriptor.parse descriptor with
  | error cause =>
    rw [parsed] at calls
    cases calls
  | ok d =>
    rw [parsed] at calls
    dsimp only at calls
    split at calls
    · rename_i kinds
      cases calls
      exact ⟨d, _, _, rfl, (List.take_append_drop _ _).symm, kinds, rfl⟩
    · cases calls

theorem call?_of_stack {owner name descriptor : String} {d : MethodDescriptor}
    {taken rest : List (Symbol ν)} (parsed : MethodDescriptor.parse descriptor = .ok d)
    (stack : m.stack = taken ++ rest)
    (kinds : taken.map (Symbol.kind kind) = (d.parameters.map FieldType.kind).reverse) :
    m.call? kind owner name descriptor =
      some ⟨d.returnKind.toList.map (.answer m.calls.length) ++ rest,
        m.calls ++ [⟨owner, name, descriptor, taken.reverse⟩]⟩ := by
  have length : d.parameters.length = taken.length := by
    simpa using (congrArg List.length kinds).symm
  unfold call?
  rw [parsed]
  dsimp only
  rw [stack, length, List.take_left, List.drop_left, if_pos kinds]

theorem call?_above {owner name descriptor : String}
    (calls : m.call? kind owner name descriptor = some m') (found : List ν) :
    (m.above found).call? kind owner name descriptor = some (m'.above found) := by
  obtain ⟨d, taken, rest, parsed, stack, kinds, rfl⟩ := call?_some calls
  have deeper : (m.above found).stack = taken ++ (rest ++ found.map .found) := by
    rw [above, stack, List.append_assoc]
  rw [call?_of_stack parsed deeper kinds]
  simp [above]

theorem swap?_above (swaps : m.swap? kind = some m') (found : List ν) :
    (m.above found).swap? kind = some (m'.above found) := by
  obtain ⟨stack, calls⟩ := m
  unfold swap? at swaps
  dsimp only at swaps
  split at swaps
  · split at swaps
    · rename_i single
      cases swaps
      exact if_pos single
    · cases swaps
  · cases swaps

end Stepping
end Machine
end ClassHooks
