import ClassHooks.Hook.Site
import ClassHooks.Pool.Basic

/-!
Emission of hook code under a check of the operand stack. An emitter knows the kinds of the values
that its hook has pushed; code that would reach below them, branch, or use a local variable is
refused. A hook is finished when none of its values is left.
-/
namespace ClassHooks

structure Emitter where
  policy : String
  event : Event
  base : Option ValueKind
  /-- Values that the hook has pushed, the top first. -/
  stack : List ValueKind
  /-- Slots of those values, as a number of two bytes. -/
  depth : UInt16
  maxDepth : UInt16
  instructions : Array (Instruction Label)
  deriving Repr

namespace Emitter

def start (policy : String) (site : Site) : Emitter :=
  ⟨policy, site.event, site.base, [], 0, 0, #[]⟩

def top (e : Emitter) : Option ValueKind := e.stack.head?

def push (e : Emitter) (kind : ValueKind) : Except Error Emitter := do
  let depth ← counted UInt16.ofNat UInt16.size (e.depth.toNat + kind.slots)
  return { e with stack := kind :: e.stack, depth, maxDepth := max e.maxDepth depth }

def append (e : Emitter) (i : Instruction Label) : Emitter :=
  { e with instructions := e.instructions.push i }

def finish (e : Emitter) : Except Error Hook :=
  match e.stack with
  | [] => .ok ⟨e.instructions.toList, e.maxDepth⟩
  | _ :: _ => .error (.hook e.policy (.leftover e.stack.length))

end Emitter

structure Emission where
  pool : Pool
  emitter : Emitter

/-- What an operation has done stays, also when it fails. -/
abbrev EmitM := EStateM Error Emission

namespace EmitM

def fail (fault : HookFault) : EmitM α := fun s => .error (.hook s.emitter.policy fault) s

def emitter : EmitM Emitter := fun s => .ok s.emitter s

def push (kind : ValueKind) : EmitM Unit := fun ⟨pool, e⟩ =>
  match e.push kind with
  | .ok e => .ok () ⟨pool, e⟩
  | .error error => .error error ⟨pool, e⟩

def append (i : Instruction Label) : EmitM Unit := fun ⟨pool, e⟩ => .ok () ⟨pool, e.append i⟩

def dropTop : EmitM (Option ValueKind) := fun ⟨pool, e⟩ =>
  .ok e.top ⟨pool, { e with stack := e.stack.tail }⟩

def lower (slots : Nat) : EmitM Unit := fun ⟨pool, e⟩ =>
  .ok () ⟨pool, { e with depth := e.depth - UInt16.ofNat slots }⟩

def pop (expected : ValueKind) : EmitM Unit := do
  match ← dropTop with
  | none => fail (.belowOwnValues expected)
  | some kind =>
    if kind = expected then lower kind.slots
    else fail (.unexpectedKind expected kind)

/-- Takes off values of the kinds given, the last kind first. -/
def popAll (kinds : List ValueKind) : EmitM Unit := kinds.reverse.forM pop

def pushAll (kinds : List ValueKind) : EmitM Unit := kinds.forM push

def inPool (operation : PoolM α) : EmitM α := fun ⟨pool, e⟩ =>
  match operation pool with
  | .ok a pool => .ok a ⟨pool, e⟩
  | .error error pool => .error error ⟨pool, e⟩

/-- Adds to the pool; a refusal is the policy's failure. -/
def constant (use : ConstantUse) (operation : PoolM UInt16) : EmitM UInt16 := fun ⟨pool, e⟩ =>
  match operation pool with
  | .ok index pool => .ok index ⟨pool, e⟩
  | .error error pool => .error (.hook e.policy (.noRoom use error.message)) ⟨pool, e⟩

def pushInt (value : Int32) : EmitM Unit := do
  let n := value.toInt
  if -1 ≤ n ∧ n ≤ 5 then append (.plain (Opcode.iconst0 + value.toInt8.toUInt8))
  else if -128 ≤ n ∧ n ≤ 127 then append ⟨Opcode.bipush, .byte value.toInt8⟩
  else if -32768 ≤ n ∧ n ≤ 32767 then append ⟨Opcode.sipush, .short value.toInt16⟩
  else
    let index ← constant .number (Pool.addInteger value)
    append ⟨Opcode.ldc, .constant index⟩
  push .int

def pushString (text : String) : EmitM Unit := do
  let index ← constant .string (Pool.addString text)
  append ⟨Opcode.ldc, .constant index⟩
  push .reference

def pushNull : EmitM Unit := do
  append (.plain Opcode.aconstNull)
  push .reference

def copyBase (kind : ValueKind) : EmitM Unit := do
  if !(← emitter).stack.isEmpty then fail .covered
  append (.plain (if kind.slots = 2 then Opcode.dup2 else Opcode.dup))
  push kind

def copyReturnValue : EmitM Unit := do
  let e ← emitter
  if e.event ≠ .return then fail (.noReturnValue e.event)
  match e.base with
  | none => fail .returnsVoid
  | some kind => copyBase kind

def copyException : EmitM Unit := do
  let e ← emitter
  if e.event ≠ .error then fail (.noException e.event)
  copyBase .reference

def invokeStatic (owner name descriptor : String) : EmitM Unit := do
  match MethodDescriptor.parse descriptor with
  | .error cause => fail (.descriptor cause)
  | .ok d =>
    popAll (d.parameters.map FieldType.kind)
    let index ← constant .methodReference (Pool.addMethodRef owner name descriptor)
    append ⟨Opcode.invokestatic, .constant index⟩
    match d.returnKind with
    | some kind => push kind
    | none => pure ()

def box (type : FieldType) : EmitM Unit := do
  match type.boxing? with
  | some (wrapper, descriptor) => invokeStatic wrapper "valueOf" descriptor
  | none =>
    if (← emitter).top ≠ some .reference then fail .noReference

def checkcast (className : String) : EmitM Unit := do
  pop .reference
  let index ← constant .classReference (Pool.addClass className)
  append ⟨Opcode.checkcast, .constant index⟩
  push .reference

def discard : EmitM Unit := do
  match (← emitter).top with
  | none => fail .emptyPop
  | some kind =>
    pop kind
    append (.plain (if kind.slots = 2 then Opcode.pop2 else Opcode.pop))

def swap : EmitM Unit := fun ⟨pool, e⟩ =>
  match e.stack with
  | a :: b :: rest =>
    if a.slots = 1 ∧ b.slots = 1 then
      .ok () ⟨pool, { e with stack := b :: a :: rest }.append (.plain Opcode.swap)⟩
    else .error (.hook e.policy .noSwap) ⟨pool, e⟩
  | _ => .error (.hook e.policy .noSwap) ⟨pool, e⟩

/-- Any instruction that goes on to the next one and uses no local variable, with the kinds that
the caller says it takes and gives. -/
def raw (i : Instruction Label) (pops pushes : List ValueKind) : EmitM Unit := do
  if !Opcode.isAssigned i.opcode then fail (.unassigned i.opcode)
  if !(i.flow = .sequential ∨ i.flow = .call) then fail (.changesFlow i.opcode)
  if Opcode.accessesLocals i.opcode then fail (.accessesLocals i.opcode)
  popAll pops
  append i
  pushAll pushes

end EmitM
end ClassHooks
