import ClassHooks.Error.Malformation
import ClassHooks.Descriptor.Kind
import ClassHooks.Hook.Event

/-!
What a hook policy can do wrong while it emits code.
-/
namespace ClassHooks

inductive ConstantUse where
  | number
  | string
  | methodReference
  | classReference
  deriving DecidableEq, Repr

namespace ConstantUse

def text : ConstantUse → String
  | .number => "constant"
  | .string => "string constant"
  | .methodReference => "method reference"
  | .classReference => "class constant"

end ConstantUse

inductive HookFault where
  | duplicateName
  | unexpectedKind (expected found : ValueKind)
  | belowOwnValues (expected : ValueKind)
  | noRoom (use : ConstantUse) (cause : String)
  | noReturnValue (event : Event)
  | returnsVoid
  | noException (event : Event)
  | covered
  | descriptor (cause : Malformation)
  | noReference
  | emptyPop
  | noSwap
  | unassigned (opcode : Opcode)
  | changesFlow (opcode : Opcode)
  | accessesLocals (opcode : Opcode)
  | leftover (count : Nat)
  /-- The policy's own refusal. -/
  | stated (message : String)
  deriving DecidableEq, Repr

def Opcode.unassignedText (op : Opcode) : String :=
  "Invalid opcode 0x" ++ Text.hexUpper 2 op.toNat

namespace HookFault

def text : HookFault → String
  | .duplicateName => "a policy with this name is already registered"
  | .unexpectedKind expected found => s!"expected {expected.text} on the stack, found {found.text}"
  | .belowOwnValues expected => s!"pops {expected.text} below the values it pushed"
  | .noRoom use cause => s!"cannot add {use.text}: {cause}"
  | .noReturnValue event => s!"no return value in a {event.text} hook"
  | .returnsVoid => "method returns void"
  | .noException event => s!"no exception in a {event.text} hook"
  | .covered => "value is no longer on top of the stack"
  | .descriptor cause => s!"invalid descriptor: {cause.message}"
  | .noReference => "no reference on top of the stack"
  | .emptyPop => "pop on an empty hook stack"
  | .noSwap => "swap needs two single-slot values"
  | .unassigned opcode => opcode.unassignedText
  | .changesFlow opcode => "'" ++ opcode.mnemonic ++ "' changes control flow"
  | .accessesLocals opcode => "'" ++ opcode.mnemonic ++ "' accesses local variables"
  | .leftover count => s!"leaves {count} value(s) on the stack"
  | .stated message => message

end HookFault
end ClassHooks
