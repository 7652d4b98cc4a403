import ClassHooks.Descriptor.Basic
import ClassHooks.Instruction.Basic
import ClassHooks.Hook.Event

/-!
Where a hook runs, and the code that it contributes there.
-/
namespace ClassHooks

structure MethodName where
  className : String
  method : String
  descriptor : String
  deriving DecidableEq, Repr

namespace MethodName

def text (m : MethodName) : String := m.className ++ "." ++ m.method ++ m.descriptor

end MethodName

structure Site where
  method : MethodName
  event : Event
  /-- What the method returns; nothing for a method without a result. -/
  returnType : Option FieldType
  deriving DecidableEq, Repr

namespace Site

def text (s : Site) : String := s.method.text ++ " @ " ++ s.event.text

/-- The kind of the value that lies on top of the stack before the hook runs. -/
def base (s : Site) : Option ValueKind :=
  match s.event with
  | .enter => none
  | .return => s.returnType.map FieldType.kind
  | .error => some .reference

end Site

/-- Instructions, and the slots by which they let the stack grow at most. -/
structure Hook where
  instructions : List (Instruction Label)
  maxStack : UInt16
  deriving DecidableEq, Repr

namespace Hook

def empty : Hook := ⟨[], 0⟩

def append (a b : Hook) : Hook := ⟨a.instructions ++ b.instructions, max a.maxStack b.maxStack⟩

end Hook
end ClassHooks
