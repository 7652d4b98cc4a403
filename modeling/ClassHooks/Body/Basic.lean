import ClassHooks.Body.Region
import ClassHooks.Code.Attribute
import ClassHooks.Code.Frame

/-!
Method bodies in label form. Everything that names a place in the code names a label, so code can
be put between any two items and every reference still names the place it named.
-/
namespace ClassHooks

structure LineMark where
  start : Label
  line : UInt16
  deriving DecidableEq, Repr, Inhabited

structure Variable where
  start : Label
  finish : Label
  name : UInt16
  descriptor : UInt16
  index : UInt16
  deriving DecidableEq, Repr, Inhabited

structure Body where
  maxStack : UInt16
  maxLocals : UInt16
  items : List Item
  /-- In order of precedence. -/
  handlers : List Region
  frames : Option (List (Frame Label))
  lines : List LineMark
  locals : List Variable
  variableTypes : List Variable
  others : List Attribute
  /-- Above the number of every label in use. -/
  nextLabel : UInt32
  deriving DecidableEq, Repr, Inhabited

namespace Body

/-- The next new label once `n` are handed out, unless the numbers run out. -/
def labelsBehind (b : Body) (n : Nat) : Except Error UInt32 :=
  counted UInt32.ofNat UInt32.size (b.nextLabel.toNat + n)

/-- A label that is in use nowhere, and the body in which it is in use. -/
def newLabel (b : Body) : Except Error (Label × Body) := do
  return (⟨b.nextLabel⟩, { b with nextLabel := ← b.labelsBehind 1 })

def instructions (b : Body) : List (Instruction Label) := b.items.filterMap Item.instruction?

def returnCount (b : Body) : Nat := b.instructions.countP Instruction.isReturn

end Body
end ClassHooks
