import ClassHooks.ClassFile

/-!
Which methods are woven.
-/
namespace ClassHooks

structure Candidate where
  className : String
  classFlags : UInt16
  name : String
  descriptor : String
  flags : UInt16
  hasCode : Bool
  deriving DecidableEq, Repr

abbrev Selector := Candidate → Bool

namespace Selector

def native : UInt16 := 0x0100
def abstract : UInt16 := 0x0400

/-- Methods with code that are neither constructors nor abstract nor native. -/
def default : Selector := fun c =>
  c.hasCode && c.name != "<init>" && c.flags &&& (abstract ||| native) == 0

end Selector
end ClassHooks
