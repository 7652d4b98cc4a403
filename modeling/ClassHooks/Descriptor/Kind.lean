/-!
The kinds of values that the operand stack tells apart, and the slots that each takes.
-/
namespace ClassHooks

inductive ValueKind where
  | int
  | long
  | float
  | double
  | reference
  deriving DecidableEq, Repr, Inhabited

namespace ValueKind

def slots : ValueKind → Nat
  | .long | .double => 2
  | _ => 1

def text : ValueKind → String
  | .int => "Int"
  | .long => "Long"
  | .float => "Float"
  | .double => "Double"
  | .reference => "Reference"

end ValueKind
end ClassHooks
