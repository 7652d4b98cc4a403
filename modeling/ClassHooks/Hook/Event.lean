/-!
The three points of a method at which hooks run.
-/
namespace ClassHooks

inductive Event where
  | enter
  | return
  | error
  deriving DecidableEq, Repr

namespace Event

def text : Event → String
  | .enter => "Enter"
  | .return => "Return"
  | .error => "Error"

end Event
end ClassHooks
