import ClassHooks.Text.Written

/-!
Stack map frames. A frame keeps its kind, which is relative to the locals of the frame before
it; its position is absolute. The type of positions is a parameter, as for branch targets.
-/
namespace ClassHooks

inductive VerificationType (π : Type) where
  | top
  | integer
  | float
  | double
  | long
  | null
  | uninitializedThis
  | object (className : UInt16)
  | uninitialized (created : π)
  deriving DecidableEq, Repr, Inhabited

namespace VerificationType

def mapPosition {m : Type → Type} [Monad m] (f : π → m ρ) :
    VerificationType π → m (VerificationType ρ)
  | .top => pure .top
  | .integer => pure .integer
  | .float => pure .float
  | .double => pure .double
  | .long => pure .long
  | .null => pure .null
  | .uninitializedThis => pure .uninitializedThis
  | .object c => pure (.object c)
  | .uninitialized p => do return .uninitialized (← f p)

def describe (position : π → String) : VerificationType π → String
  | .top => "Top"
  | .integer => "Integer"
  | .float => "Float"
  | .double => "Double"
  | .long => "Long"
  | .null => "Null"
  | .uninitializedThis => "UninitializedThis"
  | .object c => Text.applied "Object" (toString c.toNat)
  | .uninitialized p => Text.applied "Uninitialized" (position p)

end VerificationType

inductive FrameKind (π : Type) where
  | same
  | sameOneItem (item : VerificationType π)
  | chop (count : UInt8)
  | append (locals : List (VerificationType π))
  | full (locals stack : List (VerificationType π))
  deriving DecidableEq, Repr, Inhabited

namespace FrameKind

def mapPositions {m : Type → Type} [Monad m] (f : π → m ρ) : FrameKind π → m (FrameKind ρ)
  | .same => pure .same
  | .sameOneItem t => do return .sameOneItem (← t.mapPosition f)
  | .chop n => pure (.chop n)
  | .append ls => do return .append (← ls.mapM (·.mapPosition f))
  | .full ls ss => do
    let ls ← ls.mapM (·.mapPosition f)
    let ss ← ss.mapM (·.mapPosition f)
    return .full ls ss

def describe (position : π → String) : FrameKind π → String
  | .same => "Same"
  | .sameOneItem t => Text.applied "SameLocals1" (t.describe position)
  | .chop n => Text.applied "Chop" (toString n.toNat)
  | .append ls => Text.applied "Append" (Text.listing (ls.map (·.describe position)))
  | .full ls ss =>
    Text.labelled "Full" [("locals", Text.listing (ls.map (·.describe position))),
      ("stack", Text.listing (ss.map (·.describe position)))]

end FrameKind

structure Frame (π : Type) where
  position : π
  kind : FrameKind π
  deriving DecidableEq, Repr, Inhabited

namespace Frame

/-- Replaces each position; the frame's own comes last. -/
def mapPositions {m : Type → Type} [Monad m] (f : π → m ρ) (frame : Frame π) : m (Frame ρ) := do
  let kind ← frame.kind.mapPositions f
  let position ← f frame.position
  return ⟨position, kind⟩

end Frame
end ClassHooks
