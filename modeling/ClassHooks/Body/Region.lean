import ClassHooks.Instruction.Basic

/-!
Handler regions: the instructions from `start` up to but not including `finish` are guarded by
`handler`, for one class of exceptions or for all.
-/
namespace ClassHooks

structure Region where
  start : Label
  finish : Label
  handler : Label
  catchType : Option UInt16
  deriving DecidableEq, Repr, Inhabited

namespace Region

def isCatchAll (r : Region) : Bool := r.catchType.isNone

def text (r : Region) : String :=
  let caught := match r.catchType with
    | some c => " catch #" ++ toString c.toNat
    | none => " any"
  "[" ++ r.start.text ++ ", " ++ r.finish.text ++ ") -> " ++ r.handler.text ++ caught

end Region

abbrev Span := Nat × Nat

namespace Span

/-- Neither range holds the other and they share more than an end. -/
def crosses (a b : Span) : Bool :=
  (a.1 < b.1 && b.1 < a.2 && a.2 < b.2) || (b.1 < a.1 && a.1 < b.2 && b.2 < a.2)

def crossings (spans : List Span) : List (Nat × Nat) :=
  go 0 spans
where
  go (i : Nat) : List Span → List (Nat × Nat)
    | [] => []
    | a :: rest =>
      ((rest.zipIdx (i + 1)).filter fun b => crosses a b.1).map (fun b => (i, b.2)) ++ go (i + 1) rest

end Span
end ClassHooks
