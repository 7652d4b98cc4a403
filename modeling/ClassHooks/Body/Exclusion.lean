import ClassHooks.Body.Region
import ClassHooks.Error
import Std.Data.TreeMap

/-!
Taking spans of code out of handler regions. What is left of a region is a list of regions with
the same handler, in the order of the code.
-/
namespace ClassHooks

structure CodeSpan where
  begin : Label
  resume : Label
  deriving DecidableEq, Repr

def labelRanks (items : List Item) : Std.TreeMap Label Nat :=
  (items.foldl (fun (state : Std.TreeMap Label Nat × Nat) item =>
    match item with
    | .mark l => (state.1.insert l state.2, state.2)
    | .op _ => (state.1, state.2 + 1)) (∅, 0)).1

namespace Region

def rank (ranks : Std.TreeMap Label Nat) (l : Label) : Except Error Nat :=
  match ranks[l]? with
  | some n => .ok n
  | none => .error (.undefinedLabel l)

/-- The pieces of a region from `cursor` on that lie outside the spans; `pieces` holds those
before it, last first. A span that does not lie in what is left of the region is passed over. -/
def piecesFrom (ranks : Std.TreeMap Label Nat) (r : Region) (finish : Nat) (cursor : Label)
    (pieces : List Region) : List CodeSpan → Except Error (List Region)
  | [] => do
    if (← rank ranks cursor) < finish then return ({ r with start := cursor } :: pieces).reverse
    else return pieces.reverse
  | s :: rest => do
    let begin ← rank ranks s.begin
    let here ← rank ranks cursor
    let resume ← rank ranks s.resume
    if begin < here ∨ finish < resume then piecesFrom ranks r finish cursor pieces rest
    else if here < begin then
      piecesFrom ranks r finish s.resume ({ r with start := cursor, finish := s.begin } :: pieces)
        rest
    else piecesFrom ranks r finish s.resume pieces rest

def outside (ranks : Std.TreeMap Label Nat) (spans : List CodeSpan) (r : Region) :
    Except Error (List Region) := do
  let finish ← rank ranks r.finish
  piecesFrom ranks r finish r.start [] spans

def exclude (items : List Item) (regions : List Region) (spans : List CodeSpan) :
    Except Error (List Region) := do
  if spans.isEmpty then return regions
  let ranks := labelRanks items
  return (← regions.mapM (outside ranks spans)).flatten

end Region
end ClassHooks
