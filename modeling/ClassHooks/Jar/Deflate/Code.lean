import ClassHooks.Jar.PrefixCode

/-!
Codes for a deflate stream: the lengths of their words are chosen by how often each symbol is used,
and are limited.
-/
namespace ClassHooks.Jar

structure Subtree where
  weight : Nat
  depths : List Nat
  deriving Repr

namespace Subtree

def leaf (weight : Nat) : Subtree := ⟨weight, [0]⟩

def join (a b : Subtree) : Subtree := ⟨a.weight + b.weight, (a.depths ++ b.depths).map (· + 1)⟩

def lightest : List Subtree → List Subtree → Option (Subtree × List Subtree × List Subtree)
  | [], [] => none
  | [], part :: parts => some (part, [], parts)
  | leaf :: leaves, [] => some (leaf, leaves, [])
  | leaf :: leaves, part :: parts =>
    if part.weight < leaf.weight then some (part, leaf :: leaves, parts)
    else some (leaf, leaves, part :: parts)

/-- Joins the two lightest parts `joins` times; leaves and joined parts stand lightest first. -/
def build (leaves parts : List Subtree) : (joins : Nat) → List Subtree
  | 0 => parts
  | joins + 1 =>
    match lightest leaves parts with
    | none => parts
    | some (a, leaves, parts) =>
      match lightest leaves parts with
      | none => [a]
      | some (b, leaves, parts) => build leaves (parts ++ [a.join b]) joins

end Subtree

namespace PrefixCode

def depths (weights : List Nat) : List Nat :=
  if weights.length < 2 then weights.map fun _ => 1
  else (Subtree.build (weights.map .leaf) [] (weights.length - 1)).flatMap Subtree.depths

/-- Of the numbers of words, longest first, the first length but one that has a word gives one up,
which makes room for two that are a bit longer. -/
def lengthen : List Nat → List Nat
  | longer :: shorter :: rest =>
    if shorter = 0 then longer :: lengthen (shorter :: rest)
    else (longer + 2) :: (shorter - 1) :: rest
  | counts => counts

def relieve : List Nat → List Nat
  | longest :: rest => lengthen ((longest - 1) :: rest)
  | [] => []

def relieveTimes : (times : Nat) → List Nat → List Nat
  | 0, counts => counts
  | times + 1, counts => relieveTimes times (relieve counts)

/-- How many words of `limit` bits, of `limit - 1` bits and so on there are, if longer words are cut
to `limit` bits and the words they then take twice are found again. -/
def limited (limit : Nat) (depths : List Nat) : List Nat :=
  let cut := depths.map (min limit)
  let counts := (List.range limit).map fun i => cut.count (limit - i)
  let taken := cut.foldl (fun n depth => n + Nat.pow 2 (limit - depth)) 0
  relieveTimes (taken - Nat.pow 2 limit) counts

/-- Lengths of at most `limit` bits for symbols that are used so often. The most used symbols have
the shortest words, and of equally used ones those with the greater number. -/
def lengthsFor (limit : Nat) (uses : List Nat) : List Nat :=
  let used := (uses.zipIdx.filter fun p => p.1 ≠ 0).mergeSort fun a b => decide (a.1 ≤ b.1)
  let counts := (limited limit (depths (used.map (·.1)))).reverse
  let lengths := counts.zipIdx.flatMap fun p => List.replicate p.1 (p.2 + 1)
  ((used.reverse.zip lengths).foldl (fun table p => table.setIfInBounds p.1.2 p.2)
    (Array.replicate uses.length 0)).toList

end PrefixCode
end ClassHooks.Jar
