/-!
Canonical codes. A code is given by the number of bits of each symbol's word; words of one length
are consecutive numbers in the order of their symbols, and shorter words come first.
-/
namespace ClassHooks.Jar

/-- A canonical code: how many words have one bit, two bits, and so on, and the symbols in the order
of their words. -/
structure PrefixCode where
  counts : List Nat
  symbols : Array Nat

namespace PrefixCode

def ofLengths (limit : Nat) (lengths : List Nat) : PrefixCode :=
  let numbered := lengths.zipIdx
  let sizes := (List.range limit).map (· + 1)
  { counts := sizes.map fun n => lengths.count n
    symbols := (sizes.flatMap fun n => (numbered.filter fun p => p.1 = n).map (·.2)).toArray }

def used (c : PrefixCode) : Nat :=
  c.counts.foldl (fun words count => 2 * words + count) 0

def room (c : PrefixCode) : Nat := Nat.pow 2 c.counts.length

def isComplete (c : PrefixCode) : Bool := c.used = c.room

/-- Reads bits until they are a word: `first` is the first word of the next length and `index` its
place among the symbols. -/
@[specialize] def readFrom [Monad m] (bit : m Nat) (corrupt : m Nat) (symbols : Array Nat)
    (word first index : Nat) : List Nat → m Nat
  | [] => corrupt
  | count :: rest => do
    let word := word + (← bit)
    if word < first + count then
      match symbols[index + (word - first)]? with
      | some symbol => return symbol
      | none => corrupt
    else readFrom bit corrupt symbols (2 * word) (2 * (first + count)) (index + count) rest

@[specialize] def readOnly [Monad m] (bit : m Nat) (corrupt : m Nat) (symbol : Nat) :
    List Nat → m Nat
  | [] => corrupt
  | count :: rest => do
    if (← bit) = 1 then corrupt
    else if count = 0 then readOnly bit corrupt symbol rest
    else return symbol

@[specialize] def read [Monad m] (bit : m Nat) (corrupt : m Nat) (c : PrefixCode) : m Nat :=
  if c.symbols.isEmpty then do
    let _ ← bit
    corrupt
  else if c.symbols.size = 1 then readOnly bit corrupt (c.symbols.getD 0 0) c.counts
  else readFrom bit corrupt c.symbols 0 0 0 c.counts

/-- Words for symbols with their lengths, in canonical order; `word` is the next word of `length`
bits. -/
def assign (word length : Nat) : List (Nat × Nat) → List (Nat × Nat × Nat)
  | [] => []
  | (symbol, n) :: rest =>
    let word := word <<< (n - length)
    (symbol, word, n) :: assign (word + 1) n rest

def reversed (word : Nat) : (n : Nat) → Nat
  | 0 => 0
  | n + 1 => word % 2 * Nat.pow 2 n + reversed (word / 2) n

def words (lengths : List Nat) : Array (Nat × Nat) :=
  let numbered := lengths.zipIdx
  let ordered := (List.range 15).flatMap fun n =>
    (numbered.filter fun p => p.1 = n + 1).map fun p => (p.2, p.1)
  (assign 0 0 ordered).foldl (fun table (symbol, word, n) =>
    table.setIfInBounds symbol (reversed word n, n)) (Array.replicate lengths.length (0, 0))

end PrefixCode

end ClassHooks.Jar
