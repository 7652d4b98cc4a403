import ClassHooks.Bytes.Cursor

/-!
The bits of a bzip2 stream, the highest bit of a byte first.
-/
namespace ClassHooks.Jar.Bzip2

structure Bits where
  rest : Bytes
  bit : Nat

abbrev BitM := EStateM FileFault Bits

def corrupt : BitM α := throw .invalidInput

def bit : BitM Nat := fun ⟨rest, bit⟩ =>
  match rest with
  | [] => .error .unexpectedEnd ⟨rest, bit⟩
  | b :: tail =>
    let value := (b.toNat >>> (7 - bit)) % 2
    if bit = 7 then .ok value ⟨tail, 0⟩ else .ok value ⟨rest, bit + 1⟩

def numberFrom (high : Nat) : (n : Nat) → BitM Nat
  | 0 => pure high
  | n + 1 => do numberFrom (2 * high + (← bit)) n

def number (n : Nat) : BitM Nat := numberFrom 0 n

def expect : Bytes → BitM Unit
  | [] => pure ()
  | b :: rest => do
    if (← number 8) ≠ b.toNat then corrupt
    expect rest

/-- How many bits are 1 before one is 0; all `limit` of them must not be. -/
def unary : (limit : Nat) → BitM Nat
  | 0 => corrupt
  | limit + 1 => do
    if (← bit) = 0 then return 0
    return (← unary limit) + 1

def chosen : List α → BitM (List α)
  | [] => pure []
  | a :: rest => do
    let isChosen := (← bit) = 1
    let others ← chosen rest
    return if isChosen then a :: others else others

def times (item : BitM α) : (n : Nat) → BitM (List α)
  | 0 => pure []
  | n + 1 => do
    let a ← item
    return a :: (← times item n)

end ClassHooks.Jar.Bzip2
