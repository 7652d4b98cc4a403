import ClassHooks.Bytes.Cursor

/-!
Bits that are read from the end of some bytes. The highest 1 of the last byte marks where they
begin.
-/
namespace ClassHooks.Jar.Zstandard

/-- The bytes, the bits of them that are left, and whether more were asked for. -/
structure Tail where
  bytes : Array UInt8
  left : Nat
  exceeded : Bool

abbrev TailM := EStateM FileFault Tail

def corrupt [MonadExcept FileFault m] : m α := throw .unreadable

def demand [Monad m] [MonadExcept FileFault m] (condition : Bool) : m Unit :=
  if condition then pure () else corrupt

def bitAt (bytes : Array UInt8) (place : Nat) : Nat :=
  (bytes.getD (place / 8) 0).toNat >>> (place % 8) % 2

def bitsBefore (bytes : Array UInt8) (high : Nat) (place : Nat) : (n : Nat) → Nat
  | 0 => high
  | n + 1 => bitsBefore bytes (2 * high + bitAt bytes (place - 1)) (place - 1) n

namespace Tail

def ofBytes (bytes : Array UInt8) : Except FileFault Tail :=
  match bytes.back? with
  | none => corrupt
  | some last =>
    if last = 0 then corrupt
    else .ok ⟨bytes, 8 * (bytes.size - 1) + Nat.log2 last.toNat, false⟩

/-- The next `n` bits; where there are none left, zeros follow. -/
def peek (t : Tail) (n : Nat) : Nat :=
  let given := min n t.left
  bitsBefore t.bytes 0 t.left given * Nat.pow 2 (n - given)

def drop (t : Tail) (n : Nat) : Tail :=
  { t with left := t.left - n, exceeded := t.exceeded || t.left < n }

def isSpent (t : Tail) : Bool := t.left = 0 && !t.exceeded

end Tail

def number (n : Nat) : TailM Nat := fun t => .ok (t.peek n) (t.drop n)

def readTail (reader : TailM α) (bytes : Array UInt8) : Except FileFault α := do
  match reader (← Tail.ofBytes bytes) with
  | .ok a _ => return a
  | .error e _ => throw e

end ClassHooks.Jar.Zstandard
