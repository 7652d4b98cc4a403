import ClassHooks.Bytes.Cursor

/-!
The range coder of LZMA. A bit is read with an estimate of how often it is 0, in parts of 2048, and
the estimate moves towards the bit that was read.
-/
namespace ClassHooks.Jar.Lzma

/-- Settings of a stream: bits of the byte before and of the position that choose among the
estimates for a byte, and bits of the position that choose among those for what follows. -/
structure Settings where
  previousBits : Nat
  placeBits : Nat
  positionBits : Nat
  deriving Repr

namespace Settings

def ofNumber? (n : Nat) : Option Settings :=
  if n < 225 then some ⟨n % 9, n / 9 % 5, n / 45⟩ else none

end Settings

structure Decoder where
  rest : Bytes
  range : UInt32
  code : UInt32
  estimates : Array UInt16
  settings : Settings
  /-- What was read last, in one of 12 kinds. -/
  state : Nat
  /-- The last four distances, each less 1. -/
  distances : Nat × Nat × Nat × Nat
  output : Array UInt8
  /-- Size of the output when the dictionary was emptied. -/
  start : Nat

abbrev LzmaM := EStateM FileFault Decoder

def corrupt : LzmaM α := throw .invalidData

def even : UInt16 := 1024

def normalize : LzmaM Unit := fun d =>
  if d.range < 0x1000000 then
    match d.rest with
    | [] => .error .unexpectedEnd d
    | b :: rest =>
      .ok () { d with rest, range := d.range <<< 8, code := (d.code <<< 8) ||| b.toUInt32 }
  else .ok () d

def learned (isOne : Bool) (estimate : UInt16) : UInt16 :=
  if isOne then estimate - (estimate >>> 5) else estimate + ((2048 - estimate) >>> 5)

def split (place : Nat) : LzmaM Nat := fun d =>
  let bound := (d.range >>> 11) * (d.estimates.getD place even).toUInt32
  if d.code < bound then
    .ok 0 { d with range := bound, estimates := d.estimates.modify place (learned false) }
  else
    .ok 1 { d with
      range := d.range - bound, code := d.code - bound
      estimates := d.estimates.modify place (learned true) }

def bit (place : Nat) : LzmaM Nat := do
  let value ← split place
  normalize
  return value

/-- Bits of which both kinds are equally frequent, behind those of `high`. -/
def evenBits (high : Nat) : (n : Nat) → LzmaM Nat
  | 0 => pure high
  | n + 1 => do
    let value ← fun d =>
      let half := d.range >>> 1
      if d.code < half then .ok 0 { d with range := half }
      else .ok 1 { d with range := half, code := d.code - half }
    normalize
    evenBits (2 * high + value) n

/-- Bits whose estimates form a tree at `base`; `path` is a 1 and the bits that were read. -/
def treeFrom (base path : Nat) : (n : Nat) → LzmaM Nat
  | 0 => pure path
  | n + 1 => do treeFrom base (2 * path + (← bit (base + path))) n

def tree (base n : Nat) : LzmaM Nat := return (← treeFrom base 1 n) - Nat.pow 2 n

def reverseTreeFrom (base path : Nat) : (n : Nat) → LzmaM Nat
  | 0 => pure 0
  | n + 1 => do
    let low ← bit (base + path)
    return low + 2 * (← reverseTreeFrom base (2 * path + low) n)

def reverseTree (base n : Nat) : LzmaM Nat := reverseTreeFrom base 1 n

def begin : LzmaM Unit := fun d =>
  match d.rest with
  | zero :: a :: b :: c :: e :: rest =>
    if zero ≠ 0 then .error .invalidData d
    else .ok () { d with rest, range := 0xFFFFFFFF, code := UInt32.ofNat (Bytes.toNat [a, b, c, e]) }
  | _ => .error .unexpectedEnd d

end ClassHooks.Jar.Lzma
