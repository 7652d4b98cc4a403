import ClassHooks.Jar.Lzma.RangeCoder

/-!
What coded data say: bytes, and copies of what was written before, from a new distance or from one
of the last four.
-/
namespace ClassHooks.Jar.Lzma

/-! Where the estimates stand. -/

def copyPlace : Nat := 0
def repeatPlace : Nat := 192
def repeatFirstPlace : Nat := 204
def repeatSecondPlace : Nat := 216
def repeatThirdPlace : Nat := 228
def repeatLongPlace : Nat := 240
def slotPlace : Nat := 432
def distancePlace : Nat := 688
def alignPlace : Nat := 816
def lengthPlace : Nat := 832
def repeatLengthPlace : Nat := 1346
def bytePlace : Nat := 1860

def fresh (s : Settings) : Array UInt16 :=
  Array.replicate (bytePlace + 0x300 * Nat.pow 2 (s.previousBits + s.placeBits)) even

namespace Decoder

def position (d : Decoder) : Nat := d.output.size - d.start

def before (d : Decoder) (distance : Nat) : UInt8 :=
  if distance < d.position then d.output.getD (d.output.size - distance - 1) 0 else 0

def positionState (d : Decoder) : Nat := d.position % Nat.pow 2 d.settings.positionBits

def nextBytePlace (d : Decoder) : Nat :=
  let s := d.settings
  let group := d.position % Nat.pow 2 s.placeBits * Nat.pow 2 s.previousBits
    + (d.before 0).toNat / Nat.pow 2 (8 - s.previousBits)
  bytePlace + 0x300 * group

def reset (s : Settings) (d : Decoder) : Decoder :=
  { d with estimates := fresh s, settings := s, state := 0, distances := (0, 0, 0, 0) }

end Decoder

def put (b : UInt8) : LzmaM Unit := fun d => .ok () { d with output := d.output.push b }

/-- The rest of a byte that is likely to equal `other`, whose highest bits come first, as long as it
does; `path` is a 1 and the bits that were read. -/
def matchedFrom (base other path : Nat) : (n : Nat) → LzmaM Nat
  | 0 => pure path
  | n + 1 => do
    let expected := other / Nat.pow 2 n % 2
    let value ← bit (base + 0x100 * (1 + expected) + path)
    if value = expected then matchedFrom base other (2 * path + value) n
    else treeFrom base (2 * path + value) n

/-- The next byte; behind a copy, the byte that would have been copied next is unlikely. -/
def nextByte : LzmaM Unit := do
  let d ← get
  let base := d.nextBytePlace
  let path ← if d.state < 7 then treeFrom base 1 8
    else matchedFrom base (d.before d.distances.1).toNat 1 8
  put (UInt8.ofNat path)
  modify fun d => { d with
    state := if d.state < 4 then 0 else if d.state < 10 then d.state - 3 else d.state - 6 }

def length (base positionState : Nat) : LzmaM Nat := do
  if (← bit base) = 0 then tree (base + 2 + 8 * positionState) 3
  else if (← bit (base + 1)) = 0 then return (← tree (base + 130 + 8 * positionState) 3) + 8
  else return (← tree (base + 258) 8) + 16

def distance (length : Nat) : LzmaM Nat := do
  let slot ← tree (slotPlace + 64 * min length 3) 6
  if slot < 4 then return slot
  let bits := slot / 2 - 1
  let high := (2 + slot % 2) * Nat.pow 2 bits
  if slot < 14 then return high + (← reverseTree (distancePlace + high - slot) bits)
  let middle ← evenBits 0 (bits - 4)
  return high + 16 * middle + (← reverseTree alignPlace 4)

def copyBack (distance : Nat) : (n : Nat) → LzmaM Unit
  | 0 => pure ()
  | n + 1 => do
    put ((← get).before distance)
    copyBack distance n

def copyLast (length : Nat) : LzmaM Unit := do
  let d ← get
  if d.position ≤ d.distances.1 then corrupt
  copyBack d.distances.1 length

def endDistance : Nat := 0xFFFFFFFF

/-- A copy from a new distance; `false` if it is the end. -/
def newCopy : LzmaM Bool := do
  let d ← get
  let (a, b, c, _) := d.distances
  let n ← length lengthPlace d.positionState
  let far ← distance n
  modify fun d => { d with
    distances := (far, a, b, c), state := if d.state < 7 then 7 else 10 }
  if far = endDistance then return false
  copyLast (n + 2)
  return true

def otherFirst (state : Nat) : LzmaM (Nat × Nat × Nat × Nat) := do
  let (a, b, c, e) := (← get).distances
  if (← bit (repeatSecondPlace + state)) = 0 then return (b, a, c, e)
  else if (← bit (repeatThirdPlace + state)) = 0 then return (c, a, b, e)
  else return (e, a, b, c)

def repeatedByte : LzmaM Unit := do
  modify fun d => { d with state := if d.state < 7 then 9 else 11 }
  copyLast 1

def longCopy (positionState : Nat) : LzmaM Unit := do
  let n ← length repeatLengthPlace positionState
  modify fun d => { d with state := if d.state < 7 then 8 else 11 }
  copyLast (n + 2)

def repeatedCopy : LzmaM Unit := do
  let d ← get
  if (← bit (repeatFirstPlace + d.state)) = 0 then
    if (← bit (repeatLongPlace + 16 * d.state + d.positionState)) = 0 then
      repeatedByte
    else longCopy d.positionState
  else
    let distances ← otherFirst d.state
    modify fun d => { d with distances }
    longCopy d.positionState

/-- The next byte or copy; `false` at the end. -/
def step : LzmaM Bool := do
  let d ← get
  if (← bit (copyPlace + 16 * d.state + d.positionState)) = 0 then
    nextByte
    return true
  else if (← bit (repeatPlace + d.state)) = 0 then newCopy
  else
    repeatedCopy
    return true

def steps (size : Option Nat) : (limit : Nat) → LzmaM Unit
  | 0 => corrupt
  | limit + 1 => do
    let written := (← get).output.size
    if size.any (· ≤ written) then pure ()
    else if ← step then steps size limit
    else pure ()

end ClassHooks.Jar.Lzma
