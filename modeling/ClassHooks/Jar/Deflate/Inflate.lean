import ClassHooks.Bytes.Writer
import ClassHooks.Jar.Deflate.Token

/-!
Reading a deflate stream. All three kinds of block are known. Bits are taken from a byte lowest
first. The wide form of the format has longer copies from farther back.
-/
namespace ClassHooks.Jar

structure DeflateForm where
  lengths : Array (Nat × Nat)
  distances : Array (Nat × Nat)
  /-- A code may have at most so many symbols for lengths and for distances, and if it has more than
  one, it must leave no word out. -/
  strict : Bool

namespace DeflateForm

def plain : DeflateForm := ⟨lengthTable, distanceTable, true⟩

def wide : DeflateForm :=
  ⟨lengthTable.pop.push (3, 16), distanceTable ++ #[(32769, 14), (49153, 14)], false⟩

def admits (f : DeflateForm) (literals distances : Nat) : Bool :=
  !f.strict || (literals ≤ 286 && distances ≤ 30)

def allows (f : DeflateForm) (c : PrefixCode) : Bool :=
  if f.strict then c.isComplete || c.symbols.size ≤ 1 else c.used ≤ c.room

def allowsLengths (f : DeflateForm) (c : PrefixCode) : Bool :=
  if f.strict then c.isComplete else c.used ≤ c.room

end DeflateForm

structure Inflation where
  rest : Bytes
  bit : Nat
  output : Array UInt8

abbrev InflateM := EStateM FileFault Inflation

namespace InflateM

def corrupt : InflateM α := throw .invalidInput

def readBit : InflateM Nat := fun ⟨rest, bit, output⟩ =>
  match rest with
  | [] => .error .unexpectedEnd ⟨rest, bit, output⟩
  | b :: tail =>
    let value := (b.toNat >>> bit) % 2
    if bit = 7 then .ok value ⟨tail, 0, output⟩ else .ok value ⟨rest, bit + 1, output⟩

def readBits : Nat → InflateM Nat
  | 0 => pure 0
  | n + 1 => do
    let low ← readBit
    let high ← readBits n
    return low + 2 * high

def alignByte : InflateM Unit := fun ⟨rest, bit, output⟩ =>
  .ok () (if bit = 0 then ⟨rest, 0, output⟩ else ⟨rest.tail, 0, output⟩)

def readByte : InflateM UInt8 := fun ⟨rest, bit, output⟩ =>
  match rest with
  | [] => .error .unexpectedEnd ⟨rest, bit, output⟩
  | b :: rest => .ok b ⟨rest, bit, output⟩

def put (b : UInt8) : InflateM Unit := fun ⟨rest, bit, output⟩ => .ok () ⟨rest, bit, output.push b⟩

def putAgain (distance : Nat) : InflateM Unit := fun ⟨rest, bit, output⟩ =>
  let b := if output.size < distance then 0 else output.getD (output.size - distance) 0
  .ok () ⟨rest, bit, output.push b⟩

/-- Copies from `distance` bytes before, byte by byte; zeros stand in front of all output. -/
def copyBack (distance : Nat) : Nat → InflateM Unit
  | 0 => pure ()
  | n + 1 => do
    putAgain distance
    copyBack distance n

def copyBytes : Nat → InflateM Unit
  | 0 => pure ()
  | n + 1 => do
    put (← readByte)
    copyBytes n

def symbol (c : PrefixCode) : InflateM Nat := c.read readBit corrupt

def readValue (table : Array (Nat × Nat)) (symbol : Nat) : InflateM Nat := do
  match table[symbol]? with
  | some (least, bits) => return least + (← readBits bits)
  | none => corrupt

/-- Symbols up to the end of the block; each has a bit at least, so `steps` bounds their number. -/
def symbols (form : DeflateForm) (literals distances : PrefixCode) : (steps : Nat) → InflateM Unit
  | 0 => corrupt
  | steps + 1 => do
    let next ← symbol literals
    if next < 256 then
      put (UInt8.ofNat next)
      symbols form literals distances steps
    else if next = endOfBlock then pure ()
    else
      let length ← readValue form.lengths (next - firstLength)
      let distance ← readValue form.distances (← symbol distances)
      copyBack distance length
      symbols form literals distances steps

def storedBlock : InflateM Unit := do
  alignByte
  let low := (← readByte).toNat
  let high := (← readByte).toNat
  let lowAgain := (← readByte).toNat
  let highAgain := (← readByte).toNat
  if low + lowAgain ≠ 255 || high + highAgain ≠ 255 then corrupt
  copyBytes (low + 256 * high)

/-- Code lengths, `n` of them, where the symbols 16 to 18 repeat a length. -/
def codeLengths (code : PrefixCode) (n : Nat) (lengths : List Nat) :
    (steps : Nat) → InflateM (List Nat)
  | 0 => corrupt
  | steps + 1 => do
    if n ≤ lengths.length then
      if lengths.length = n then return lengths.reverse else corrupt
    else
      let next ← symbol code
      if next < 16 then codeLengths code n (next :: lengths) steps
      else if next = 16 then
        match lengths with
        | [] => corrupt
        | last :: _ =>
          let times ← readBits 2
          codeLengths code n (List.replicate (3 + times) last ++ lengths) steps
      else if next = 17 then
        let times ← readBits 3
        codeLengths code n (List.replicate (3 + times) 0 ++ lengths) steps
      else
        let times ← readBits 7
        codeLengths code n (List.replicate (11 + times) 0 ++ lengths) steps

def shortLengths : Nat → InflateM (List Nat)
  | 0 => pure []
  | n + 1 => do
    let first ← readBits 3
    return first :: (← shortLengths n)

def usable (allowed : PrefixCode → Bool) (limit : Nat) (lengths : List Nat) : InflateM PrefixCode :=
  let code := PrefixCode.ofLengths limit lengths
  if allowed code then pure code else corrupt

def dynamicBlock (form : DeflateForm) (steps : Nat) : InflateM Unit := do
  let literalCount := (← readBits 5) + 257
  let distanceCount := (← readBits 5) + 1
  let lengthCount := (← readBits 4) + 4
  if !form.admits literalCount distanceCount then corrupt
  let ordered := lengthOrder.zip (← shortLengths lengthCount)
  let code ← usable form.allowsLengths 7 ((List.range 19).map fun i => (ordered.lookup i).getD 0)
  let lengths ← codeLengths code (literalCount + distanceCount) [] steps
  let distances ← usable form.allows 15 (lengths.drop literalCount)
  let literals ← usable form.allows 15 (lengths.take literalCount)
  symbols form literals distances steps

def fixedBlock (form : DeflateForm) (steps : Nat) : InflateM Unit :=
  symbols form (.ofLengths 15 fixedLiterals) (.ofLengths 15 fixedDistances) steps

def blocks (form : DeflateForm) (limit : Nat) : (steps : Nat) → InflateM Unit
  | 0 => corrupt
  | steps + 1 => do
    let last ← readBit
    let kind ← readBits 2
    match kind with
    | 0 => storedBlock
    | 1 => fixedBlock form limit
    | 2 => dynamicBlock form limit
    | _ => corrupt
    if last = 1 then pure () else blocks form limit steps

def run (form : DeflateForm) (bytes : Bytes) : EStateM.Result FileFault Inflation Unit :=
  let bits := 8 * bytes.length + 1
  blocks form bits bits ⟨bytes, 0, #[]⟩

end InflateM

def inflate (bytes : Bytes) : Except FileFault Bytes :=
  match InflateM.run .plain bytes with
  | .ok _ s => .ok s.output.toList
  | .error e _ => .error e

def inflateWide (bytes : Bytes) : Except FileFault Bytes :=
  match InflateM.run .wide bytes with
  | .ok _ s | .error .unexpectedEnd s => .ok s.output.toList
  | .error _ _ => .error .invalidData

end ClassHooks.Jar
