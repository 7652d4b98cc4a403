import ClassHooks.Jar.Zstandard.Sequences

/-!
A zstandard stream: frames of blocks, and frames to skip. A frame may tell its size and a checksum.
-/
namespace ClassHooks.Jar.Zstandard

structure Progress where
  code : Option WordTable
  tables : Option (Triple StateTable)
  /-- The last three offsets. -/
  offsets : Nat × Nat × Nat
  output : Array UInt8

def Progress.initial : Progress := ⟨none, none, (1, 4, 8), #[]⟩

/-- The offset that a number stands for, and the last offsets with it in front. If no literals come
before the copy, the first of the last offsets is not meant. -/
def chooseOffset (offsets : Nat × Nat × Nat) (n literals : Nat) : Nat × (Nat × Nat × Nat) :=
  let (a, b, c) := offsets
  let place := if literals = 0 then n + 1 else n
  if 3 < n then (n - 3, (n - 3, a, b))
  else
    match place with
    | 1 => (a, (a, b, c))
    | 2 => (b, (b, a, c))
    | 3 => (c, (c, a, b))
    | _ => (a - 1, (a - 1, a, b))

def copyBack (offset : Nat) (out : Array UInt8) : (n : Nat) → Array UInt8
  | 0 => out
  | n + 1 => copyBack offset (out.push (out.getD (out.size - offset) 0)) n

def write (literals : Array UInt8) (used : Nat) (p : Progress) :
    List Sequence → Except FileFault Progress
  | [] => .ok { p with output := p.output ++ literals.extract used literals.size }
  | s :: rest => do
    demand (used + s.literals ≤ literals.size)
    let output := p.output ++ literals.extract used (used + s.literals)
    let (offset, offsets) := chooseOffset p.offsets s.offset s.literals
    demand (offset ≠ 0 && offset ≤ output.size)
    let output := copyBack offset output s.length
    write literals (used + s.literals) { p with output, offsets } rest

def packedBlock (p : Progress) : UnpackM Progress := do
  let (bytes, code) ← literals p.code
  let (found, tables) ← sequences p.tables
  let before := p.output.size
  let p ← UnpackM.lift (write bytes 0 { p with code, tables } found)
  demand (p.output.size ≤ before + greatestBlock)
  return p

def blocks (greatest : Nat) (p : Progress) : (limit : Nat) → UnpackM (Array UInt8)
  | 0 => corrupt
  | limit + 1 => do
    let header ← UnpackM.little 3
    let size := header / 8
    demand (size ≤ greatest)
    let p ← match header / 2 % 4 with
      | 0 => do
        let data ← UnpackM.take size
        pure { p with output := p.output ++ data.toArray }
      | 1 => do
        let b ← UnpackM.byte
        pure { p with output := p.output ++ Array.replicate size b }
      | 2 => do
        let data ← UnpackM.take size
        UnpackM.whole .unreadable (packedBlock p) data
      | _ => corrupt
    if header % 2 = 1 then return p.output else blocks greatest p limit

/-! The checksum of a frame. -/

def prime1 : UInt64 := 0x9E3779B185EBCA87
def prime2 : UInt64 := 0xC2B2AE3D27D4EB4F
def prime3 : UInt64 := 0x165667B19E3779F9
def prime4 : UInt64 := 0x85EBCA77C2B2AE63
def prime5 : UInt64 := 0x27D4EB2F165667C5

def rotate (n : UInt64) (bits : UInt64) : UInt64 := n <<< bits ||| n >>> (64 - bits)

def wordAt (bytes : Array UInt8) (place width : Nat) : UInt64 :=
  UInt64.ofNat (ofLittle (bytes.extract place (place + width)).toList)

def mix (state word : UInt64) : UInt64 := rotate (state + word * prime2) 31 * prime1

def merge (sum state : UInt64) : UInt64 := (sum ^^^ mix 0 state) * prime1 + prime4

def strips (bytes : Array UInt8) (states : UInt64 × UInt64 × UInt64 × UInt64) (place : Nat) :
    (n : Nat) → UInt64 × UInt64 × UInt64 × UInt64
  | 0 => states
  | n + 1 =>
    let (a, b, c, d) := states
    let word (i : Nat) := wordAt bytes (place + 8 * i) 8
    strips bytes (mix a (word 0), mix b (word 1), mix c (word 2), mix d (word 3)) (place + 32) n

def finish (bytes : Array UInt8) (sum : UInt64) (place : Nat) : (limit : Nat) → UInt64
  | 0 => sum
  | limit + 1 =>
    let left := bytes.size - place
    if 8 ≤ left then
      finish bytes (rotate (sum ^^^ mix 0 (wordAt bytes place 8)) 27 * prime1 + prime4)
        (place + 8) limit
    else if 4 ≤ left then
      finish bytes (rotate (sum ^^^ wordAt bytes place 4 * prime1) 23 * prime2 + prime3)
        (place + 4) limit
    else if 1 ≤ left then
      finish bytes (rotate (sum ^^^ wordAt bytes place 1 * prime5) 11 * prime1) (place + 1) limit
    else sum

def hash (bytes : Array UInt8) : UInt64 :=
  let n := bytes.size / 32
  let sum :=
    if n = 0 then prime5
    else
      let (a, b, c, d) := strips bytes (prime1 + prime2, prime2, 0, 0 - prime1) 0 n
      let sum := rotate a 1 + rotate b 7 + rotate c 12 + rotate d 18
      merge (merge (merge (merge sum a) b) c) d
  let sum := finish bytes (sum + UInt64.ofNat bytes.size) (32 * n) 12
  let sum := (sum ^^^ sum >>> 33) * prime2
  let sum := (sum ^^^ sum >>> 29) * prime3
  sum ^^^ sum >>> 32

structure FrameHeader where
  /-- How far back copies reach. -/
  window : Nat
  size : Option Nat
  hasChecksum : Bool

def greatestWindow : Nat := Nat.pow 2 27 + 1

def sizeField (flag : Nat) (single : Bool) : UnpackM (Option Nat) :=
  match flag with
  | 0 => if single then some <$> UnpackM.little 1 else pure none
  | 1 => return some ((← UnpackM.little 2) + 256)
  | 2 => some <$> UnpackM.little 4
  | _ => some <$> UnpackM.little 8

def frameHeader : UnpackM FrameHeader := do
  let flags := (← UnpackM.byte).toNat
  demand (!flags.testBit 3)
  let single := flags.testBit 5
  let window ← if single then pure 0 else do
    let b := (← UnpackM.byte).toNat
    let base := Nat.pow 2 (10 + b / 8)
    pure (base + base / 8 * (b % 8))
  let dictionary ← UnpackM.little (#[0, 1, 2, 4].getD (flags % 4) 0)
  demand (dictionary = 0)
  let size ← sizeField (flags / 64) single
  let window := if single then size.getD 0 else window
  demand (window ≤ greatestWindow)
  return ⟨window, size, flags.testBit 2⟩

def frame : UnpackM (Array UInt8) := do
  let h ← frameHeader
  let out ← blocks (min h.window greatestBlock) .initial ((← UnpackM.remaining) + 1)
  demand (h.size.all (· = out.size))
  if h.hasChecksum then
    demand ((← UnpackM.little 4) = (hash out).toNat % Nat.pow 2 32)
  return out

inductive FrameKind where
  | data
  | skipped
  deriving DecidableEq, Repr

namespace FrameKind

/-- The four bytes in front of a frame; those to skip leave four bits open. -/
def fits (bytes : Bytes) : FrameKind → Bool
  | .data => bytes.isPrefixOf [0x28, 0xB5, 0x2F, 0xFD]
  | .skipped =>
    match bytes with
    | [] => true
    | first :: rest => first / 16 = 5 && rest.isPrefixOf [0x2A, 0x4D, 0x18]

/-- Bytes that begin no frame are damaged even if some of them are missing. -/
def read : UnpackM FrameKind := do
  let bytes ← UnpackM.upTo 4
  if !fits bytes .data && !fits bytes .skipped then corrupt
  if bytes.length < 4 then throw .unexpectedEnd
  return if fits bytes .data then .data else .skipped

end FrameKind

def frames (out : Array UInt8) : (limit : Nat) → UnpackM (Array UInt8)
  | 0 => corrupt
  | limit + 1 => do
    let out ← match ← FrameKind.read with
      | .data => do
        let data ← frame
        pure (out ++ data)
      | .skipped => do
        let _ ← UnpackM.take (← UnpackM.little 4)
        pure out
    if ← UnpackM.atEnd then return out else frames out limit

def unpack (bytes : Bytes) : Except FileFault Bytes :=
  match frames #[] (bytes.length + 1) bytes with
  | .ok out _ => .ok out.toList
  | .error e _ => .error e

end ClassHooks.Jar.Zstandard
