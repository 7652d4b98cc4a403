import ClassHooks.Jar.Checksum
import ClassHooks.Jar.Lzma.Chunks

/-!
An xz stream: blocks of chunks, each with its own header and check, an index of their sizes, and a
footer that agrees with the stream's header.
-/
namespace ClassHooks.Jar.Xz

open Lzma (damaged)

def demand (condition : Bool) : UnpackM Unit := if condition then pure () else damaged

def expect : Bytes → UnpackM Unit
  | [] => pure ()
  | b :: rest => do
    demand ((← UnpackM.byte) = b)
    expect rest

/-- A number of at most `limit` bytes with seven bits each, lowest first; the last byte is less than
128, and it is no needless 0. -/
def sevens : (limit : Nat) → UnpackM Nat
  | 0 => damaged
  | limit + 1 => do
    let b := (← UnpackM.byte).toNat
    if b < 128 then return b
    let high ← sevens limit
    demand (high ≠ 0)
    return b - 128 + 128 * high

def size : UnpackM Nat := sevens 9

def checked (reader : UnpackM α) : UnpackM α := do
  let (a, bytes) ← UnpackM.withBytes reader
  demand ((← UnpackM.little 4) = (checksum bytes).toNat)
  return a

def padding (read : Nat) : UnpackM Unit := expect (List.replicate ((4 - read % 4) % 4) 0)

def longCheckBit (state : UInt64) : UInt64 :=
  if state &&& 1 = 1 then (state >>> 1) ^^^ 0xC96C5795D7870F42 else state >>> 1

def longChecksum (bytes : Array UInt8) : UInt64 :=
  bytes.foldl (fun state b => Nat.repeat longCheckBit 8 (state ^^^ b.toUInt64))
    0xFFFFFFFFFFFFFFFF ^^^ 0xFFFFFFFFFFFFFFFF

def checkSize (kind : Nat) : Nat := if kind = 0 then 0 else Nat.pow 2 ((kind - 1) / 3 + 2)

def check (kind : Nat) (bytes : Array UInt8) : UnpackM Unit := do
  let given ← UnpackM.little (checkSize kind)
  if kind = 1 then demand (given = (checksum bytes.toList).toNat)
  if kind = 4 then demand (given = (longChecksum bytes).toNat)

def header : UnpackM Nat := do
  expect [0xFD, 0x37, 0x7A, 0x58, 0x5A, 0x00]
  checked do
    demand ((← UnpackM.byte) = 0)
    let kind := (← UnpackM.byte).toNat
    if 16 ≤ kind then throw .invalidInput
    return kind

structure BlockHeader where
  packedSize : Option Nat
  fullSize : Option Nat

def optional (given : Bool) (reader : UnpackM α) : UnpackM (Option α) :=
  if given then some <$> reader else pure none

def blockFields : UnpackM BlockHeader := do
  let flags := (← UnpackM.byte).toNat
  let packedSize ← optional (flags.testBit 6) size
  let fullSize ← optional (flags.testBit 7) size
  if flags % 64 ≠ 0 then throw .invalidInput
  let filter ← size
  if filter ≠ 0x21 then throw .invalidInput
  demand ((← size) = 1)
  if 40 < (← UnpackM.byte) then throw .invalidInput
  let rest ← UnpackM.take (← UnpackM.remaining)
  if rest.any (· ≠ 0) then throw .invalidInput
  return ⟨packedSize, fullSize⟩

/-- A block whose header has `first` as its first byte: the sizes for the index and the data. -/
def block (kind : Nat) (first : UInt8) : UnpackM ((Nat × Nat) × Array UInt8) := do
  let headerSize := 4 * (first.toNat + 1)
  let fields ← UnpackM.take (headerSize - 5)
  demand ((← UnpackM.little 4) = (checksum (first :: fields)).toNat)
  let h ← UnpackM.whole .invalidData blockFields fields
  let before ← UnpackM.remaining
  let data ← Lzma.chunks
  let packedSize := before - (← UnpackM.remaining)
  demand (h.packedSize.all (· = packedSize) && h.fullSize.all (· = data.size))
  padding packedSize
  check kind data
  return ((headerSize + packedSize + checkSize kind, data.size), data)

def index (sizes : List (Nat × Nat)) : UnpackM Nat := do
  let (_, bytes) ← UnpackM.withBytes do
    let count ← size
    demand (count = sizes.length)
    let given ← UnpackM.times (return (← size, ← size)) count
    demand (given = sizes)
  let (_, zeros) ← UnpackM.withBytes (padding (bytes.length + 1))
  let content := 0 :: (bytes ++ zeros)
  demand ((← UnpackM.little 4) = (checksum content).toNat)
  return content.length + 4

def footer (kind indexSize : Nat) : UnpackM Unit := do
  let sum ← UnpackM.little 4
  let fields ← UnpackM.take 6
  expect [0x59, 0x5A]
  demand (sum = (checksum fields).toNat)
  demand (4 * (ofLittle (fields.take 4) + 1) = indexSize)
  demand (fields.drop 4 = [0, UInt8.ofNat kind])

def blocks (kind : Nat) (sizes : List (Nat × Nat)) (out : Array UInt8) :
    (limit : Nat) → UnpackM (Array UInt8)
  | 0 => damaged
  | limit + 1 => do
    let first ← UnpackM.byte
    if first = 0 then
      footer kind (← index sizes.reverse)
      return out
    else
      let (size, data) ← block kind first
      blocks kind (size :: sizes) (out ++ data) limit

def unpack (bytes : Bytes) : Except FileFault Bytes :=
  let stream : UnpackM (Array UInt8) := do blocks (← header) [] #[] (bytes.length + 1)
  match stream bytes with
  | .ok out _ => .ok out.toList
  | .error e _ => .error e

end ClassHooks.Jar.Xz
