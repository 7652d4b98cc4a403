import ClassHooks.Jar.Lzma.Symbols
import ClassHooks.Jar.Unpacking

/-!
Streams of LZMA data: a single one with a header of its own, and chunks, each of which is coded or
left as it is and tells what of the state before it is forgotten.
-/
namespace ClassHooks.Jar.Lzma

def Decoder.initial : Decoder where
  rest := []
  range := 0xFFFFFFFF
  code := 0
  estimates := #[]
  settings := ⟨0, 0, 0⟩
  state := 0
  distances := (0, 0, 0, 0)
  output := #[]
  start := 0

structure Progress where
  decoder : Decoder
  /-- The dictionary was emptied. -/
  started : Bool
  /-- Settings were given since then. -/
  settled : Bool

def Progress.initial : Progress := ⟨.initial, false, false⟩

/-- The decoder after a chunk of coded data, which fills `packedSize` bytes and gives `size` bytes.
Damage that shows in the bytes that are there counts more than that some are missing. -/
def decode (d : Decoder) (data : Bytes) (packedSize size : Nat) : Except FileFault Decoder :=
  let target := d.output.size + size
  let reading : LzmaM Unit := do
    begin
    steps (some target) (size + 1)
  match reading { d with rest := data } with
  | .ok _ d =>
    if data.length = packedSize && d.rest.isEmpty && d.code = 0 && d.output.size = target then .ok d
    else .error .invalidData
  | .error .unexpectedEnd _ =>
    .error (if data.length = packedSize then .invalidData else .unexpectedEnd)
  | .error _ _ => .error .invalidData

def damaged : UnpackM α := throw .invalidData

def plainChunk (p : Progress) : UnpackM Progress := do
  let size := (← UnpackM.big 2) + 1
  let data ← UnpackM.take size
  return { p with decoder := { p.decoder with output := p.decoder.output ++ data.toArray } }

def codedChunk (p : Progress) (control : Nat) : UnpackM Progress := do
  let size := control % 32 * 65536 + (← UnpackM.big 2) + 1
  let packedSize := (← UnpackM.big 2) + 1
  let d := p.decoder
  let d ← if 0xC0 ≤ control then
      match Settings.ofNumber? (← UnpackM.byte).toNat with
      | some s => if s.previousBits + s.placeBits ≤ 4 then pure (d.reset s) else damaged
      | none => damaged
    else if !p.settled then damaged
    else if 0xA0 ≤ control then pure (d.reset d.settings)
    else pure d
  let d ← UnpackM.lift (decode d (← UnpackM.upTo packedSize) packedSize size)
  return { p with decoder := d, settled := true }

def chunksFrom (p : Progress) : (limit : Nat) → UnpackM (Array UInt8)
  | 0 => damaged
  | limit + 1 => do
    let control := (← UnpackM.byte).toNat
    if control = 0 then return p.decoder.output
    let p := if 0xE0 ≤ control || control = 1 then
        { p with
          decoder := { p.decoder with start := p.decoder.output.size }
          started := true, settled := false }
      else p
    if !p.started then damaged
    else if 0x80 ≤ control then chunksFrom (← codedChunk p control) limit
    else if control ≤ 2 then chunksFrom (← plainChunk p) limit
    else damaged

def chunks : UnpackM (Array UInt8) := do chunksFrom .initial ((← UnpackM.remaining) + 1)

/-- A single stream: settings, the size of the dictionary, and that of the data or a number that
leaves it open. -/
def alone : UnpackM (Array UInt8) := do
  match Settings.ofNumber? (← UnpackM.byte).toNat with
  | none => damaged
  | some s =>
    let _ ← UnpackM.take 4
    let size ← UnpackM.little 8
    let data ← UnpackM.take (← UnpackM.remaining)
    let size := if size = Nat.pow 2 64 - 1 then none else some size
    let reading : LzmaM Unit := do
      begin
      steps size (16384 * (data.length + 1))
    match reading ({ Decoder.initial with rest := data }.reset s) with
    | .ok _ d => return d.output
    | .error _ _ => damaged

def unpack (bytes : Bytes) : Except FileFault Bytes :=
  match alone bytes with
  | .ok out _ => .ok out.toList
  | .error _ _ => .error .invalidData

end ClassHooks.Jar.Lzma
