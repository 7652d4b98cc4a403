import ClassHooks.Jar.Deflate.Repeat

/-!
Writing a deflate stream. Tokens are gathered into blocks; a short block uses the fixed codes, a
longer one codes made for it, and one that would grow is stored as it is.
-/
namespace ClassHooks.Jar

structure BitWriter where
  bytes : Array UInt8
  bits : Nat
  count : Nat

namespace BitWriter

def empty : BitWriter := ⟨#[], 0, 0⟩

def pushBytes (bytes : Array UInt8) (value : Nat) : (n : Nat) → Array UInt8
  | 0 => bytes
  | n + 1 => pushBytes (bytes.push (UInt8.ofNat value)) (value / 256) n

def put : BitWriter → (value width : Nat) → BitWriter
  | ⟨bytes, bits, count⟩, value, width =>
    let bits := bits + value <<< count
    let whole := (count + width) / 8
    ⟨pushBytes bytes bits whole, bits >>> (8 * whole), (count + width) % 8⟩

def align (w : BitWriter) : BitWriter := w.put 0 ((8 - w.count) % 8)

def putWord (words : Array (Nat × Nat)) (w : BitWriter) (symbol : Nat) : BitWriter :=
  let (word, n) := words.getD symbol (0, 0)
  w.put word n

end BitWriter

/-- Tokens that are written together; `size` bytes from `start` on are what they stand for. -/
structure Block where
  start : Nat
  tokens : Array Token
  copies : Nat
  size : Nat

namespace Block

def opened (start : Nat) : Block := ⟨start, #[], 0, 0⟩

def add : Block → Token → Block
  | ⟨start, tokens, copies, size⟩, .literal b => ⟨start, tokens.push (.literal b), copies, size + 1⟩
  | ⟨start, tokens, copies, size⟩, .copy c =>
    ⟨start, tokens.push (.copy c), copies + 1, size + c.length⟩

/-- Cells that the tokens take: one for a byte, three for a copy, and one more for eight tokens. -/
def cells (b : Block) : Nat := 1 + b.tokens.size + 2 * b.copies + b.tokens.size / 8

/-- A block ends when its cells run out, or when it is long and its cells save nothing. -/
def isFull (b : Block) : Bool :=
  65528 < b.cells || (31744 < b.size && b.size ≤ b.cells * 115 / 128)

def uses (tokens : Array Token) : List Nat × List Nat :=
  let tally (table : Array Nat) (i : Nat) := table.modify i (· + 1)
  let (literals, distances) := tokens.foldl (fun (literals, distances) t => match t with
    | .literal b => (tally literals b.toNat, distances)
    | .copy c => (tally literals (firstLength + (symbolOf lengthTable c.length).1),
        tally distances (symbolOf distanceTable c.distance).1))
    ((Array.replicate 286 0).set! endOfBlock 1, Array.replicate 30 0)
  (literals.toList, distances.toList)

def putToken (literals distances : Array (Nat × Nat)) (w : BitWriter) : Token → BitWriter
  | .literal b => w.putWord literals b.toNat
  | .copy c =>
    let (length, lengthExtra, lengthBits) := symbolOf lengthTable c.length
    let (distance, distanceExtra, distanceBits) := symbolOf distanceTable c.distance
    let w := (w.putWord literals (firstLength + length)).put lengthExtra lengthBits
    (w.putWord distances distance).put distanceExtra distanceBits

def putTokens (literals distances : List Nat) (tokens : Array Token) (w : BitWriter) : BitWriter :=
  let literals := PrefixCode.words literals
  let w := tokens.foldl (putToken literals (PrefixCode.words distances)) w
  w.putWord literals endOfBlock

abbrev LengthSymbol := Nat × Nat × Nat

def zeros (n : Nat) : List LengthSymbol :=
  let left := n % 138
  List.replicate (n / 138) (18, 127, 7) ++
    if left < 3 then List.replicate left (0, 0, 0)
    else if left ≤ 10 then [(17, left - 3, 3)]
    else [(18, left - 11, 7)]

def again (length n : Nat) : List LengthSymbol :=
  let left := n % 6
  List.replicate (n / 6) (16, 3, 2) ++
    if left < 3 then List.replicate left (length, 0, 0) else [(16, left - 3, 2)]

def packRun : List Nat → List LengthSymbol
  | [] => []
  | 0 :: rest => zeros (rest.length + 1)
  | length :: rest => (length, 0, 0) :: again length rest.length

def packLengths (lengths : List Nat) : List LengthSymbol :=
  (lengths.splitBy (· == ·)).flatMap packRun

def trimmed (least : Nat) (lengths : List Nat) : List Nat :=
  let size := (lengths.reverse.dropWhile (· = 0)).length
  lengths.take (max least size)

def putCodes (literals distances : List Nat) (w : BitWriter) : BitWriter :=
  let packed := packLengths (literals ++ distances)
  let uses := packed.foldl (fun table p => table.modify p.1 (· + 1)) (Array.replicate 19 0)
  let lengths := PrefixCode.lengthsFor 7 uses.toList
  let ordered := trimmed 4 (lengthOrder.map fun symbol => lengths.getD symbol 0)
  let w := w.put (literals.length - 257) 5
  let w := w.put (distances.length - 1) 5
  let w := w.put (ordered.length - 4) 4
  let w := ordered.foldl (fun w n => w.put n 3) w
  let words := PrefixCode.words lengths
  packed.foldl (fun w (symbol, extra, bits) => (w.putWord words symbol).put extra bits) w

def putPacked (b : Block) (w : BitWriter) : BitWriter :=
  if b.size < 48 then putTokens fixedLiterals fixedDistances b.tokens (w.put 1 2)
  else
    let (literals, distances) := uses b.tokens
    let literals := trimmed 257 (PrefixCode.lengthsFor 15 literals)
    let distances := trimmed 1 (PrefixCode.lengthsFor 15 distances)
    putTokens literals distances b.tokens (putCodes literals distances (w.put 2 2))

def putStored (data : Array UInt8) (b : Block) (w : BitWriter) : BitWriter :=
  let w := (w.put 0 2).align
  let w := (w.put b.size 16).put (65535 - b.size) 16
  (data.extract b.start (b.start + b.size)).foldl (fun w byte => w.put byte.toNat 8) w

/-- Writes a block. Of one that would grow the bytes are stored instead, if they are `kept`. -/
def put (data : Array UInt8) (last kept : Bool) (b : Block) (w : BitWriter) : BitWriter :=
  let w := w.put (if last then 1 else 0) 1
  let packed := b.putPacked w
  if kept && 32 < b.size && b.size ≤ packed.bytes.size - w.bytes.size + 1 then b.putStored data w
  else packed

end Block

namespace Repeats

/-- How many bytes before `place + passed` are kept after a step at `place`. -/
def keptBefore (r : Repeats) (place passed : Nat) : Nat :=
  let ahead := min lengthLimit (r.data.size - place)
  min window (min (window - ahead) place + passed)

/-- Writes the tokens from `place` on, of which `b` takes the first. A step passes a byte at least,
so `steps` bounds their number. -/
def putBlocks (r : Repeats) (place : Nat) (held : Option Copy) (b : Block) (w : BitWriter) :
    (steps : Nat) → BitWriter
  | 0 => w
  | steps + 1 =>
    if r.data.size ≤ place then
      b.put r.data true (place - b.start ≤ window) w
    else
      let (tokens, held, passed) := r.step place held
      let b := tokens.foldl Block.add b
      let next := place + passed
      if b.isFull then
        let w := b.put r.data false (next - b.start ≤ r.keptBefore place passed) w
        putBlocks r next held (.opened (b.start + b.size)) w steps
      else putBlocks r next held b w steps

end Repeats

def deflate (bytes : Bytes) : Bytes :=
  let r := Repeats.ofBytes bytes
  (r.putBlocks 0 none (.opened 0) .empty (r.data.size + 1)).align.bytes.toList

end ClassHooks.Jar
