import ClassHooks.Jar.Unpacking
import ClassHooks.Jar.Zstandard.StateTable

/-!
The bytes of a block that are no copies: as they are, one byte many times, or in a code of whole
bits that the block gives or the block before it gave.
-/
namespace ClassHooks.Jar.Zstandard

structure WordTable where
  log : Nat
  entries : Array (UInt8 × Nat)

namespace WordTable

/-- The weight of the last symbol, which fills up the table, and the table's `log`. -/
def lastWeight (weights : List Nat) : Except FileFault (Nat × Nat) := do
  let total := (weights.filter (· ≠ 0)).foldl (fun n w => n + Nat.pow 2 (w - 1)) 0
  demand (total ≠ 0 && weights.all (· ≤ 12))
  let log := Nat.log2 total + 1
  let left := Nat.pow 2 log - total
  demand (log ≤ 12 && left = Nat.pow 2 (Nat.log2 left))
  return (Nat.log2 left + 1, log)

def ofWeights (weights : List Nat) : Except FileFault WordTable := do
  let (last, log) ← lastWeight weights
  let weights := weights ++ [last]
  let least := weights.count 1
  demand (2 ≤ least && least % 2 = 0 && weights.length ≤ 256)
  let entries := (List.range log).flatMap fun w =>
    (weights.zipIdx.filter fun p => p.1 = w + 1).flatMap fun p =>
      List.replicate (Nat.pow 2 w) (UInt8.ofNat p.2, log - w)
  return ⟨log, entries.toArray⟩

/-- Weights from two states in turn, until more bits are asked for than there are. -/
def weightsFrom (t : StateTable) (a b : Nat) (found : List Nat) :
    (limit : Nat) → TailM (List Nat)
  | 0 => corrupt
  | limit + 1 => do
    let found := (t.state a).symbol :: found
    let a ← nextState t a
    if (← get).exceeded then return ((t.state b).symbol :: found).reverse
    weightsFrom t b a found limit

def packedWeights (bytes : Bytes) : Except FileFault (List Nat) := do
  let (table, rest) ← readTable 6 13 bytes
  let reader : TailM (List Nat) := do
    let a ← firstState table
    let b ← firstState table
    demand (!(← get).exceeded)
    weightsFrom table a b [] 256
  readTail reader rest.toArray

def read : UnpackM WordTable := do
  let size := (← UnpackM.byte).toNat
  let weights ← if size < 128 then do
      let bytes ← UnpackM.take size
      UnpackM.lift (packedWeights bytes)
    else do
      let n := size - 127
      let bytes ← UnpackM.take ((n + 1) / 2)
      pure ((bytes.flatMap fun b => [b.toNat / 16, b.toNat % 16]).take n)
  UnpackM.lift (ofWeights weights)

def decodeFrom (t : WordTable) (out : Array UInt8) : (n : Nat) → TailM (Array UInt8)
  | 0 => do
    demand (← get).isSpent
    return out
  | n + 1 => do
    let (b, bits) := t.entries.getD ((← get).peek t.log) (0, 0)
    modify fun s => s.drop bits
    decodeFrom t (out.push b) n

def decode (t : WordTable) (n : Nat) (bytes : Bytes) : UnpackM (Array UInt8) :=
  UnpackM.lift (readTail (decodeFrom t #[] n) bytes.toArray)

def decodeFour (t : WordTable) (n : Nat) : UnpackM (Array UInt8) := do
  let a ← UnpackM.little 2
  let b ← UnpackM.little 2
  let c ← UnpackM.little 2
  let part := (n + 3) / 4
  demand (3 * part ≤ n)
  let first ← decode t part (← UnpackM.take a)
  let second ← decode t part (← UnpackM.take b)
  let third ← decode t part (← UnpackM.take c)
  let fourth ← decode t (n - 3 * part) (← UnpackM.take (← UnpackM.remaining))
  return first ++ second ++ third ++ fourth

end WordTable

structure LiteralsForm where
  /-- Bytes of the header. -/
  bytes : Nat
  /-- Bits of kind and form. -/
  lead : Nat
  /-- Bits of each size. -/
  width : Nat

def plainForm : Nat → LiteralsForm
  | 1 => ⟨2, 4, 12⟩
  | 3 => ⟨3, 4, 20⟩
  | _ => ⟨1, 3, 5⟩

def packedForm : Nat → LiteralsForm
  | 2 => ⟨4, 4, 14⟩
  | 3 => ⟨5, 4, 18⟩
  | _ => ⟨3, 4, 10⟩

def greatestBlock : Nat := 131072

def literals (code : Option WordTable) : UnpackM (Array UInt8 × Option WordTable) := fun rest =>
  let first := (rest.headD 0).toNat
  let form := first / 4 % 4
  let reader : UnpackM (Array UInt8 × Option WordTable) := do
    if first % 4 < 2 then
      let f := plainForm form
      let size := (← UnpackM.little f.bytes) / Nat.pow 2 f.lead
      demand (size ≤ greatestBlock)
      if first % 4 = 0 then return ((← UnpackM.take size).toArray, code)
      return (Array.replicate size (← UnpackM.byte), code)
    else
      let f := packedForm form
      let header ← UnpackM.little f.bytes
      let size := header / Nat.pow 2 f.lead % Nat.pow 2 f.width
      demand (size ≤ greatestBlock)
      let bytes ← UnpackM.take (header / Nat.pow 2 (f.lead + f.width))
      UnpackM.whole .unreadable (do
        let table ← if first % 4 = 2 then WordTable.read
          else match code with
            | some table => pure table
            | none => corrupt
        let out ← if form = 0 then table.decode size (← UnpackM.take (← UnpackM.remaining))
          else table.decodeFour size
        return (out, some table)) bytes
  reader rest

end ClassHooks.Jar.Zstandard
