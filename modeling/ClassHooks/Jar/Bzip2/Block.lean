import ClassHooks.Jar.Bzip2.Bits
import ClassHooks.Jar.PrefixCode

/-!
A block of a bzip2 stream. It holds the last column of its sorted rotations, as places in a list of
bytes whose last used byte is first, with runs of the first place as numbers; before that, runs of
equal bytes were shortened.
-/
namespace ClassHooks.Jar.Bzip2

def toFront (place : Nat) (list : List α) : Option (α × List α) :=
  list[place]?.map fun a => (a, a :: list.eraseIdx place)

def takeFronts (list : List α) : List Nat → Option (List α)
  | [] => some []
  | place :: rest => do
    let (a, list) ← toFront place list
    return a :: (← takeFronts list rest)

def usedBytes : BitM (List UInt8) := do
  let groups ← chosen (List.range 16)
  let used ← groups.mapM fun g => chosen ((List.range 16).map fun i => UInt8.ofNat (16 * g + i))
  if used.flatten.isEmpty then corrupt
  return used.flatten

/-- The length of a word, which steps up and down from `length`; `steps` bounds the steps. -/
def wordLength (length : Nat) : (steps : Nat) → BitM Nat
  | 0 => corrupt
  | steps + 1 => do
    if length < 1 || 20 < length then corrupt
    else if (← bit) = 0 then return length
    else if (← bit) = 0 then wordLength (length + 1) steps
    else wordLength (length - 1) steps

def wordLengths (steps length : Nat) : (n : Nat) → BitM (List Nat)
  | 0 => pure []
  | n + 1 => do
    let length ← wordLength length steps
    return length :: (← wordLengths steps length n)

def code (steps symbols : Nat) : BitM PrefixCode := do
  let first ← number 5
  return .ofLengths 20 (← wordLengths steps first symbols)

def groupSize : Nat := 50

structure Preface where
  origin : Nat
  used : List UInt8
  /-- The code of each group of symbols. -/
  codes : List PrefixCode

def preface (steps : Nat) : BitM Preface := do
  let shuffled ← bit
  if shuffled = 1 then corrupt
  let origin ← number 24
  let used ← usedBytes
  let codeCount ← number 3
  if codeCount < 2 || 6 < codeCount then corrupt
  let groupCount ← number 15
  if groupCount = 0 then corrupt
  let places ← times (unary codeCount) groupCount
  let codes ← times (code steps (used.length + 2)) codeCount
  match takeFronts codes places with
  | some codes => return ⟨origin, used, codes⟩
  | none => corrupt

/-- The last column, of at most `room` bytes. `left` symbols are left in the first of the codes, the
next byte that is no run is found in `front`, and `run` copies of its first byte are due, the next
digit of whose number counts `weight`. -/
def column (endSymbol room : Nat) : (steps : Nat) → (codes : List PrefixCode) → (left : Nat) →
    (front : List UInt8) → (run weight : Nat) → Array UInt8 → BitM (Array UInt8)
  | steps + 1, code :: codes, left + 1, front, run, weight, out => do
    let symbol ← code.read bit corrupt
    if symbol ≤ 1 then
      if Nat.pow 2 21 ≤ weight then corrupt
      column endSymbol room steps (code :: codes) left front (run + weight * (symbol + 1))
        (2 * weight) out
    else
      if room < out.size + run then corrupt
      let out := out ++ Array.replicate run (front.headD 0)
      if symbol = endSymbol then return out
      if room ≤ out.size then corrupt
      match toFront (symbol - 1) front with
      | some (b, front) => column endSymbol room steps (code :: codes) left front 0 1 (out.push b)
      | none => corrupt
  | steps + 1, _ :: codes, 0, front, run, weight, out =>
    column endSymbol room steps codes groupSize front run weight out
  | _, _, _, _, _, _, _ => corrupt

/-- For each place of the column, the place of the byte that follows; equal bytes keep their
order. -/
def successors (last : Array UInt8) : Array Nat :=
  let counts := last.foldl (fun counts b => counts.modify b.toNat (· + 1)) (Array.replicate 256 0)
  let starts := counts.foldl (fun (total, starts) n => (total + n, starts.push total))
    (0, (#[] : Array Nat))
  let next := last.foldl
    (fun (i, starts, next) b =>
      (i + 1, starts.modify b.toNat (· + 1), next.setIfInBounds (starts.getD b.toNat 0) i))
    (0, starts.2, Array.replicate last.size 0)
  next.2.2

def follow (last : Array UInt8) (next : Array Nat) (place : Nat) (out : Array UInt8) :
    (n : Nat) → Array UInt8
  | 0 => out
  | n + 1 => follow last next (next.getD place 0) (out.push (last.getD place 0)) n

/-- The bytes whose sorted rotations have this last column, and of which row `origin` is the first
rotation. -/
def unsorted (last : Array UInt8) (origin : Nat) : Array UInt8 :=
  let next := successors last
  follow last next (next.getD origin 0) #[] last.size

/-- Behind four equal bytes stands the number of further ones; `run` of them were just read. -/
def lengthened (run : Nat) (before : UInt8) (out : Array UInt8) : Bytes → Array UInt8
  | [] => out
  | b :: rest =>
    if run = 4 then lengthened 0 b (out ++ Array.replicate b.toNat before) rest
    else lengthened (if run ≠ 0 && b = before then run + 1 else 1) b (out.push b) rest

def checkByte (state : UInt32) (b : UInt8) : UInt32 :=
  Nat.repeat (fun s => if s &&& 0x80000000 = 0 then s <<< 1 else (s <<< 1) ^^^ 0x04C11DB7) 8
    (state ^^^ (b.toUInt32 <<< 24))

def checksum (bytes : Array UInt8) : UInt32 := bytes.foldl checkByte 0xFFFFFFFF ^^^ 0xFFFFFFFF

def block (steps room : Nat) : BitM (Array UInt8 × UInt32) := do
  let sum ← number 32
  let p ← preface steps
  let last ← column (p.used.length + 1) room steps p.codes groupSize p.used 0 1 #[]
  if last.size ≤ p.origin then corrupt
  let bytes := lengthened 0 0 #[] (unsorted last p.origin).toList
  if (checksum bytes).toNat ≠ sum then corrupt
  return (bytes, checksum bytes)

end ClassHooks.Jar.Bzip2
