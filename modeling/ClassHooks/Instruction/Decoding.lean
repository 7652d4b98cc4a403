import ClassHooks.Instruction.Basic
import ClassHooks.Bytes.Cursor

/-!
Reading instructions. A branch is written as a distance from its instruction and read as an
absolute offset, which must lie inside the code array. The bytes that align a switch and the
reserved bytes of two calls may hold anything; keys of a switch must rise.
-/
namespace ClassHooks.Instruction

def target (size offset : Nat) (distance : Int) : Except Error UInt16 :=
  let place : Int := offset + distance
  if 0 ≤ place ∧ place < size then .ok (UInt16.ofNat place.toNat)
  else .error (.malformed (.branchOutside offset place))

def readTarget (size offset : Nat) : Reader UInt16 := do
  let distance ← Reader.i32
  Reader.lift (target size offset distance.toInt)

def readPairs (size offset : Nat) (previous : Option Int32) (read : List (Int32 × UInt16)) :
    Nat → Reader (List (Int32 × UInt16))
  | 0 => pure read.reverse
  | n + 1 => do
    let key ← Reader.i32
    if previous.any (key ≤ ·) then throw (.malformed (.unsortedKeys offset))
    let place ← readTarget size offset
    readPairs size offset (some key) ((key, place) :: read) n

def readTableSwitch (size offset : Nat) : Reader (Operand UInt16) := do
  Reader.align 4
  let default ← readTarget size offset
  let low ← Reader.i32
  let high ← Reader.i32
  if high < low then throw (.malformed (.tableBounds offset low high))
  let n := (high.toInt - low.toInt + 1).toNat
  if !(← Reader.holds (4 * n)) then throw .outOfBounds
  return .tableSwitch default low high (← Reader.repeated (readTarget size offset) n)

def readLookupSwitch (size offset : Nat) : Reader (Operand UInt16) := do
  Reader.align 4
  let default ← readTarget size offset
  let n ← Reader.i32
  if n < 0 then throw (.malformed (.pairCount offset n))
  let pairs := n.toInt.toNat
  if !(← Reader.holds (8 * pairs)) then throw (.malformed (.pairCount offset n))
  return .lookupSwitch default (← readPairs size offset none [] pairs)

def readOperand (size offset : Nat) : Shape → Reader (Operand UInt16)
  | .nothing => return .nothing
  | .byte => return .byte (← Reader.i8)
  | .short => return .short (← Reader.i16)
  | .slot => return .slot (← Reader.u8).toUInt16
  | .constant8 => return .constant (← Reader.u8).toUInt16
  | .constant16 => return .constant (← Reader.u16)
  | .increment => do
    let index ← Reader.u8
    let delta ← Reader.i8
    return .increment index.toUInt16 delta.toInt16
  | .branch16 => do
    let distance ← Reader.i16
    return .branch (← Reader.lift (target size offset distance.toInt))
  | .branch32 => return .branch (← readTarget size offset)
  | .tableSwitch => readTableSwitch size offset
  | .lookupSwitch => readLookupSwitch size offset
  | .interfaceCall => do
    let index ← Reader.u16
    let count ← Reader.u8
    let _ ← Reader.u8
    return .interfaceCall index count
  | .dynamicCall => do
    let index ← Reader.u16
    let _ ← Reader.u16
    return .dynamicCall index
  | .arrayType => return .arrayType (← Reader.u8)
  | .multiArray => return .multiArray (← Reader.u16) (← Reader.u8)

/-- The instruction behind `wide`, whose operand has two bytes for each one. -/
def readWide (offset : Nat) : Reader (Instruction UInt16) := do
  let op : Opcode ← Reader.u8
  if Opcode.takesWideSlot op then return ⟨op, .slot (← Reader.u16)⟩
  else if op = Opcode.iinc then return ⟨op, .increment (← Reader.u16) (← Reader.i16)⟩
  else throw (.malformed (.wideModifies offset op))

def read (size : Nat) : Reader (Instruction UInt16) := do
  let offset ← Reader.position
  let op : Opcode ← Reader.u8
  if op = Opcode.wide then readWide offset
  else
    match Opcode.shape? op with
    | none => throw (.invalidOpcode op)
    | some shape => return ⟨op, ← readOperand size offset shape⟩

/-- Instructions with their offsets up to the end. An instruction has at least one byte, so as
many steps as there are bytes reach it. -/
def readStream (size : Nat) (read : List (UInt16 × Instruction UInt16)) :
    (steps : Nat) → Reader (List (UInt16 × Instruction UInt16))
  | 0 => pure read.reverse
  | steps + 1 => do
    if ← Reader.atEnd then pure read.reverse
    else
      let offset ← Reader.position
      let i ← Instruction.read size
      readStream size ((UInt16.ofNat offset, i) :: read) steps

def decode (code : Bytes) : Except Error (List (UInt16 × Instruction UInt16)) :=
  let size := code.length
  if 65535 < size then .error (.malformed (.codeArrayLength size))
  else (readStream size [] size).run code

end ClassHooks.Instruction
