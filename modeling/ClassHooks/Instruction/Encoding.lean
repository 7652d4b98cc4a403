import ClassHooks.Instruction.Basic
import ClassHooks.Bytes.Writer

/-!
Instructions as bytes, given where each label lies. The shortest form is taken: `wide` only where
an operand needs it, the two-byte form of `ldc` where the index has one byte. A jump has the long
form if it is told so.
-/
namespace ClassHooks

def needsWide (index : UInt16) : Bool := 255 < index

def fitsByte (n : Int16) : Bool := -128 ≤ n.toInt && n.toInt ≤ 127

def fitsShort (n : Int) : Bool := -32768 ≤ n && n ≤ 32767

def fitsInt (n : Int) : Bool := -2147483648 ≤ n && n ≤ 2147483647

namespace Instruction

def isShortBranch (i : Instruction τ) (long : Bool) : Bool :=
  match i.operand with
  | .branch _ => !(long || i.opcode.isLongJump)
  | _ => false

def switchPadding (position : Nat) : Nat := (4 - (position + 1) % 4) % 4

/-- The length of an instruction at `position`; `long` asks for the long form of a jump. -/
def encodedSize (i : Instruction τ) (position : Nat) (long : Bool) : Nat :=
  match i.operand with
  | .nothing => 1
  | .byte _ | .arrayType _ => 2
  | .short _ => 3
  | .slot index => if needsWide index then 4 else 2
  | .constant index => if i.opcode == Opcode.ldc && !needsWide index then 2 else 3
  | .increment index delta => if needsWide index || !fitsByte delta then 6 else 3
  | .branch _ => if long || i.opcode.isLongJump then 5 else 3
  | .tableSwitch _ _ _ targets => 1 + switchPadding position + 12 + 4 * targets.length
  | .lookupSwitch _ pairs => 1 + switchPadding position + 8 + 8 * pairs.length
  | .interfaceCall _ _ | .dynamicCall _ => 5
  | .multiArray _ _ => 4

def distance32 (d : Int) : Bytes := Bytes.i32 (Int32.ofInt d)

def bytes (i : Instruction Int) (position : Nat) (long : Bool) : Bytes :=
  match i.operand with
  | .nothing => [i.opcode]
  | .byte value => i.opcode :: Bytes.i8 value
  | .short value => i.opcode :: Bytes.i16 value
  | .slot index =>
    if needsWide index then Opcode.wide :: i.opcode :: Bytes.u16 index
    else [i.opcode, index.toUInt8]
  | .constant index =>
    if i.opcode = Opcode.ldc then
      if needsWide index then Opcode.ldcW :: Bytes.u16 index
      else [Opcode.ldc, index.toUInt8]
    else i.opcode :: Bytes.u16 index
  | .increment index delta =>
    if needsWide index || !fitsByte delta then
      Opcode.wide :: Opcode.iinc :: (Bytes.u16 index ++ Bytes.i16 delta)
    else [Opcode.iinc, index.toUInt8, delta.toInt8.toUInt8]
  | .branch d =>
    if long || i.opcode.isLongJump then
      (i.opcode.longForm?.getD i.opcode) :: distance32 d
    else i.opcode :: Bytes.i16 (Int16.ofInt d)
  | .tableSwitch default low high targets =>
    i.opcode :: (List.replicate (switchPadding position) 0 ++ (distance32 default
      ++ (Bytes.i32 low ++ (Bytes.i32 high ++ targets.flatMap distance32))))
  | .lookupSwitch default pairs =>
    i.opcode :: (List.replicate (switchPadding position) 0 ++ (distance32 default
      ++ (Bytes.ofNat 4 pairs.length ++ pairs.flatMap fun p => Bytes.i32 p.1 ++ distance32 p.2)))
  | .interfaceCall index count => i.opcode :: (Bytes.u16 index ++ [count, 0])
  | .dynamicCall index => i.opcode :: (Bytes.u16 index ++ [0, 0])
  | .arrayType code => [i.opcode, code]
  | .multiArray index dimensions => i.opcode :: (Bytes.u16 index ++ [dimensions])

end Instruction
end ClassHooks
