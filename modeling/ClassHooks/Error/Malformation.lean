import ClassHooks.Pool.Constant
import ClassHooks.Instruction.Basic
import ClassHooks.Code.Frame
import ClassHooks.Body.Region

/-!
What can be wrong with the bytes of a class file, or with a value that has no bytes: one cause
each, and the wording of all of them in one place.
-/
namespace ClassHooks

inductive DescriptorFault where
  | truncated
  | unterminatedClass
  | emptyClass
  | tooManyDimensions
  | unknownTag (byte : UInt8)
  | trailing
  | noParameterList
  | unterminatedParameters
  deriving DecidableEq, Repr

namespace DescriptorFault

def text (descriptor : String) : DescriptorFault → String
  | .truncated => "Truncated descriptor '" ++ descriptor ++ "'"
  | .unterminatedClass => "Unterminated class type in '" ++ descriptor ++ "'"
  | .emptyClass => "Empty class name in '" ++ descriptor ++ "'"
  | .tooManyDimensions => "Array of more than 255 dimensions in '" ++ descriptor ++ "'"
  | .unknownTag b =>
    "Invalid type tag '" ++ String.singleton (Char.ofNat b.toNat) ++ "' in '" ++ descriptor ++ "'"
  | .trailing => "Trailing data in descriptor '" ++ descriptor ++ "'"
  | .noParameterList => "Method descriptor '" ++ descriptor ++ "' does not start with '('"
  | .unterminatedParameters => "Unterminated parameter list in '" ++ descriptor ++ "'"

end DescriptorFault

inductive PlaceUse where
  | branchTarget
  | rangeStart
  | rangeEnd
  | handler
  | frame
  | lineNumber
  | variableStart
  | variableEnd
  deriving DecidableEq, Repr

namespace PlaceUse

def text : PlaceUse → String
  | .branchTarget => "Branch target"
  | .rangeStart => "Handler range start"
  | .rangeEnd => "Handler range end"
  | .handler => "Handler"
  | .frame => "Stack map frame"
  | .lineNumber => "Line number"
  | .variableStart => "Local variable start"
  | .variableEnd => "Local variable end"

end PlaceUse

inductive Counted where
  | utf8Bytes
  | poolEntries
  | attributes
  | handlers
  | lines
  | localVariables
  | frames
  | frameLocals
  | frameStack
  | interfaces
  | fields
  | methods
  deriving DecidableEq, Repr

namespace Counted

def text : Counted → String
  | .utf8Bytes => "modified UTF-8 bytes"
  | .poolEntries => "constant pool entries"
  | .attributes => "attributes"
  | .handlers => "exception table entries"
  | .lines => "line number entries"
  | .localVariables => "local variable entries"
  | .frames => "stack map frames"
  | .frameLocals => "frame locals"
  | .frameStack => "frame stack items"
  | .interfaces => "interfaces"
  | .fields => "fields"
  | .methods => "methods"

end Counted

inductive Measured where
  | attributePayload
  | codeArray
  deriving DecidableEq, Repr

namespace Measured

def text : Measured → String
  | .attributePayload => "Attribute payload"
  | .codeArray => "Code array"

end Measured

inductive Whole where
  | codeAttribute
  | stackMap
  | classFile
  deriving DecidableEq, Repr

namespace Whole

def text : Whole → String
  | .codeAttribute => "Code attribute"
  | .stackMap => "StackMapTable"
  | .classFile => "class file"

end Whole

/-- Why bytes are no class file, or why a value has no bytes. -/
inductive Malformation where
  | tooMany (what : Counted) (count : Nat)
  | tooLong (what : Measured) (length : Nat)
  | trailingBytes (count : Nat) (after : Whole)
  | unknownConstantTag (tag : UInt8) (offset : Nat)
  | poolWithoutSlots
  | wideConstantOverruns (index count : Nat)
  | noConstant (index : UInt16) (slots : Nat)
  | notUtf8 (index : UInt16) (found : Constant)
  | notClass (index : UInt16) (found : Constant)
  | notMember (index : UInt16) (found : Constant)
  | notNameAndType (index : UInt16) (found : Constant)
  | poolFull
  | nulByte (index : Nat)
  | continuationByte (index : Nat)
  | leadByte (byte : UInt8) (index : Nat)
  | unpairedSurrogate
  | descriptor (fault : DescriptorFault) (text : String)
  | magic (found : UInt32)
  | codeLength (length : Nat)
  | verificationTag (tag : UInt8)
  | frameType (tag : UInt8)
  | frameOffset (offset : Nat)
  | frameOrder (position previous : UInt16)
  | frameKind (position : UInt16) (kind : FrameKind UInt16)
  | codeArrayLength (length : Nat)
  | branchOutside (offset : Nat) (target : Int)
  | tableBounds (offset : Nat) (low high : Int32)
  | pairCount (offset : Nat) (count : Int32)
  | unsortedKeys (offset : Nat)
  | wideModifies (offset : Nat) (opcode : Opcode)
  | operandMismatch (operand : Operand Label) (opcode : Opcode)
  | methodTooLong (length : Nat)
  | emptyCode
  | noBoundary (use : PlaceUse) (offset : UInt16)
  | emptyRange (start finish : UInt16)
  | secondStackMap
  | variableEnd (offset : Nat)
  | emptyRegion (region : Region) (start finish : UInt16)
  | variableRange (start finish : Label)
  /-- A cause found elsewhere, told in words. -/
  | reported (file : String) (line : Nat) (message : String)
  deriving DecidableEq, Repr

namespace Malformation

def text : Malformation → String
  | .tooMany what count => s!"Too many {what.text} for a u16 count: {count}"
  | .tooLong what length => s!"{what.text} is too large for a u32 length: {length}"
  | .trailingBytes count after => s!"{count} trailing bytes after {after.text}"
  | .unknownConstantTag tag offset => s!"Unknown constant pool tag {tag.toNat} at offset {offset}"
  | .poolWithoutSlots => "Constant pool count must be at least 1"
  | .wideConstantOverruns index count =>
    s!"Two-slot constant at index {index} overruns the pool of {count} entries"
  | .noConstant index slots =>
    s!"Invalid constant pool index {index.toNat} (pool has {slots} slots)"
  | .notUtf8 index found =>
    s!"Expected Utf8 at constant pool index {index.toNat}, found {found.describe}"
  | .notClass index found =>
    s!"Expected Class at constant pool index {index.toNat}, found {found.describe}"
  | .notMember index found =>
    s!"Expected member reference at index {index.toNat}, found {found.describe}"
  | .notNameAndType index found =>
    s!"Expected NameAndType at index {index.toNat}, found {found.describe}"
  | .poolFull => "Constant pool is full"
  | .nulByte i => s!"NUL byte in modified UTF-8 at {i}"
  | .continuationByte i => s!"Invalid modified UTF-8 continuation byte at {i}"
  | .leadByte byte i =>
    s!"Invalid modified UTF-8 lead byte 0x{Text.hexUpper 2 byte.toNat} at {i}"
  | .unpairedSurrogate => "Unpaired surrogate in string"
  | .descriptor fault text => fault.text text
  | .magic found => s!"Invalid class file magic 0x{Text.hexUpper 8 found.toNat}"
  | .codeLength length => s!"Invalid code length {length}"
  | .verificationTag tag => s!"Invalid verification type tag {tag.toNat}"
  | .frameType tag => s!"Reserved stack map frame type {tag.toNat}"
  | .frameOffset offset => s!"Stack map frame offset {offset} out of range"
  | .frameOrder position previous =>
    s!"Stack map frame at {position.toNat} does not follow frame at {previous.toNat}"
  | .frameKind position kind =>
    s!"Invalid frame kind at {position.toNat}: {kind.describe fun p => toString p.toNat}"
  | .codeArrayLength length => s!"Code array of {length} bytes"
  | .branchOutside offset target => s!"Branch at {offset} targets {target} outside the code array"
  | .tableBounds offset low high =>
    s!"tableswitch at {offset} has low {low.toInt} above high {high.toInt}"
  | .pairCount offset count => s!"lookupswitch at {offset} has invalid pair count {count.toInt}"
  | .unsortedKeys offset => s!"lookupswitch at {offset} has unsorted keys"
  | .wideModifies offset opcode =>
    s!"wide at {offset} modifies opcode 0x{Text.hexUpper 2 opcode.toNat}"
  | .operandMismatch operand opcode =>
    "Operand " ++ operand.describe (fun l => Text.applied "Label" (toString l.number.toNat))
      ++ " does not fit '" ++ Opcode.mnemonic opcode ++ "'"
  | .methodTooLong length => s!"Method code of {length} bytes exceeds the 65535 byte limit"
  | .emptyCode => "Method has an empty code array"
  | .noBoundary use offset => s!"{use.text} at offset {offset.toNat} is not an instruction boundary"
  | .emptyRange start finish => s!"Empty handler range [{start.toNat}, {finish.toNat})"
  | .secondStackMap => "Method has more than one StackMapTable"
  | .variableEnd offset => s!"Local variable range ends at {offset}"
  | .emptyRegion region start finish =>
    s!"Handler region {region.text} encodes to empty range [{start.toNat}, {finish.toNat})"
  | .variableRange start finish =>
    s!"Local variable range {start.text}..{finish.text} ends before it starts"
  | .reported file line message => s!"{file}:{line}: {message}"

def message (m : Malformation) : String := "Malformed - " ++ m.text

end Malformation
end ClassHooks
