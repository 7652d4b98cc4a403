import ClassHooks.Code.Frame
import ClassHooks.Bytes.Writer

/-!
Stack map tables. Positions are written as distances: the first as it stands, each later one as
the distance from the frame before it less one. Reading accepts short and long forms; writing
takes the short form where the distance has one.
-/
namespace ClassHooks

namespace VerificationType

def read : Reader (VerificationType UInt16) := do
  let tag ← Reader.u8
  match tag with
  | 0 => return .top
  | 1 => return .integer
  | 2 => return .float
  | 3 => return .double
  | 4 => return .long
  | 5 => return .null
  | 6 => return .uninitializedThis
  | 7 => return .object (← Reader.u16)
  | 8 => return .uninitialized (← Reader.u16)
  | _ => throw (.malformed (.verificationTag tag))

def write : VerificationType UInt16 → Bytes
  | .top => [0]
  | .integer => [1]
  | .float => [2]
  | .double => [3]
  | .long => [4]
  | .null => [5]
  | .uninitializedThis => [6]
  | .object c => 7 :: Bytes.u16 c
  | .uninitialized p => 8 :: Bytes.u16 p

end VerificationType

namespace Frame

def readKind : Reader (UInt16 × FrameKind UInt16) := do
  let tag ← Reader.u8
  if tag < 64 then return (tag.toUInt16, .same)
  else if tag < 128 then return ((tag - 64).toUInt16, .sameOneItem (← VerificationType.read))
  else if tag < 247 then throw (.malformed (.frameType tag))
  else
    let delta ← Reader.u16
    if tag = 247 then return (delta, .sameOneItem (← VerificationType.read))
    else if tag < 251 then return (delta, .chop (251 - tag))
    else if tag = 251 then return (delta, .same)
    else if tag < 255 then
      return (delta, .append (← Reader.repeated VerificationType.read (tag - 251).toNat))
    else
      let locals ← Reader.table VerificationType.read
      let stack ← Reader.table VerificationType.read
      return (delta, .full locals stack)

def place (previous : Option UInt16) (delta : UInt16) : Nat :=
  match previous with
  | none => delta.toNat
  | some p => p.toNat + delta.toNat + 1

def readFrames (previous : Option UInt16) (read : List (Frame UInt16)) :
    Nat → Reader (List (Frame UInt16))
  | 0 => pure read.reverse
  | n + 1 => do
    let (delta, kind) ← readKind
    let position := place previous delta
    if 65535 < position then throw (.malformed (.frameOffset position))
    let position := UInt16.ofNat position
    readFrames (some position) (⟨position, kind⟩ :: read) n

def readTable : Reader (List (Frame UInt16)) := do
  let n ← Reader.u16
  let frames ← readFrames none [] n.toNat
  if !(← Reader.atEnd) then
    throw (.malformed (.trailingBytes (← Reader.remaining) .stackMap))
  return frames

def parseTable (payload : Bytes) : Except Error (List (Frame UInt16)) := readTable.run payload

/-- The distance of a position behind the previous frame, which must lie before it. -/
def delta (previous : Option UInt16) (position : UInt16) : Except Error UInt16 :=
  match previous with
  | none => .ok position
  | some p =>
    if p < position then .ok (position - p - 1)
    else .error (.malformed (.frameOrder position p))

def write (frame : Frame UInt16) (delta : UInt16) : Except Error Bytes :=
  match frame.kind with
  | .same => .ok (if delta < 64 then [delta.toUInt8] else 251 :: Bytes.u16 delta)
  | .sameOneItem t =>
    .ok ((if delta < 64 then [64 + delta.toUInt8] else 247 :: Bytes.u16 delta) ++ t.write)
  | .chop n =>
    if 1 ≤ n ∧ n ≤ 3 then .ok ((251 - n) :: Bytes.u16 delta)
    else .error (.malformed (.frameKind frame.position frame.kind))
  | .append locals =>
    if 1 ≤ locals.length ∧ locals.length ≤ 3 then
      .ok ((251 + UInt8.ofNat locals.length) :: (Bytes.u16 delta
        ++ locals.flatMap VerificationType.write))
    else .error (.malformed (.frameKind frame.position frame.kind))
  | .full locals stack => do
    let localCount ← Bytes.countField .frameLocals locals.length
    let stackCount ← Bytes.countField .frameStack stack.length
    return 255 :: (Bytes.u16 delta ++ (localCount ++ (locals.flatMap VerificationType.write
      ++ (stackCount ++ stack.flatMap VerificationType.write))))

/-- Frames behind `previous`, in order; `written` holds those before them, last first. -/
def writeFrames (previous : Option UInt16) (written : List Bytes) :
    List (Frame UInt16) → Except Error (List Bytes)
  | [] => .ok written.reverse
  | frame :: rest => do
    let d ← delta previous frame.position
    let bytes ← write frame d
    writeFrames (some frame.position) (bytes :: written) rest

def writeTable (frames : List (Frame UInt16)) : Except Error Bytes := do
  let n ← Bytes.countField .frames frames.length
  let parts ← writeFrames none [] frames
  return n ++ parts.flatten

end Frame
end ClassHooks
