import ClassHooks.Pool.Basic

/-!
Attributes: a name in the pool and a payload. The payload of a `Code` attribute holds the code
array, the exception table and further attributes.
-/
namespace ClassHooks

structure Attribute where
  name : UInt16
  payload : Bytes
  deriving DecidableEq, Repr, Inhabited

namespace Attribute

def code : String := "Code"
def stackMapTable : String := "StackMapTable"
def lineNumberTable : String := "LineNumberTable"
def localVariableTable : String := "LocalVariableTable"
def localVariableTypeTable : String := "LocalVariableTypeTable"
def visibleTypeAnnotations : String := "RuntimeVisibleTypeAnnotations"
def invisibleTypeAnnotations : String := "RuntimeInvisibleTypeAnnotations"

def read : Reader Attribute := do
  let name ← Reader.u16
  let length ← Reader.u32
  return ⟨name, ← Reader.bytes length.toNat⟩

def readAll : Reader (List Attribute) := Reader.table read

def write (a : Attribute) : Except Error Bytes := do
  let length ← Bytes.lengthField .attributePayload a.payload.length
  return Bytes.u16 a.name ++ (length ++ a.payload)

def writeAll (as : List Attribute) : Except Error Bytes := do
  let n ← Bytes.countField .attributes as.length
  let parts ← as.mapM write
  return n ++ parts.flatten

def hasName (a : Attribute) (pool : Pool) (name : String) : Bool := pool.holdsText a.name name

end Attribute

/-- An entry of the exception table; the catch type zero catches all. -/
structure Handler where
  start : UInt16
  finish : UInt16
  handler : UInt16
  catchType : UInt16
  deriving DecidableEq, Repr, Inhabited

namespace Handler

def read : Reader Handler := do
  return ⟨← Reader.u16, ← Reader.u16, ← Reader.u16, ← Reader.u16⟩

def write (h : Handler) : Bytes :=
  Bytes.u16 h.start ++ (Bytes.u16 h.finish ++ (Bytes.u16 h.handler ++ Bytes.u16 h.catchType))

end Handler

structure CodeAttribute where
  maxStack : UInt16
  maxLocals : UInt16
  code : Bytes
  handlers : List Handler
  attributes : List Attribute
  deriving DecidableEq, Repr, Inhabited

namespace CodeAttribute

def admitsLength (n : Nat) : Bool := 0 < n && n ≤ 65535

def read : Reader CodeAttribute := do
  let maxStack ← Reader.u16
  let maxLocals ← Reader.u16
  let length ← Reader.u32
  if !admitsLength length.toNat then throw (.malformed (.codeLength length.toNat))
  let code ← Reader.bytes length.toNat
  let handlers ← Reader.table Handler.read
  let attributes ← Attribute.readAll
  if !(← Reader.atEnd) then
    throw (.malformed (.trailingBytes (← Reader.remaining) .codeAttribute))
  return ⟨maxStack, maxLocals, code, handlers, attributes⟩

def parse (payload : Bytes) : Except Error CodeAttribute := read.run payload

def write (c : CodeAttribute) : Except Error Bytes := do
  if !admitsLength c.code.length then throw (.malformed (.codeLength c.code.length))
  let length ← Bytes.lengthField .codeArray c.code.length
  let handlers ← Bytes.countField .handlers c.handlers.length
  let attributes ← Attribute.writeAll c.attributes
  return Bytes.u16 c.maxStack ++ (Bytes.u16 c.maxLocals ++ (length ++ (c.code ++ (handlers
    ++ (c.handlers.flatMap Handler.write ++ attributes)))))

end CodeAttribute
end ClassHooks
