import ClassHooks.Code.Attribute

/-!
Class files: the pool, flags, members and attributes of one class. Reading keeps every byte that
the format leaves open, so that writing gives the bytes back.
-/
namespace ClassHooks

structure Member where
  flags : UInt16
  name : UInt16
  descriptor : UInt16
  attributes : List Attribute
  deriving DecidableEq, Repr, Inhabited

namespace Member

def read : Reader Member := do
  return ⟨← Reader.u16, ← Reader.u16, ← Reader.u16, ← Attribute.readAll⟩

def write (m : Member) : Except Error Bytes := do
  let attributes ← Attribute.writeAll m.attributes
  return Bytes.u16 m.flags ++ (Bytes.u16 m.name ++ (Bytes.u16 m.descriptor ++ attributes))

def codeIndex (m : Member) (pool : Pool) : Option Nat :=
  m.attributes.findIdx? (·.hasName pool Attribute.code)

end Member

def classFlagNames : List (UInt16 × String) := [
  (0x0001, "PUBLIC"), (0x0010, "FINAL"), (0x0020, "SUPER"), (0x0200, "INTERFACE"),
  (0x0400, "ABSTRACT"), (0x1000, "SYNTHETIC"), (0x2000, "ANNOTATION"), (0x4000, "ENUM"),
  (0x8000, "MODULE")]

def methodFlagNames : List (UInt16 × String) := [
  (0x0001, "PUBLIC"), (0x0002, "PRIVATE"), (0x0004, "PROTECTED"), (0x0008, "STATIC"),
  (0x0010, "FINAL"), (0x0020, "SYNCHRONIZED"), (0x0040, "BRIDGE"), (0x0080, "VARARGS"),
  (0x0100, "NATIVE"), (0x0400, "ABSTRACT"), (0x0800, "STRICT"), (0x1000, "SYNTHETIC")]

def flagNames (known : List (UInt16 × String)) (flags : UInt16) : List String :=
  (known.filter fun f => flags &&& f.1 != 0).map (·.2)

structure ClassFile where
  minor : UInt16
  major : UInt16
  pool : Pool
  flags : UInt16
  thisClass : UInt16
  superClass : UInt16
  interfaces : List UInt16
  fields : List Member
  methods : List Member
  attributes : List Attribute

namespace ClassFile

def magic : UInt32 := 0xCAFEBABE

def read : Reader ClassFile := do
  let found ← Reader.u32
  if found ≠ magic then throw (.malformed (.magic found))
  let minor ← Reader.u16
  let major ← Reader.u16
  let pool ← Pool.read
  let flags ← Reader.u16
  let thisClass ← Reader.u16
  let superClass ← Reader.u16
  let interfaces ← Reader.table Reader.u16
  let fields ← Reader.table Member.read
  let methods ← Reader.table Member.read
  let attributes ← Attribute.readAll
  if !(← Reader.atEnd) then
    throw (.malformed (.trailingBytes (← Reader.remaining) .classFile))
  return { minor, major, pool, flags, thisClass, superClass, interfaces, fields, methods,
           attributes }

def parse (bytes : Bytes) : Except Error ClassFile := read.run bytes

def write (c : ClassFile) : Except Error Bytes := do
  let pool ← c.pool.write
  let interfaceCount ← Bytes.countField .interfaces c.interfaces.length
  let fieldCount ← Bytes.countField .fields c.fields.length
  let fields ← c.fields.mapM Member.write
  let methodCount ← Bytes.countField .methods c.methods.length
  let methods ← c.methods.mapM Member.write
  let attributes ← Attribute.writeAll c.attributes
  return Bytes.u32 magic ++ (Bytes.u16 c.minor ++ (Bytes.u16 c.major ++ (pool
    ++ (Bytes.u16 c.flags ++ (Bytes.u16 c.thisClass ++ (Bytes.u16 c.superClass
    ++ (interfaceCount ++ (c.interfaces.flatMap Bytes.u16 ++ (fieldCount ++ (fields.flatten
    ++ (methodCount ++ (methods.flatten ++ attributes))))))))))))

def name (c : ClassFile) : Except Malformation String := c.pool.className c.thisClass

/-- From version 51 on, code with branches needs a stack map. -/
def requiresStackMaps (c : ClassFile) : Bool := 51 ≤ c.major

end ClassFile
end ClassHooks
