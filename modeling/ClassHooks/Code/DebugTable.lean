import ClassHooks.Bytes.Writer

/-!
Tables that relate the code array to its source text: the lines where instructions begin and the
ranges in which local variables live. Bytes behind a table are ignored.
-/
namespace ClassHooks

structure LineEntry where
  start : UInt16
  line : UInt16
  deriving DecidableEq, Repr, Inhabited

namespace LineEntry

def read : Reader LineEntry := return ⟨← Reader.u16, ← Reader.u16⟩

def write (e : LineEntry) : Bytes := Bytes.u16 e.start ++ Bytes.u16 e.line

def parseTable (payload : Bytes) : Except Error (List LineEntry) :=
  (Reader.table read).run payload

def writeTable (entries : List LineEntry) : Except Error Bytes := do
  return (← Bytes.countField .lines entries.length) ++ entries.flatMap write

end LineEntry

structure VariableEntry where
  start : UInt16
  length : UInt16
  name : UInt16
  descriptor : UInt16
  index : UInt16
  deriving DecidableEq, Repr, Inhabited

namespace VariableEntry

def read : Reader VariableEntry := do
  return ⟨← Reader.u16, ← Reader.u16, ← Reader.u16, ← Reader.u16, ← Reader.u16⟩

def write (e : VariableEntry) : Bytes :=
  Bytes.u16 e.start ++ (Bytes.u16 e.length ++ (Bytes.u16 e.name ++ (Bytes.u16 e.descriptor
    ++ Bytes.u16 e.index)))

def parseTable (payload : Bytes) : Except Error (List VariableEntry) :=
  (Reader.table read).run payload

def writeTable (entries : List VariableEntry) : Except Error Bytes := do
  return (← Bytes.countField .localVariables entries.length) ++ entries.flatMap write

end VariableEntry
end ClassHooks
