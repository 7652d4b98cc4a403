import ClassHooks.Body.Basic
import ClassHooks.Code.DebugTable
import ClassHooks.Code.StackMap
import ClassHooks.Instruction.Layout

/-!
From a body to a code attribute: items are laid out, and each label is replaced by the offset
where it lies. Tables that are empty are not written. The names of the tables written are added
to the pool in the order of the tables.
-/
namespace ClassHooks

def PoolM.lift (result : Except Error α) : PoolM α := fun p =>
  match result with
  | .ok a => .ok a p
  | .error e => .error e p

namespace Region

def encode (e : Encoded) (r : Region) : Except Error Handler := do
  let start ← e.offset r.start
  let finish ← e.offset r.finish
  if finish ≤ start then throw (.malformed (.emptyRegion r start finish))
  return ⟨start, finish, ← e.offset r.handler, r.catchType.getD 0⟩

end Region

namespace LineMark

def encode (e : Encoded) (l : LineMark) : Except Error LineEntry := do
  return ⟨← e.offset l.start, l.line⟩

end LineMark

namespace Variable

def encode (e : Encoded) (v : Variable) : Except Error VariableEntry := do
  let start ← e.offset v.start
  let finish ← e.offset v.finish
  if finish < start then throw (.malformed (.variableRange v.start v.finish))
  return ⟨start, finish - start, v.name, v.descriptor, v.index⟩

end Variable

namespace Body

def encodeLines (e : Encoded) (lines : List LineMark) : PoolM (List Attribute) := do
  if lines.isEmpty then return []
  let entries ← PoolM.lift (lines.mapM (·.encode e))
  let name ← Pool.addUtf8 Attribute.lineNumberTable
  return [⟨name, ← PoolM.lift (LineEntry.writeTable entries)⟩]

def encodeVariables (e : Encoded) (table : String) (locals : List Variable) :
    PoolM (List Attribute) := do
  if locals.isEmpty then return []
  let entries ← PoolM.lift (locals.mapM (·.encode e))
  let name ← Pool.addUtf8 table
  return [⟨name, ← PoolM.lift (VariableEntry.writeTable entries)⟩]

def encodeFrames (e : Encoded) : Option (List (Frame Label)) → PoolM (List Attribute)
  | none => return []
  | some frames => do
    let frames ← PoolM.lift (frames.mapM (·.mapPositions e.offset))
    let sorted := frames.mergeSort fun a b => a.position ≤ b.position
    let name ← Pool.addUtf8 Attribute.stackMapTable
    return [⟨name, ← PoolM.lift (Frame.writeTable sorted)⟩]

def toCode (b : Body) : PoolM CodeAttribute := do
  let e ← PoolM.lift (Assembly.encode b.items)
  let handlers ← PoolM.lift (b.handlers.mapM (·.encode e))
  let lines ← encodeLines e b.lines
  let locals ← encodeVariables e Attribute.localVariableTable b.locals
  let types ← encodeVariables e Attribute.localVariableTypeTable b.variableTypes
  let frames ← encodeFrames e b.frames
  return {
    maxStack := b.maxStack
    maxLocals := b.maxLocals
    code := e.code
    handlers
    attributes := lines ++ (locals ++ (types ++ (frames ++ b.others))) }

end Body
end ClassHooks
