import ClassHooks.Body.Basic
import ClassHooks.Code.DebugTable
import ClassHooks.Code.StackMap
import ClassHooks.Instruction.Decoding
import Std.Data.TreeMap
import Std.Data.TreeSet

/-!
From a code attribute to a body: each offset that something names becomes a label, numbered in
the order in which offsets are first named. An offset must be where an instruction begins; the end
of a range may also be the end of the code.
-/
namespace ClassHooks

structure Labelling where
  boundaries : Std.TreeSet UInt16
  codeLength : UInt16
  labels : Std.TreeMap UInt16 Label

abbrev LabellingM := EStateM Error Labelling

namespace Labelling

def lift (result : Except Error α) : LabellingM α := fun s =>
  match result with
  | .ok a => .ok a s
  | .error e => .error e s

def labelOf (offset : UInt16) : LabellingM Label := fun s =>
  match s.labels[offset]? with
  | some l => .ok l s
  | none =>
    match s with
    | ⟨boundaries, codeLength, labels⟩ =>
      let l : Label := ⟨UInt32.ofNat labels.size⟩
      .ok l ⟨boundaries, codeLength, labels.insert offset l⟩

def labelAt (use : PlaceUse) (offset : UInt16) : LabellingM Label := do
  if (← get).boundaries.contains offset then labelOf offset
  else throw (.malformed (.noBoundary use offset))

def labelAtOrEnd (use : PlaceUse) (offset : UInt16) : LabellingM Label := do
  if offset = (← get).codeLength then labelOf offset
  else labelAt use offset

def region (h : Handler) : LabellingM Region := do
  if h.finish ≤ h.start then throw (.malformed (.emptyRange h.start h.finish))
  let start ← labelAt .rangeStart h.start
  let finish ← labelAtOrEnd .rangeEnd h.finish
  let handler ← labelAt .handler h.handler
  return ⟨start, finish, handler, if h.catchType = 0 then none else some h.catchType⟩

def line (e : LineEntry) : LabellingM LineMark := do
  return ⟨← labelAt .lineNumber e.start, e.line⟩

def liveRange (e : VariableEntry) : LabellingM Variable := do
  let finish := e.start.toNat + e.length.toNat
  if 65535 < finish then throw (.malformed (.variableEnd finish))
  let start ← labelAtOrEnd .variableStart e.start
  let finish ← labelAtOrEnd .variableEnd (UInt16.ofNat finish)
  return ⟨start, finish, e.name, e.descriptor, e.index⟩

end Labelling

inductive BodyPart where
  | frames (frames : List (Frame Label))
  | lines (lines : List LineMark)
  | locals (locals : List Variable)
  | variableTypes (locals : List Variable)
  | other (kept : Attribute)

namespace BodyPart

def frames? : BodyPart → Option (List (Frame Label))
  | .frames fs => some fs
  | _ => none

def lineMarks : BodyPart → List LineMark
  | .lines ls => ls
  | _ => []

def liveVariables : BodyPart → List Variable
  | .locals vs => vs
  | _ => []

def typedVariables : BodyPart → List Variable
  | .variableTypes vs => vs
  | _ => []

def other? : BodyPart → Option Attribute
  | .other a => some a
  | _ => none

/-- Reads one attribute; `mapped` tells that a stack map was read before. -/
def ofAttribute (pool : Pool) (mapped : Bool) (a : Attribute) : LabellingM BodyPart := do
  if a.hasName pool Attribute.stackMapTable then
    if mapped then throw (.malformed .secondStackMap)
    let frames ← Labelling.lift (Frame.parseTable a.payload)
    return .frames (← frames.mapM (·.mapPositions (Labelling.labelAt .frame)))
  else if a.hasName pool Attribute.lineNumberTable then
    let entries ← Labelling.lift (LineEntry.parseTable a.payload)
    return .lines (← entries.mapM Labelling.line)
  else if a.hasName pool Attribute.localVariableTable then
    let entries ← Labelling.lift (VariableEntry.parseTable a.payload)
    return .locals (← entries.mapM Labelling.liveRange)
  else if a.hasName pool Attribute.localVariableTypeTable then
    let entries ← Labelling.lift (VariableEntry.parseTable a.payload)
    return .variableTypes (← entries.mapM Labelling.liveRange)
  else return .other a

def ofAttributes (pool : Pool) (mapped : Bool) (read : List BodyPart) :
    List Attribute → LabellingM (List BodyPart)
  | [] => pure read.reverse
  | a :: rest => do
    let part ← ofAttribute pool mapped a
    ofAttributes pool (mapped || part.frames?.isSome) (part :: read) rest

end BodyPart

namespace Body

def markedItems (labels : Std.TreeMap UInt16 Label) (codeLength : UInt16)
    (instructions : List (UInt16 × Instruction Label)) : List Item :=
  (instructions.flatMap fun p =>
    match labels[p.1]? with
    | some l => [.mark l, .op p.2]
    | none => [.op p.2])
  ++ (labels[codeLength]?.map Item.mark).toList

def label (code : CodeAttribute) (pool : Pool)
    (decoded : List (UInt16 × Instruction UInt16)) : LabellingM Body := do
  let instructions ← decoded.mapM fun p => do
    return (p.1, ← p.2.mapTargets (Labelling.labelAt .branchTarget))
  let handlers ← code.handlers.mapM Labelling.region
  let parts ← BodyPart.ofAttributes pool false [] code.attributes
  let labels := (← get).labels
  return {
    maxStack := code.maxStack
    maxLocals := code.maxLocals
    items := markedItems labels (UInt16.ofNat code.code.length) instructions
    handlers
    frames := (parts.filterMap BodyPart.frames?).head?
    lines := parts.flatMap BodyPart.lineMarks
    locals := parts.flatMap BodyPart.liveVariables
    variableTypes := parts.flatMap BodyPart.typedVariables
    others := parts.filterMap BodyPart.other?
    nextLabel := UInt32.ofNat labels.size }

def ofCode (code : CodeAttribute) (pool : Pool) : Except Error Body := do
  if code.code.isEmpty then throw (.malformed .emptyCode)
  let decoded ← Instruction.decode code.code
  let start : Labelling :=
    ⟨Std.TreeSet.ofList (decoded.map (·.1)), UInt16.ofNat code.code.length, ∅⟩
  match label code pool decoded start with
  | .ok body _ => return body
  | .error e _ => throw e

end Body
end ClassHooks
