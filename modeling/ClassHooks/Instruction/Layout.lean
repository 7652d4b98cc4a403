import ClassHooks.Instruction.Encoding
import Std.Data.TreeMap
import Std.Data.TreeSet

/-!
Laying out labels and instructions in a code array. Every jump starts in its short form; a layout
whose distances do not fit widens the jumps that have a long form, and is made again, until all
fit. Each round widens a jump, so the rounds end.
-/
namespace ClassHooks

structure Slot where
  item : Item
  long : Bool
  deriving DecidableEq, Repr, Inhabited

namespace Slot

def size (s : Slot) (position : Nat) : Nat :=
  match s.item with
  | .mark _ => 0
  | .op i => i.encodedSize position s.long

/-- A jump that could still take a long form. -/
def isNarrow (s : Slot) : Bool :=
  match s.item with
  | .mark _ => false
  | .op i => i.opcode.longForm?.isSome && !s.long

end Slot

/-- Slots at their positions, the length of the code, and the positions of the labels. -/
structure Layout where
  placed : List (Nat × Slot)
  length : Nat
  labels : Std.TreeMap Label Nat

namespace Layout

def place (placed : List (Nat × Slot)) (position : Nat) : List Slot → List (Nat × Slot) × Nat
  | [] => (placed.reverse, position)
  | s :: rest => place ((position, s) :: placed) (position + s.size position) rest

def labelPositions (placed : List (Nat × Slot)) : Std.TreeMap Label Nat :=
  placed.foldl (fun labels p =>
    match p.2.item with
    | .mark l => labels.insert l p.1
    | .op _ => labels) ∅

def ofSlots (slots : List Slot) : Except Error Layout :=
  let (placed, length) := place [] 0 slots
  if 65535 < length then .error (.malformed (.methodTooLong length))
  else .ok ⟨placed, length, labelPositions placed⟩

def distance (layout : Layout) (position : Nat) (l : Label) : Except Error Int :=
  match layout.labels[l]? with
  | some target => .ok ((target : Int) - position)
  | none => .error (.undefinedLabel l)

/-- Widens a jump that does not reach its target; a branch without a long form must reach it. -/
def widenSlot (layout : Layout) (position : Nat) (s : Slot) : Except Error Slot :=
  match s.item with
  | .op ⟨op, .branch target⟩ =>
    if op.isLongJump || s.long then .ok s
    else do
      let d ← layout.distance position target
      if fitsShort d then return s
      else if op.longForm?.isSome then return ⟨s.item, true⟩
      else throw (.invalidBranch (.outOfReach op position target d))
  | _ => .ok s

def widen (layout : Layout) : Except Error (List Slot) :=
  layout.placed.mapM fun p => layout.widenSlot p.1 p.2

def narrowCount (slots : List Slot) : Nat := slots.countP Slot.isNarrow

/-- The first layout, in order of widening, in which every branch reaches its target. -/
def settle (slots : List Slot) : Except Error Layout := do
  let layout ← ofSlots slots
  let widened ← layout.widen
  if narrowCount widened < narrowCount slots then settle widened else return layout
termination_by narrowCount slots

def fieldDistance (layout : Layout) (position : Nat) (i : Instruction Label) (long : Bool)
    (l : Label) : Except Error Int := do
  let d ← layout.distance position l
  if !fitsInt d then throw (.invalidBranch (.outOfRange d))
  if i.isShortBranch long && !fitsShort d then
    throw (.invalidBranch (.outOfField i.opcode position l))
  return d

def slotBytes (layout : Layout) (position : Nat) (s : Slot) : Except Error Bytes :=
  match s.item with
  | .mark _ => .ok []
  | .op i => do
    let written ← i.mapTargets (layout.fieldDistance position i s.long)
    return written.bytes position s.long

def code (layout : Layout) : Except Error Bytes := do
  let parts ← layout.placed.mapM fun p => layout.slotBytes p.1 p.2
  return parts.flatten

end Layout

structure Encoded where
  code : Bytes
  labels : Std.TreeMap Label Nat

namespace Encoded

def offset (e : Encoded) (l : Label) : Except Error UInt16 :=
  match e.labels[l]? with
  | some n => .ok (UInt16.ofNat n)
  | none => .error (.undefinedLabel l)

end Encoded

/-- Items accepted so far: no label twice, and every operand fits its opcode. -/
structure Assembly where
  items : Array Item
  marked : Std.TreeSet Label

namespace Assembly

def empty : Assembly := ⟨#[], ∅⟩

def mark (a : Assembly) (l : Label) : Except Error Assembly :=
  match a with
  | ⟨items, marked⟩ =>
    if marked.contains l then .error (.duplicateLabel l)
    else .ok ⟨items.push (.mark l), marked.insert l⟩

def emit (a : Assembly) (i : Instruction Label) : Except Error Assembly :=
  match i.opcode.shape? with
  | none => .error (.invalidOpcode i.opcode)
  | some shape =>
    if i.operand.fits shape then
      match a with
      | ⟨items, marked⟩ => .ok ⟨items.push (.op i), marked⟩
    else .error (.malformed (.operandMismatch i.operand i.opcode))

def add (a : Assembly) : Item → Except Error Assembly
  | .mark l => a.mark l
  | .op i => a.emit i

def finish (a : Assembly) : Except Error Encoded := do
  let layout ← Layout.settle (a.items.toList.map fun item => ⟨item, false⟩)
  return ⟨← layout.code, layout.labels⟩

def encode (items : List Item) : Except Error Encoded := do
  (← items.foldlM add empty).finish

end Assembly
end ClassHooks
