import ClassHooks.Instruction.Opcode
import ClassHooks.Text.Written

/-!
Instructions with typed operands. The type of a branch target is a parameter: a place in the
code array after decoding, a label in a method body.
-/
namespace ClassHooks

structure Label where
  number : UInt32
  deriving DecidableEq, Repr, Inhabited

namespace Label

instance : Ord Label := ⟨compareOn number⟩

instance : Std.TransOrd Label := inferInstanceAs (Std.TransCmp (compareOn number))

instance : Std.LawfulEqOrd Label where
  eq_of_compare {a b} same := by
    have number : a.number = b.number := Std.LawfulEqOrd.eq_of_compare same
    cases a
    cases b
    exact congrArg mk number

def text (l : Label) : String := "L" ++ toString l.number.toNat

instance : ToString Label := ⟨text⟩

end Label

inductive Operand (τ : Type) where
  | nothing
  | byte (value : Int8)
  | short (value : Int16)
  | slot (index : UInt16)
  | constant (index : UInt16)
  | increment (index : UInt16) (delta : Int16)
  | branch (target : τ)
  | tableSwitch (default : τ) (low high : Int32) (targets : List τ)
  | lookupSwitch (default : τ) (pairs : List (Int32 × τ))
  | interfaceCall (index : UInt16) (count : UInt8)
  | dynamicCall (index : UInt16)
  | arrayType (code : UInt8)
  | multiArray (index : UInt16) (dimensions : UInt8)
  deriving DecidableEq, Repr, Inhabited

namespace Operand

def targets : Operand τ → List τ
  | .branch t => [t]
  | .tableSwitch d _ _ ts => d :: ts
  | .lookupSwitch d ps => d :: ps.map (·.2)
  | _ => []

def mapTargets {m : Type → Type} [Monad m] (f : τ → m σ) : Operand τ → m (Operand σ)
  | .nothing => pure .nothing
  | .byte v => pure (.byte v)
  | .short v => pure (.short v)
  | .slot i => pure (.slot i)
  | .constant i => pure (.constant i)
  | .increment i d => pure (.increment i d)
  | .branch t => do return .branch (← f t)
  | .tableSwitch d low high ts => do
    let d ← f d
    let ts ← ts.mapM f
    return .tableSwitch d low high ts
  | .lookupSwitch d ps => do
    let d ← f d
    let ps ← ps.mapM fun p => do return (p.1, ← f p.2)
    return .lookupSwitch d ps
  | .interfaceCall i n => pure (.interfaceCall i n)
  | .dynamicCall i => pure (.dynamicCall i)
  | .arrayType a => pure (.arrayType a)
  | .multiArray i n => pure (.multiArray i n)

/-- The operand has the parts that the shape asks for, and a table has a target per key. -/
def fits : Operand τ → Shape → Bool
  | .nothing, .nothing => true
  | .byte _, .byte => true
  | .short _, .short => true
  | .slot _, .slot => true
  | .constant _, .constant8 | .constant _, .constant16 => true
  | .increment _ _, .increment => true
  | .branch _, .branch16 | .branch _, .branch32 => true
  | .tableSwitch _ low high ts, .tableSwitch =>
    low ≤ high && high.toInt - low.toInt + 1 == (ts.length : Int)
  | .lookupSwitch _ _, .lookupSwitch => true
  | .interfaceCall _ _, .interfaceCall => true
  | .dynamicCall _, .dynamicCall => true
  | .arrayType _, .arrayType => true
  | .multiArray _ _, .multiArray => true
  | _, _ => false

def describe (target : τ → String) : Operand τ → String
  | .nothing => "None"
  | .byte v => Text.applied "Byte" (toString v.toInt)
  | .short v => Text.applied "Short" (toString v.toInt)
  | .slot i => Text.applied "Local" (toString i.toNat)
  | .constant i => Text.applied "Constant" (toString i.toNat)
  | .increment i d =>
    Text.labelled "Iinc" [("index", toString i.toNat), ("delta", toString d.toInt)]
  | .branch t => Text.applied "Branch" (target t)
  | .tableSwitch d low high ts =>
    Text.labelled "TableSwitch" [("default", target d), ("low", toString low.toInt),
      ("high", toString high.toInt), ("targets", Text.listing (ts.map target))]
  | .lookupSwitch d ps =>
    Text.labelled "LookupSwitch" [("default", target d),
      ("pairs", Text.listing (ps.map fun p => Text.applied "" (toString p.1.toInt ++ ", " ++ target p.2)))]
  | .interfaceCall i n =>
    Text.labelled "InvokeInterface" [("index", toString i.toNat), ("count", toString n.toNat)]
  | .dynamicCall i => Text.applied "InvokeDynamic" (toString i.toNat)
  | .arrayType a => Text.applied "ArrayType" (toString a.toNat)
  | .multiArray i n =>
    Text.labelled "MultiANewArray" [("index", toString i.toNat), ("dimensions", toString n.toNat)]

def text (target : τ → String) : Operand τ → String
  | .nothing => ""
  | .byte v => " " ++ toString v.toInt
  | .short v => " " ++ toString v.toInt
  | .slot i => " " ++ toString i.toNat
  | .constant i | .dynamicCall i => " #" ++ toString i.toNat
  | .increment i d => " " ++ toString i.toNat ++ " " ++ toString d.toInt
  | .branch t => " " ++ target t
  | .tableSwitch d low high _ =>
    " " ++ toString low.toInt ++ "..=" ++ toString high.toInt ++ " default " ++ target d
  | .lookupSwitch d ps => " " ++ toString ps.length ++ " keys default " ++ target d
  | .interfaceCall i n => " #" ++ toString i.toNat ++ " " ++ toString n.toNat
  | .arrayType a => " " ++ toString a.toNat
  | .multiArray i n => " #" ++ toString i.toNat ++ " " ++ toString n.toNat

end Operand

structure Instruction (τ : Type) where
  opcode : Opcode
  operand : Operand τ
  deriving DecidableEq, Repr, Inhabited

namespace Instruction

def plain (op : Opcode) : Instruction τ := ⟨op, .nothing⟩

def mnemonic (i : Instruction τ) : String := Opcode.mnemonic i.opcode

def flow (i : Instruction τ) : Flow := Opcode.flow i.opcode

def isReturn (i : Instruction τ) : Bool := Opcode.isReturn i.opcode

def isTerminal (i : Instruction τ) : Bool := Opcode.isTerminal i.opcode

def targets (i : Instruction τ) : List τ := i.operand.targets

def mapTargets {m : Type → Type} [Monad m] (f : τ → m σ) (i : Instruction τ) :
    m (Instruction σ) := do
  return ⟨i.opcode, ← i.operand.mapTargets f⟩

def text (target : τ → String) (i : Instruction τ) : String :=
  i.mnemonic ++ i.operand.text target

end Instruction

/-- One element of a method body: a label that marks the place before the next instruction, or
an instruction. -/
inductive Item where
  | mark (label : Label)
  | op (instruction : Instruction Label)
  deriving DecidableEq, Repr, Inhabited

namespace Item

def label? : Item → Option Label
  | .mark l => some l
  | .op _ => none

def instruction? : Item → Option (Instruction Label)
  | .mark _ => none
  | .op i => some i

end Item
end ClassHooks
