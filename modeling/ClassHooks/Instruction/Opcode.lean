/-!
Operation codes of the machine: the name of each, the shape of what follows it in the code
array, and what it does to control. The codes 0x00 to 0xC9 are assigned except `wide`, which
only announces a longer operand of the code after it.
-/
namespace ClassHooks

abbrev Opcode := UInt8

inductive Shape where
  | nothing
  | byte
  | short
  | slot
  | constant8
  | constant16
  | increment
  | branch16
  | branch32
  | tableSwitch
  | lookupSwitch
  | interfaceCall
  | dynamicCall
  | arrayType
  | multiArray
  deriving DecidableEq, Repr

def Shape.text : Shape → String
  | .nothing => "None"
  | .byte => "Byte"
  | .short => "Short"
  | .slot => "Local"
  | .constant8 => "Constant8"
  | .constant16 => "Constant16"
  | .increment => "Iinc"
  | .branch16 => "Branch16"
  | .branch32 => "Branch32"
  | .tableSwitch => "TableSwitch"
  | .lookupSwitch => "LookupSwitch"
  | .interfaceCall => "InvokeInterface"
  | .dynamicCall => "InvokeDynamic"
  | .arrayType => "ArrayType"
  | .multiArray => "MultiANewArray"

inductive Flow where
  | sequential
  | conditional
  | jump
  | switch
  | call
  | return
  | throw
  | subroutine
  deriving DecidableEq, Repr

def Flow.text : Flow → String
  | .sequential => "Sequential"
  | .conditional => "ConditionalBranch"
  | .jump => "UnconditionalBranch"
  | .switch => "Switch"
  | .call => "Call"
  | .return => "Return"
  | .throw => "Throw"
  | .subroutine => "Subroutine"

namespace Opcode

def aconstNull : Opcode := 0x01
def iconst0 : Opcode := 0x03
def bipush : Opcode := 0x10
def sipush : Opcode := 0x11
def ldc : Opcode := 0x12
def ldcW : Opcode := 0x13
def iload : Opcode := 0x15
def aload : Opcode := 0x19
def aload3 : Opcode := 0x2D
def istore : Opcode := 0x36
def astore : Opcode := 0x3A
def astore3 : Opcode := 0x4E
def pop : Opcode := 0x57
def pop2 : Opcode := 0x58
def dup : Opcode := 0x59
def dup2 : Opcode := 0x5C
def swap : Opcode := 0x5F
def iinc : Opcode := 0x84
def goto : Opcode := 0xA7
def jsr : Opcode := 0xA8
def ret : Opcode := 0xA9
def ireturn : Opcode := 0xAC
def vreturn : Opcode := 0xB1
def invokestatic : Opcode := 0xB8
def athrow : Opcode := 0xBF
def checkcast : Opcode := 0xC0
def wide : Opcode := 0xC4
def gotoW : Opcode := 0xC8
def jsrW : Opcode := 0xC9

def names : Array String := #[
  "nop", "aconst_null", "iconst_m1", "iconst_0", "iconst_1", "iconst_2", "iconst_3", "iconst_4",
  "iconst_5", "lconst_0", "lconst_1", "fconst_0", "fconst_1", "fconst_2", "dconst_0", "dconst_1",
  "bipush", "sipush", "ldc", "ldc_w", "ldc2_w", "iload", "lload", "fload", "dload", "aload",
  "iload_0", "iload_1", "iload_2", "iload_3", "lload_0", "lload_1", "lload_2", "lload_3",
  "fload_0", "fload_1", "fload_2", "fload_3", "dload_0", "dload_1", "dload_2", "dload_3",
  "aload_0", "aload_1", "aload_2", "aload_3", "iaload", "laload", "faload", "daload", "aaload",
  "baload", "caload", "saload", "istore", "lstore", "fstore", "dstore", "astore",
  "istore_0", "istore_1", "istore_2", "istore_3", "lstore_0", "lstore_1", "lstore_2", "lstore_3",
  "fstore_0", "fstore_1", "fstore_2", "fstore_3", "dstore_0", "dstore_1", "dstore_2", "dstore_3",
  "astore_0", "astore_1", "astore_2", "astore_3", "iastore", "lastore", "fastore", "dastore",
  "aastore", "bastore", "castore", "sastore", "pop", "pop2", "dup", "dup_x1", "dup_x2", "dup2",
  "dup2_x1", "dup2_x2", "swap", "iadd", "ladd", "fadd", "dadd", "isub", "lsub", "fsub", "dsub",
  "imul", "lmul", "fmul", "dmul", "idiv", "ldiv", "fdiv", "ddiv", "irem", "lrem", "frem", "drem",
  "ineg", "lneg", "fneg", "dneg", "ishl", "lshl", "ishr", "lshr", "iushr", "lushr", "iand",
  "land", "ior", "lor", "ixor", "lxor", "iinc", "i2l", "i2f", "i2d", "l2i", "l2f", "l2d", "f2i",
  "f2l", "f2d", "d2i", "d2l", "d2f", "i2b", "i2c", "i2s", "lcmp", "fcmpl", "fcmpg", "dcmpl",
  "dcmpg", "ifeq", "ifne", "iflt", "ifge", "ifgt", "ifle", "if_icmpeq", "if_icmpne", "if_icmplt",
  "if_icmpge", "if_icmpgt", "if_icmple", "if_acmpeq", "if_acmpne", "goto", "jsr", "ret",
  "tableswitch", "lookupswitch", "ireturn", "lreturn", "freturn", "dreturn", "areturn", "return",
  "getstatic", "putstatic", "getfield", "putfield", "invokevirtual", "invokespecial",
  "invokestatic", "invokeinterface", "invokedynamic", "new", "newarray", "anewarray",
  "arraylength", "athrow", "checkcast", "instanceof", "monitorenter", "monitorexit", "wide",
  "multianewarray", "ifnull", "ifnonnull", "goto_w", "jsr_w"]

def shape? (op : Opcode) : Option Shape :=
  if op = 0xC4 ∨ 0xC9 < op then none
  else if op = 0x10 then some .byte
  else if op = 0x11 then some .short
  else if op = 0x12 then some .constant8
  else if op = 0x13 ∨ op = 0x14 then some .constant16
  else if 0x15 ≤ op ∧ op ≤ 0x19 then some .slot
  else if 0x36 ≤ op ∧ op ≤ 0x3A then some .slot
  else if op = 0x84 then some .increment
  else if 0x99 ≤ op ∧ op ≤ 0xA8 then some .branch16
  else if op = 0xA9 then some .slot
  else if op = 0xAA then some .tableSwitch
  else if op = 0xAB then some .lookupSwitch
  else if 0xB2 ≤ op ∧ op ≤ 0xB8 then some .constant16
  else if op = 0xB9 then some .interfaceCall
  else if op = 0xBA then some .dynamicCall
  else if op = 0xBB ∨ op = 0xBD ∨ op = 0xC0 ∨ op = 0xC1 then some .constant16
  else if op = 0xBC then some .arrayType
  else if op = 0xC5 then some .multiArray
  else if op = 0xC6 ∨ op = 0xC7 then some .branch16
  else if op = 0xC8 ∨ op = 0xC9 then some .branch32
  else some .nothing

/-- A code that names no instruction counts as sequential. -/
def flow (op : Opcode) : Flow :=
  if 0x99 ≤ op ∧ op ≤ 0xA6 then .conditional
  else if op = 0xA7 ∨ op = 0xC8 then .jump
  else if op = 0xA8 ∨ op = 0xA9 ∨ op = 0xC9 then .subroutine
  else if op = 0xAA ∨ op = 0xAB then .switch
  else if 0xAC ≤ op ∧ op ≤ 0xB1 then .return
  else if 0xB6 ≤ op ∧ op ≤ 0xBA then .call
  else if op = 0xBF then .throw
  else if op = 0xC6 ∨ op = 0xC7 then .conditional
  else .sequential

def isAssigned (op : Opcode) : Bool := (shape? op).isSome

def mnemonic (op : Opcode) : String :=
  if isAssigned op then names.getD op.toNat "<invalid>" else "<invalid>"

def isReturn (op : Opcode) : Bool := ireturn ≤ op ∧ op ≤ vreturn

/-- Control never goes on to the next instruction. -/
def isTerminal (op : Opcode) : Bool :=
  match flow op with
  | .jump | .switch | .return | .throw => true
  | _ => op == ret

def accessesLocals (op : Opcode) : Bool :=
  (iload ≤ op ∧ op ≤ aload3) || (istore ≤ op ∧ op ≤ astore3) || op == iinc

def takesWideSlot (op : Opcode) : Bool :=
  (iload ≤ op ∧ op ≤ aload) || (istore ≤ op ∧ op ≤ astore) || op == ret

def isLongJump (op : Opcode) : Bool := op == gotoW || op == jsrW

def longForm? (op : Opcode) : Option Opcode :=
  if op = goto then some gotoW
  else if op = jsr then some jsrW
  else none

end Opcode
end ClassHooks
