import Mathlib
import ClassHooks.Proofs.Descriptor.Grammar

/-!
Descriptors read by a cursor that counts bytes. A text can be cut between two characters only; the
reader cuts it where the cursor stood, and there no character is broken. So it reads what is read
character by character, and never stops for a cut.
-/
namespace ClassHooks
namespace Cursor

inductive Kept where
  | base (type : BaseType)
  | object (name : String)
  | array (text : String)
  deriving DecidableEq, Repr

namespace Kept

def text : Kept → String
  | .base b => String.singleton b.letter
  | .object name => "L" ++ name ++ ";"
  | .array text => text

def ofType : FieldType → Kept
  | .base b => .base b
  | .object name => .object name
  | .array element => .array (FieldType.array element).text

end Kept

structure KeptMethod where
  parameters : List Kept
  returnType : Option Kept
  deriving DecidableEq, Repr

def KeptMethod.ofMethod (d : MethodDescriptor) : KeptMethod :=
  ⟨d.parameters.map Kept.ofType, d.returnType.map Kept.ofType⟩

/-- What comes of reading by a cursor: nothing at all after a cut inside a character. -/
abbrev Outcome (α : Type) : Type := Option (Except DescriptorFault α)

section Advancing
variable {s : String} {pos stop : Nat} {t : Kept}

end Advancing

def place (s : String) (rest : List Char) : Nat :=
  s.utf8ByteSize - String.utf8Len rest

section Places
variable {s : String} {front middle rest : List Char}

end Places

section Bytes

variable {s : String} {cs : List Char}

end Bytes

section Agreeing
variable {s : String} {cs : List Char}

def answer (s : String) (read : FieldType × List Char) : Kept × Nat :=
  (.ofType read.1, place s read.2)

end Agreeing
end Cursor

section Accepting
open FieldType MethodDescriptor

end Accepting
end ClassHooks
