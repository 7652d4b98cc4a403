import ClassHooks.Jar.Checksum
import ClassHooks.Jar.Header
import ClassHooks.Jar.LittleEndian

/-!
Extra fields of a header: a kind, a length and the content. They widen numbers, give names and
comments in UTF-8, and tell times and encryption. Fields that stop too early end the reading and
keep what they have changed; fields that contradict themselves make the header worthless.
-/
namespace ClassHooks.Jar

inductive FieldFault where
  | short
  | contradictory
  deriving DecidableEq, Repr

structure Fields where
  header : Header
  rest : Bytes

abbrev FieldM := EStateM FieldFault Fields

namespace FieldM

def take (n : Nat) : FieldM Bytes := fun s =>
  let taken := s.rest.take n
  if taken.length = n then .ok taken { s with rest := s.rest.drop n } else .error .short s

def number (width : Nat) : FieldM Nat := return ofLittle (← take width)

def demand (condition : Bool) : FieldM Unit :=
  if condition then pure () else throw .contradictory

def header : FieldM Header := return (← get).header

def change (f : Header → Header) : FieldM Unit := modify fun s => { s with header := f s.header }

def widest : Nat := 0xFFFFFFFF

def widen (given : Bool) (put : Nat → Header → Header) : FieldM Nat := do
  if given then
    let n ← number 8
    change (put n)
    return 8
  else return 0

/-- All three numbers are given in a long field, else those that do not fit into the header. -/
def wideNumbers (length : Nat) : FieldM Unit := do
  let all := decide (24 ≤ length)
  let a ← widen (all || (← header).fullSize = widest) fun n h => { h with fullSize := n }
  let b ← widen (all || (← header).size = widest) fun n h => { h with size := n }
  let c ← widen (all || (← header).offset = widest) fun n h => { h with offset := n }
  demand (a + b + c ≤ length)
  let _ ← take (length - (a + b + c))

def fileTimes (length : Nat) : FieldM Unit := do
  demand (length = 32)
  let _ ← take 4
  demand ((← number 2) = 1)
  demand ((← number 2) = 24)
  let _ ← take 24

def times (length : Nat) : FieldM Unit := do
  let flags ← number 1
  demand (length = 5 || length = 1 + 4 * (List.range 8).countP flags.testBit)
  let first := if flags.testBit 0 || length = 5 then 4 else 0
  let second := if flags.testBit 1 && 5 < length then 4 else 0
  let third := if flags.testBit 2 && 5 < length then 4 else 0
  let _ ← take first
  let _ ← take second
  let _ ← take third

def encryption (length : Nat) : FieldM Unit := do
  demand (length = 7)
  let version ← number 2
  let vendor ← number 2
  let strength ← number 1
  let method ← number 2
  demand (vendor = 0x4541)
  demand (version = 1 || version = 2)
  demand (1 ≤ strength && strength ≤ 3)
  change fun h => { h with method, sealed := true }

/-- Text in UTF-8 that stands for older text, whose checksum it gives. -/
def textFor (older : Bytes) (length : Nat) : FieldM Bytes := do
  let _ ← number 1
  let sum ← number 4
  demand (5 ≤ length)
  let content ← take (length - 5)
  demand (sum = (checksum older).toNat)
  return content

def decoded (bytes : Bytes) : FieldM String :=
  match String.fromUTF8? ⟨bytes.toArray⟩ with
  | some s => pure s
  | none => throw .contradictory

def name (length : Nat) : FieldM Unit := do
  let bytes ← textFor (← header).nameBytes length
  let name ← decoded bytes
  change fun h => { h with name, nameBytes := bytes }

def comment (length : Nat) : FieldM Unit := do
  let comment ← decoded (← textFor (← header).comment.toUTF8.toList length)
  change fun h => { h with comment }

def field : FieldM Unit := do
  let kind ← number 2
  let length ← number 2
  match kind with
  | 0x0001 => wideNumbers length
  | 0x000A => fileTimes length
  | 0x5455 => times length
  | 0x6375 => comment length
  | 0x7075 => name length
  | 0x9901 => encryption length
  | _ =>
    let _ ← take length

def all : (steps : Nat) → FieldM Unit
  | 0 => pure ()
  | steps + 1 => do
    if (← get).rest.isEmpty then pure ()
    else
      field
      all steps

end FieldM

namespace Header

def withFields (h : Header) (fields : Bytes) : Option Header :=
  match FieldM.all fields.length ⟨h, fields⟩ with
  | .ok _ s | .error .short s => some s.header
  | .error .contradictory _ => none

end Header
end ClassHooks.Jar
