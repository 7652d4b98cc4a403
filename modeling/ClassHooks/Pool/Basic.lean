import ClassHooks.Pool.Codec
import ClassHooks.Text.ModifiedUtf8
import Std.Data.TreeMap

/-!
Constant pools. Slots are numbered from one; slot zero, and the slot after a constant of eight
bytes, are unusable. `lookup` finds the first slot that holds a constant, so that adding one that
is there already changes nothing. Additions fail when the slots would exceed 65535.
-/
namespace ClassHooks

structure Pool where
  entries : Array Constant
  lookup : Std.TreeMap Constant UInt16

/-- What an operation on a pool has added stays, also when it fails. -/
abbrev PoolM := EStateM Error Pool

namespace Pool

def empty : Pool := ⟨#[.unusable], ∅⟩

instance : Inhabited Pool := ⟨empty⟩

def size (p : Pool) : Nat := p.entries.size

def isEmpty (p : Pool) : Bool := p.size ≤ 1

def append : Pool → Constant → Pool
  | ⟨entries, lookup⟩, c =>
    let index := UInt16.ofNat entries.size
    let entries := entries.push c
    ⟨if c.isWide then entries.push .unusable else entries, lookup.insertIfNew c index⟩

/-- Reads constants until `slots` more slots are filled. -/
def fill (pool : Pool) (slots : Nat) : Reader Pool :=
  match slots with
  | 0 => pure pool
  | slots + 1 => do
    let c ← Constant.read
    if c.isWide then
      match slots with
      | 0 => throw (.malformed (.wideConstantOverruns pool.size (pool.size + 1)))
      | slots + 1 => fill (pool.append c) slots
    else fill (pool.append c) slots

def read : Reader Pool := do
  let n ← Reader.u16
  if n = 0 then throw (.malformed .poolWithoutSlots)
  fill empty (n.toNat - 1)

def write (p : Pool) : Except Error Bytes := do
  let n ← Bytes.countField .poolEntries p.size
  let parts ← (p.entries.toList.drop 1).mapM Constant.write
  return n ++ parts.flatten

def get (p : Pool) (index : UInt16) : Except Malformation Constant :=
  match p.entries[index.toNat]? with
  | some .unusable | none => .error (.noConstant index p.size)
  | some c => .ok c

def utf8 (p : Pool) (index : UInt16) : Except Malformation String := do
  match ← p.get index with
  | .utf8 bytes => Text.ModifiedUtf8.decode bytes
  | c => throw (.notUtf8 index c)

def holdsText (p : Pool) (index : UInt16) (text : String) : Bool :=
  match p.entries[index.toNat]? with
  | some (.utf8 bytes) => bytes == Text.ModifiedUtf8.encode text
  | _ => false

def className (p : Pool) (index : UInt16) : Except Malformation String := do
  match ← p.get index with
  | .classRef name => p.utf8 name
  | c => throw (.notClass index c)

def memberParts? : Constant → Option (UInt16 × UInt16)
  | .fieldRef owner nat | .methodRef owner nat | .interfaceMethodRef owner nat => some (owner, nat)
  | _ => none

def member (p : Pool) (index : UInt16) : Except Malformation (String × String × String) := do
  let c ← p.get index
  match memberParts? c with
  | none => throw (.notMember index c)
  | some (owner, nat) =>
    match ← p.get nat with
    | .nameAndType name descriptor =>
      return (← p.className owner, ← p.utf8 name, ← p.utf8 descriptor)
    | c => throw (.notNameAndType nat c)

/-- The slot of the constant, which is appended unless it is there. -/
def add (c : Constant) : PoolM UInt16 := fun p =>
  match p.lookup[c]? with
  | some index => .ok index p
  | none =>
    if p.size + c.slots ≤ 65535 then .ok (UInt16.ofNat p.size) (p.append c)
    else .error (.malformed .poolFull) p

def addUtf8 (text : String) : PoolM UInt16 :=
  add (.utf8 (Text.ModifiedUtf8.encode text))

def addClass (name : String) : PoolM UInt16 := do
  add (.classRef (← addUtf8 name))

def addString (text : String) : PoolM UInt16 := do
  add (.string (← addUtf8 text))

def addInteger (value : Int32) : PoolM UInt16 := add (.integer value)

def addNameAndType (name descriptor : String) : PoolM UInt16 := do
  let name ← addUtf8 name
  let descriptor ← addUtf8 descriptor
  add (.nameAndType name descriptor)

def addMethodRef (owner name descriptor : String) : PoolM UInt16 := do
  let owner ← addClass owner
  let nat ← addNameAndType name descriptor
  add (.methodRef owner nat)

def addFieldRef (owner name descriptor : String) : PoolM UInt16 := do
  let owner ← addClass owner
  let nat ← addNameAndType name descriptor
  add (.fieldRef owner nat)

end Pool
end ClassHooks
