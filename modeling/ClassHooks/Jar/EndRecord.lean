import ClassHooks.Jar.LittleEndian

/-!
The record at the end of a jar, which tells where its central directory is. Bytes may stand in
front of the jar, so a directory is looked for from the place on that the record names. Numbers
that do not fit are kept in a wide record before it.
-/
namespace ClassHooks.Jar

def endSignature : Bytes := [0x50, 0x4B, 0x05, 0x06]
def wideSignature : Bytes := [0x50, 0x4B, 0x06, 0x06]
def locatorSignature : Bytes := [0x50, 0x4B, 0x06, 0x07]
def headerSignature : Bytes := [0x50, 0x4B, 0x01, 0x02]
def localSignature : Bytes := [0x50, 0x4B, 0x03, 0x04]

def Read.signature (expected : Bytes) : Reader Unit := do
  if (← Reader.bytes expected.length) ≠ expected then throw .archive

def positionsIn (signature : Bytes) (position : Nat) (found : List Nat) : Bytes → List Nat
  | [] => found.reverse
  | b :: rest =>
    let found := if signature.isPrefixOf (b :: rest) then position :: found else found
    positionsIn signature (position + 1) found rest

def positionsOf (signature : Bytes) (low high : Nat) (bytes : Bytes) : List Nat :=
  positionsIn signature low [] ((bytes.take high).drop low)

def readAt (reader : Reader α) (position : Nat) (bytes : Bytes) : Option α :=
  (reader.run (bytes.drop position)).toOption

structure DirectoryPlace where
  /-- Bytes in front of the jar. -/
  shift : Nat
  start : Nat
  entryCount : Nat
  deriving Repr

structure EndRecord where
  disk : Nat
  directoryDisk : Nat
  /-- Entries on this disk. -/
  entriesHere : Nat
  entries : Nat
  directoryOffset : Nat
  deriving Repr

structure WideLocator where
  directoryDisk : Nat
  recordOffset : Nat
  disks : Nat
  deriving Repr

structure WideRecord where
  size : Nat
  madeBy : Nat
  needed : Nat
  disk : Nat
  directoryDisk : Nat
  entriesHere : Nat
  entries : Nat
  directoryOffset : Nat
  deriving Repr

namespace WideLocator

def size : Nat := 20

def read : Reader WideLocator := do
  Read.signature locatorSignature
  let directoryDisk ← Read.u32
  let recordOffset ← Read.u64
  let disks ← Read.u32
  return ⟨directoryDisk, recordOffset, disks⟩

end WideLocator

namespace WideRecord

def read : Reader WideRecord := do
  Read.signature wideSignature
  let size ← Read.u64
  let madeBy ← Read.u16
  let needed ← Read.u16
  let disk ← Read.u32
  let directoryDisk ← Read.u32
  let entriesHere ← Read.u64
  let entries ← Read.u64
  let _ ← Read.u64
  let directoryOffset ← Read.u64
  return ⟨size, madeBy, needed, disk, directoryDisk, entriesHere, entries, directoryOffset⟩

def headerSize : Nat := 46

/-- The record ends at its locator, agrees with it, and has room for the headers before it. -/
def fits (r : WideRecord) (locator : WideLocator) (position locatorPosition : Nat) : Bool :=
  44 ≤ r.size && position + r.size + 12 = locatorPosition
    && r.directoryDisk = locator.directoryDisk
    && headerSize * r.entries + r.directoryOffset ≤ position

def isSound (r : WideRecord) : Bool :=
  r.entriesHere ≤ r.entries && r.needed ≤ r.madeBy && r.disk = r.directoryDisk

end WideRecord

namespace WideLocator

/-- The directory that the first fitting record behind the named offset tells. -/
def place (l : WideLocator) (position : Nat) (bytes : Bytes) : Option DirectoryPlace := do
  if position ≤ l.recordOffset || 1 < l.disks then none
  let (found, r) ← (positionsOf wideSignature l.recordOffset position bytes).findSome? fun p => do
    let r ← readAt WideRecord.read p bytes
    if r.fits l p position then some (p, r) else none
  if !r.isSound then none
  let shift := found - l.recordOffset
  return ⟨shift, r.directoryOffset + shift, r.entries⟩

end WideLocator

namespace EndRecord

def read : Reader EndRecord := do
  Read.signature endSignature
  let disk ← Read.u16
  let directoryDisk ← Read.u16
  let entriesHere ← Read.u16
  let entries ← Read.u16
  let _ ← Read.u32
  let directoryOffset ← Read.u32
  let comment ← Read.u16
  Reader.skip comment
  return ⟨disk, directoryDisk, entriesHere, entries, directoryOffset⟩

def mayBeWide (r : EndRecord) : Bool := r.entries = 0xFFFF || r.directoryOffset = 0xFFFFFFFF

def locator (r : EndRecord) (position : Nat) (bytes : Bytes) : Option WideLocator :=
  if r.mayBeWide && WideLocator.size ≤ position then
    readAt WideLocator.read (position - WideLocator.size) bytes
  else none

/-- How far the directory is behind its offset: its first header is the next one. A record without
entries tells nothing else than that it stands behind the directory. -/
def shift (r : EndRecord) (position : Nat) (bytes : Bytes) : Option Nat :=
  if r.entries = 0 then some (position - r.directoryOffset)
  else
    (positionsOf headerSignature r.directoryOffset position bytes).head?.map (· - r.directoryOffset)

def place (r : EndRecord) (position : Nat) (bytes : Bytes) : Option DirectoryPlace := do
  match r.locator position bytes with
  | some l => l.place (position - WideLocator.size) bytes
  | none =>
    let shift ← r.shift position bytes
    if r.disk ≠ r.directoryDisk then none
    return ⟨shift, r.directoryOffset + shift, r.entriesHere⟩

end EndRecord

def directoryPlaces (bytes : Bytes) : List DirectoryPlace :=
  (positionsOf endSignature 0 bytes.length bytes).reverse.filterMap fun position => do
    (← readAt EndRecord.read position bytes).place position bytes

end ClassHooks.Jar
