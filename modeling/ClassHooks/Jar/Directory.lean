import ClassHooks.Jar.EndRecord
import ClassHooks.Jar.ExtraField

/-!
The central directory: a header for each entry. If the directory of one end record cannot be read,
that of the record before it counts.
-/
namespace ClassHooks.Jar

/-- The method of data whose encryption has to be told in an extra field. -/
def sealedMethod : Nat := 99

namespace Header

def read (place : DirectoryPlace) : Reader Header := do
  Read.signature headerSignature
  let _ ← Reader.bytes 4
  let flags ← Read.u16
  let method ← Read.u16
  let time ← Read.u16
  let date ← Read.u16
  let checksum ← Read.u32
  let size ← Read.u32
  let fullSize ← Read.u32
  let nameLength ← Read.u16
  let extraLength ← Read.u16
  let commentLength ← Read.u16
  let _ ← Reader.bytes 8
  let offset ← Read.u32
  let name ← Reader.bytes nameLength
  let extra ← Reader.bytes extraLength
  let comment ← Reader.bytes commentLength
  let isUtf8 := flags.testBit 11
  let h : Header := {
    name := decodeText isUtf8 name, nameBytes := name, comment := decodeText isUtf8 comment
    encrypted := flags.testBit 0, sealed := false, method
    stamp := ⟨UInt16.ofNat date, UInt16.ofNat time⟩, checksum, size, fullSize, offset }
  match h.withFields extra with
  | none => throw .archive
  | some h =>
    let start := h.offset + place.shift
    if h.method = sealedMethod && !h.sealed then throw .archive
    if place.start ≤ start then throw .archive
    return { h with offset := start }

end Header

def headersAt (bytes : Bytes) (place : DirectoryPlace) : Option (List Header) :=
  readAt (Reader.repeated (Header.read place) place.entryCount) place.start bytes

def directory (bytes : Bytes) : Except Error (List Header) :=
  match (directoryPlaces bytes).findSome? (headersAt bytes) with
  | some headers => .ok (headers.foldl Header.addTo [])
  | none => .error .archive

end ClassHooks.Jar
