import ClassHooks.Jar.Compression
import ClassHooks.Jar.Deflate.Block
import ClassHooks.Jar.Directory

/-!
Jars: entries behind each other and a central directory at the end. Of entries with one name the
last counts, at the place of the first. Writing gives all entries one time, so that equal entries
make equal jars.
-/
namespace ClassHooks.Jar

/-- The packed data of an entry, at most `size` bytes, behind its local header, which starts the
bytes. -/
def localData (size : Nat) : Reader Bytes := do
  Read.signature localSignature
  let _ ← Reader.bytes 22
  let nameLength ← Read.u16
  let extraLength ← Read.u16
  fun c => .ok ((c.rest.drop (nameLength + extraLength)).take size) c

namespace Header

/-- Fails with `archive` if the bytes do not have the form of an entry that can be read, and with a
fault of the file if its data are damaged. -/
def entry (h : Header) (bytes : Bytes) : Except Error Entry := do
  if h.encrypted || h.sealed then throw .archive
  match readAt (localData h.size) h.offset bytes, Compression.ofNumber? h.method with
  | some packed, some compression =>
    let data ← (compression.unpack packed).mapError .file
    if (Jar.checksum data).toNat ≠ h.checksum then throw (.file .invalidData)
    return ⟨h.name, data, compression = .stored, h.stamp.orEarliest⟩
  | _, _ => throw .archive

end Header

def readEntries (bytes : Bytes) : Except Error (List Entry) := do
  (← directory bytes).mapM (·.entry bytes)

namespace Entry

def packed (e : Entry) : Bytes := if e.stored then e.data else deflate e.data

def version (e : Entry) : Nat := if e.stored && !e.isDirectory then 10 else 20

def flags (e : Entry) : Nat := if e.name.toList.all (·.toNat < 128) then 0 else 2048

def permissions (e : Entry) : Nat := if e.isDirectory then 0x41ED else 0x81A4

def system : Nat := 3

/-- What the local header and the central directory both say. -/
def description (e : Entry) (packed : Bytes) : Bytes :=
  little16 e.version ++ (little16 e.flags ++ (little16 (if e.stored then 0 else 8)
    ++ (little16 e.stamp.time.toNat ++ (little16 e.stamp.date.toNat
    ++ (little32 (checksum e.data).toNat ++ (little32 packed.length
    ++ (little32 e.data.length ++ (little16 e.name.utf8ByteSize ++ little16 0))))))))

def nameBytes (e : Entry) : Bytes := e.name.toUTF8.toList

def records (e : Entry) (offset : Nat) : Bytes × Bytes :=
  let packed := e.packed
  let description := e.description packed
  (localSignature ++ (description ++ (e.nameBytes ++ packed)),
    headerSignature ++ (little16 (256 * system + e.version) ++ (description
      ++ (List.replicate 6 0 ++ (little32 (65536 * e.permissions) ++ (little32 offset
      ++ e.nameBytes))))))

end Entry

def records (offset : Nat) : List Entry → List Bytes × List Bytes
  | [] => ([], [])
  | e :: rest =>
    let (record, header) := e.records offset
    let (locals, headers) := records (offset + record.length) rest
    (record :: locals, header :: headers)

def writeEntries (entries : List Entry) : Bytes :=
  let (locals, headers) := records 0 entries
  let body := locals.flatten
  let central := headers.flatten
  body ++ (central ++ (endSignature ++ (little16 0 ++ (little16 0 ++ (little16 entries.length
    ++ (little16 entries.length ++ (little32 central.length ++ (little32 body.length
    ++ little16 0))))))))

end ClassHooks.Jar
