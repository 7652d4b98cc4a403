import ClassHooks.Error

/-!
Reading from a string of bytes. A cursor is the place reached and the bytes that are left; a
read that fails leaves the cursor where its first unread part begins, so a composite read that
fails stops behind the parts it has read. Numbers stand with their highest byte first.
-/
namespace ClassHooks

abbrev Bytes := List UInt8

structure Cursor where
  position : Nat
  rest : Bytes
  deriving DecidableEq, Repr

namespace Cursor

def start (bytes : Bytes) : Cursor := ⟨0, bytes⟩

def atEnd (c : Cursor) : Bool := c.rest.isEmpty

def remaining (c : Cursor) : Nat := c.rest.length

def size (c : Cursor) : Nat := c.position + c.rest.length

def holds (c : Cursor) (n : Nat) : Bool := (c.rest.take n).length == n

end Cursor

/-- A reader keeps the place it reached, also when it fails. -/
abbrev Reader := EStateM Error Cursor

/-- The number whose digits to base 256 are the bytes, highest first. -/
def Bytes.toNat (bytes : Bytes) : Nat :=
  bytes.foldl (fun n b => 256 * n + b.toNat) 0

namespace Reader

def run (r : Reader α) (bytes : Bytes) : Except Error α :=
  match r (Cursor.start bytes) with
  | .ok a _ => .ok a
  | .error e _ => .error e

def lift (result : Except Error α) : Reader α := fun c =>
  match result with
  | .ok a => .ok a c
  | .error e => .error e c

def position : Reader Nat := fun c => .ok c.position c

def atEnd : Reader Bool := fun c => .ok c.atEnd c

def remaining : Reader Nat := fun c => .ok c.remaining c

def holds (n : Nat) : Reader Bool := fun c => .ok (c.holds n) c

def u8 : Reader UInt8 := fun c =>
  match c.rest with
  | b :: rest => .ok b ⟨c.position + 1, rest⟩
  | [] => .error .outOfBounds c

def bytes (n : Nat) : Reader Bytes := fun c =>
  let taken := c.rest.take n
  if taken.length = n then .ok taken ⟨c.position + n, c.rest.drop n⟩
  else .error .outOfBounds c

def skip (n : Nat) : Reader Unit := fun c =>
  if c.holds n then .ok () ⟨c.position + n, c.rest.drop n⟩
  else .error .outOfBounds c

def align (n : Nat) : Reader Unit := do
  let p ← position
  skip ((n - p % n) % n)

def word (width : Nat) : Reader Nat := fun c =>
  match bytes width c with
  | .ok bs c => .ok bs.toNat c
  | .error e c => .error e c

def u16 : Reader UInt16 := fun c =>
  match word 2 c with
  | .ok n c => .ok (UInt16.ofNat n) c
  | .error e c => .error e c

def u32 : Reader UInt32 := fun c =>
  match word 4 c with
  | .ok n c => .ok (UInt32.ofNat n) c
  | .error e c => .error e c

def u64 : Reader UInt64 := fun c =>
  match word 8 c with
  | .ok n c => .ok (UInt64.ofNat n) c
  | .error e c => .error e c

def i8 : Reader Int8 := return (← u8).toInt8

def i16 : Reader Int16 := return (← u16).toInt16

def i32 : Reader Int32 := return (← u32).toInt32

def i64 : Reader Int64 := return (← u64).toInt64

def repeated (item : Reader α) (n : Nat) : Reader (List α) :=
  go n []
where
  go : Nat → List α → Reader (List α)
    | 0, read => pure read.reverse
    | n + 1, read => do
      let a ← item
      go n (a :: read)

def table (item : Reader α) : Reader (List α) := do
  let n ← u16
  repeated item n.toNat

end Reader
end ClassHooks
