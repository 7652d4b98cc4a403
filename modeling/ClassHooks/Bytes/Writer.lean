import ClassHooks.Bytes.Cursor

/-!
Writing numbers, counts and lengths, highest byte first. A count or a length that its field
cannot hold is an error.
-/
namespace ClassHooks.Bytes

/-- The lowest `width` digits of `n` to base 256, highest first. -/
def ofNat : (width : Nat) → (n : Nat) → Bytes
  | 0, _ => []
  | width + 1, n => UInt8.ofNat (n / Nat.pow 256 width) :: ofNat width n

def u16 (n : UInt16) : Bytes := ofNat 2 n.toNat

def u32 (n : UInt32) : Bytes := ofNat 4 n.toNat

def u64 (n : UInt64) : Bytes := ofNat 8 n.toNat

def i8 (n : Int8) : Bytes := [n.toUInt8]

def i16 (n : Int16) : Bytes := u16 n.toUInt16

def i32 (n : Int32) : Bytes := u32 n.toUInt32

def i64 (n : Int64) : Bytes := u64 n.toUInt64

def countField (what : Counted) (n : Nat) : Except Error Bytes :=
  if n < 65536 then .ok (ofNat 2 n) else .error (.malformed (.tooMany what n))

def lengthField (what : Measured) (n : Nat) : Except Error Bytes :=
  if n < 4294967296 then .ok (ofNat 4 n) else .error (.malformed (.tooLong what n))

end ClassHooks.Bytes
