import ClassHooks.Bytes.Cursor

/-!
Modified UTF-8: each unit of UTF-16 is written by itself, in one to three bytes, and the unit
zero in two, so that no byte is zero. Reading accepts the unit zero and other small units in
longer forms too.
-/
namespace ClassHooks.Text.ModifiedUtf8

def units (c : Char) : List UInt16 :=
  let n := c.toNat
  if n < 0x10000 then [UInt16.ofNat n]
  else [UInt16.ofNat (0xD800 + (n - 0x10000) / 0x400), UInt16.ofNat (0xDC00 + (n - 0x10000) % 0x400)]

def encodeUnit (unit : UInt16) : Bytes :=
  let n := unit.toNat
  if 0 < n ∧ n < 0x80 then [UInt8.ofNat n]
  else if n < 0x800 then [UInt8.ofNat (0xC0 + n / 64), UInt8.ofNat (0x80 + n % 64)]
  else
    [UInt8.ofNat (0xE0 + n / 4096), UInt8.ofNat (0x80 + n / 64 % 64), UInt8.ofNat (0x80 + n % 64)]

def encode (s : String) : Bytes :=
  s.toList.flatMap fun c => (units c).flatMap encodeUnit

def continuation (index : Nat) : Option UInt8 → Except Malformation Nat
  | some b =>
    if 0x80 ≤ b ∧ b < 0xC0 then .ok (b.toNat - 0x80) else .error (.continuationByte index)
  | none => .error (.continuationByte index)

def decodeUnits (index : Nat) (read : List UInt16) : Bytes → Except Malformation (List UInt16)
  | [] => .ok read.reverse
  | b :: rest =>
    if b = 0 then .error (.nulByte index)
    else if b < 0x80 then decodeUnits (index + 1) (UInt16.ofNat b.toNat :: read) rest
    else if 0xC0 ≤ b ∧ b < 0xE0 then do
      let low ← continuation (index + 1) rest.head?
      decodeUnits (index + 2) (UInt16.ofNat ((b.toNat - 0xC0) * 64 + low) :: read) (rest.drop 1)
    else if 0xE0 ≤ b ∧ b < 0xF0 then do
      let middle ← continuation (index + 1) rest.head?
      let low ← continuation (index + 2) (rest.drop 1).head?
      decodeUnits (index + 3) (UInt16.ofNat ((b.toNat - 0xE0) * 4096 + middle * 64 + low) :: read)
        (rest.drop 2)
    else .error (.leadByte b index)
termination_by bytes => bytes.length

def isHighSurrogate (unit : UInt16) : Bool := 0xD800 ≤ unit ∧ unit < 0xDC00

def isLowSurrogate (unit : UInt16) : Bool := 0xDC00 ≤ unit ∧ unit < 0xE000

def characters (read : List Char) : List UInt16 → Option (List Char)
  | [] => some read.reverse
  | u :: rest =>
    if isHighSurrogate u then
      match rest with
      | v :: rest =>
        if isLowSurrogate v then
          let n := 0x10000 + (u.toNat - 0xD800) * 0x400 + (v.toNat - 0xDC00)
          characters (Char.ofNat n :: read) rest
        else none
      | [] => none
    else if isLowSurrogate u then none
    else characters (Char.ofNat u.toNat :: read) rest

def decode (bytes : Bytes) : Except Malformation String := do
  let us ← decodeUnits 0 [] bytes
  match characters [] us with
  | some cs => .ok (String.ofList cs)
  | none => .error .unpairedSurrogate

end ClassHooks.Text.ModifiedUtf8
