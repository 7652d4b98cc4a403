import ClassHooks.Bytes.Cursor

/-!
Numbers whose lowest byte stands first, as jars keep them.
-/
namespace ClassHooks.Jar

def ofLittle (bytes : Bytes) : Nat := Bytes.toNat bytes.reverse

namespace Read

def number (width : Nat) : Reader Nat := return ofLittle (← Reader.bytes width)

def u16 : Reader Nat := number 2

def u32 : Reader Nat := number 4

def u64 : Reader Nat := number 8

end Read

def little16 (n : Nat) : Bytes := [UInt8.ofNat n, UInt8.ofNat (n / 256)]

def little32 (n : Nat) : Bytes := little16 n ++ little16 (n / 65536)

end ClassHooks.Jar
