import ClassHooks.Bytes.Cursor

/-!
The cyclic redundancy check of jar entries, bit by bit.
-/
namespace ClassHooks.Jar

def checkBit (state : UInt32) : UInt32 :=
  if state &&& 1 = 1 then (state >>> 1) ^^^ 0xEDB88320 else state >>> 1

def checkByte (state : UInt32) (b : UInt8) : UInt32 :=
  Nat.repeat checkBit 8 (state ^^^ b.toUInt32)

def checksum (bytes : Bytes) : UInt32 :=
  bytes.foldl checkByte 0xFFFFFFFF ^^^ 0xFFFFFFFF

end ClassHooks.Jar
