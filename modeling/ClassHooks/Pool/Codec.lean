import ClassHooks.Pool.Constant
import ClassHooks.Bytes.Writer

/-!
Constants as bytes: a tag and the fields. An unusable slot has no bytes.
-/
namespace ClassHooks.Constant

def read : Reader Constant := do
  let offset ← Reader.position
  let tag ← Reader.u8
  match tag with
  | 1 => do
    let n ← Reader.u16
    return .utf8 (← Reader.bytes n.toNat)
  | 3 => return .integer (← Reader.i32)
  | 4 => return .float (← Reader.u32)
  | 5 => return .long (← Reader.i64)
  | 6 => return .double (← Reader.u64)
  | 7 => return .classRef (← Reader.u16)
  | 8 => return .string (← Reader.u16)
  | 9 => return .fieldRef (← Reader.u16) (← Reader.u16)
  | 10 => return .methodRef (← Reader.u16) (← Reader.u16)
  | 11 => return .interfaceMethodRef (← Reader.u16) (← Reader.u16)
  | 12 => return .nameAndType (← Reader.u16) (← Reader.u16)
  | 15 => return .methodHandle (← Reader.u8) (← Reader.u16)
  | 16 => return .methodType (← Reader.u16)
  | 17 => return .dynamic (← Reader.u16) (← Reader.u16)
  | 18 => return .invokeDynamic (← Reader.u16) (← Reader.u16)
  | 19 => return .moduleRef (← Reader.u16)
  | 20 => return .packageRef (← Reader.u16)
  | _ => throw (.malformed (.unknownConstantTag tag offset))

/-- Fails for text of more than 65535 bytes only. -/
def write : Constant → Except Error Bytes
  | .utf8 bytes => do
    let n ← Bytes.countField .utf8Bytes bytes.length
    return 1 :: (n ++ bytes)
  | .integer value => .ok (3 :: Bytes.i32 value)
  | .float bits => .ok (4 :: Bytes.u32 bits)
  | .long value => .ok (5 :: Bytes.i64 value)
  | .double bits => .ok (6 :: Bytes.u64 bits)
  | .classRef name => .ok (7 :: Bytes.u16 name)
  | .string text => .ok (8 :: Bytes.u16 text)
  | .fieldRef owner nat => .ok (9 :: (Bytes.u16 owner ++ Bytes.u16 nat))
  | .methodRef owner nat => .ok (10 :: (Bytes.u16 owner ++ Bytes.u16 nat))
  | .interfaceMethodRef owner nat => .ok (11 :: (Bytes.u16 owner ++ Bytes.u16 nat))
  | .nameAndType name descriptor => .ok (12 :: (Bytes.u16 name ++ Bytes.u16 descriptor))
  | .methodHandle kind reference => .ok (15 :: kind :: Bytes.u16 reference)
  | .methodType descriptor => .ok (16 :: Bytes.u16 descriptor)
  | .dynamic bootstrap nat => .ok (17 :: (Bytes.u16 bootstrap ++ Bytes.u16 nat))
  | .invokeDynamic bootstrap nat => .ok (18 :: (Bytes.u16 bootstrap ++ Bytes.u16 nat))
  | .moduleRef name => .ok (19 :: Bytes.u16 name)
  | .packageRef name => .ok (20 :: Bytes.u16 name)
  | .unusable => .ok []

end ClassHooks.Constant
