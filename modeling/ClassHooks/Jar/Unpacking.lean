import ClassHooks.Jar.LittleEndian

/-!
Reading packed data byte by byte. Data that stop too early fail in another way than damaged ones.
-/
namespace ClassHooks.Jar

abbrev UnpackM := EStateM FileFault Bytes

namespace UnpackM

def take (n : Nat) : UnpackM Bytes := fun rest =>
  let taken := rest.take n
  if taken.length = n then .ok taken (rest.drop n) else .error .unexpectedEnd rest

def upTo (n : Nat) : UnpackM Bytes := fun rest => .ok (rest.take n) (rest.drop n)

def byte : UnpackM UInt8 := fun rest =>
  match rest with
  | [] => .error .unexpectedEnd rest
  | b :: rest => .ok b rest

def little (width : Nat) : UnpackM Nat := return ofLittle (← take width)

def big (width : Nat) : UnpackM Nat := return Bytes.toNat (← take width)

def atEnd : UnpackM Bool := fun rest => .ok rest.isEmpty rest

def remaining : UnpackM Nat := fun rest => .ok rest.length rest

def lift (result : Except FileFault α) : UnpackM α := fun rest =>
  match result with
  | .ok a => .ok a rest
  | .error e => .error e rest

def times (item : UnpackM α) : (n : Nat) → UnpackM (List α)
  | 0 => pure []
  | n + 1 => do
    let a ← item
    return a :: (← times item n)

def withBytes (reader : UnpackM α) : UnpackM (α × Bytes) := fun before =>
  match reader before with
  | .ok a after => .ok (a, before.take (before.length - after.length)) after
  | .error e after => .error e after

/-- All bytes are for the reader; it fails with `fault` if it needs more. -/
def whole (fault : FileFault) (reader : UnpackM α) (bytes : Bytes) : UnpackM α := fun rest =>
  match reader bytes with
  | .ok a _ => .ok a rest
  | .error .unexpectedEnd _ => .error fault rest
  | .error e _ => .error e rest

end UnpackM
end ClassHooks.Jar
