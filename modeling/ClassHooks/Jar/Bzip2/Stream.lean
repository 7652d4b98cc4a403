import ClassHooks.Jar.Bzip2.Block

/-!
A bzip2 stream: a greatest size of blocks, blocks, and a checksum over the checksums of all of
them.
-/
namespace ClassHooks.Jar.Bzip2

def blocks (limit room : Nat) (total : UInt32) (out : Array UInt8) :
    (steps : Nat) → BitM (Array UInt8)
  | 0 => corrupt
  | steps + 1 => do
    let first ← number 8
    if first = 0x17 then
      expect [0x72, 0x45, 0x38, 0x50, 0x90]
      if (← number 32) ≠ total.toNat then corrupt
      return out
    else if first = 0x31 then
      expect [0x41, 0x59, 0x26, 0x53, 0x59]
      let (bytes, sum) ← block limit room
      blocks limit room ((total <<< 1 ||| total >>> 31) ^^^ sum) (out ++ bytes) steps
    else corrupt

def stream (limit : Nat) : BitM (Array UInt8) := do
  expect [0x42, 0x5A, 0x68]
  let level ← number 8
  if level < 0x31 || 0x39 < level then corrupt
  blocks limit (100000 * (level - 0x30)) 0 #[] limit

def unpack (bytes : Bytes) : Except FileFault Bytes :=
  match stream (16 * bytes.length + 16) ⟨bytes, 0⟩ with
  | .ok out _ => .ok out.toList
  | .error e _ => .error e

end ClassHooks.Jar.Bzip2
