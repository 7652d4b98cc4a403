import ClassHooks.Bytes.Writer

/-!
The digest of 20 bytes that tells identities apart.
-/
namespace ClassHooks.Digest

structure State where
  a : UInt32
  b : UInt32
  c : UInt32
  d : UInt32
  e : UInt32
  deriving DecidableEq, Repr

namespace State

def initial : State := ⟨0x67452301, 0xEFCDAB89, 0x98BADCFE, 0x10325476, 0xC3D2E1F0⟩

def add (s t : State) : State := ⟨s.a + t.a, s.b + t.b, s.c + t.c, s.d + t.d, s.e + t.e⟩

end State

def rotateLeft (w : UInt32) (n : UInt32) : UInt32 := (w <<< n) ||| (w >>> (32 - n))

def padded (message : Bytes) : Bytes :=
  let zeros := (119 - message.length % 64) % 64
  message ++ (0x80 :: (List.replicate zeros 0 ++ Bytes.ofNat 8 (8 * message.length)))

def words (block : Bytes) : Array UInt32 :=
  ((List.range 16).map fun i =>
    UInt32.ofNat (Bytes.toNat ((block.drop (4 * i)).take 4))).toArray

def schedule (block : Bytes) : Array UInt32 :=
  (List.range 64).foldl (fun w i =>
    let word (n : Nat) := w.getD (i + n) 0
    w.push (rotateLeft (word 13 ^^^ word 8 ^^^ word 2 ^^^ word 0) 1)) (words block)

def round (s : State) (i : Nat) (word : UInt32) : State :=
  let (f, k) : UInt32 × UInt32 :=
    if i < 20 then ((s.b &&& s.c) ||| ((~~~s.b) &&& s.d), 0x5A827999)
    else if i < 40 then (s.b ^^^ s.c ^^^ s.d, 0x6ED9EBA1)
    else if i < 60 then ((s.b &&& s.c) ||| (s.b &&& s.d) ||| (s.c &&& s.d), 0x8F1BBCDC)
    else (s.b ^^^ s.c ^^^ s.d, 0xCA62C1D6)
  ⟨rotateLeft s.a 5 + f + s.e + k + word, s.a, rotateLeft s.b 30, s.c, s.d⟩

def compress (s : State) (block : Bytes) : State :=
  let w := schedule block
  s.add ((List.range 80).foldl (fun s i => round s i (w.getD i 0)) s)

def absorb (s : State) (message : Bytes) : (n : Nat) → State
  | 0 => s
  | n + 1 => absorb (compress s (message.take 64)) (message.drop 64) n

def ofBytes (message : Bytes) : Bytes :=
  let text := padded message
  let s := absorb .initial text (text.length / 64)
  Bytes.u32 s.a ++ (Bytes.u32 s.b ++ (Bytes.u32 s.c ++ (Bytes.u32 s.d ++ Bytes.u32 s.e)))

end ClassHooks.Digest
