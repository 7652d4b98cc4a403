import ClassHooks.Bytes.Cursor
import ClassHooks.Jar.Deflate.Token

/-!
Finding what was written before. Places whose next three bytes have the same hash are chained,
latest first, and a bounded number of them is compared. A copy is held back for one byte, in case a
longer one starts there.
-/
namespace ClassHooks.Jar

/-- Bytes, and for each place the last one before it with the same hash; zero stands for none. -/
structure Repeats where
  data : Array UInt8
  earlier : Array Nat

namespace Repeats

def hash (a b c : UInt8) : Nat := (a.toNat <<< 10 ^^^ b.toNat <<< 5 ^^^ c.toNat) % 32768

def chain (latest : Array Nat) (place : Nat) (earlier : Array Nat) : Bytes → Array Nat
  | a :: b :: c :: rest =>
    let h := hash a b c
    let before := latest.getD h 0
    chain (latest.setIfInBounds h place) (place + 1) (earlier.push before) (b :: c :: rest)
  | _ => earlier

def ofBytes (bytes : Bytes) : Repeats :=
  ⟨bytes.toArray, chain (Array.replicate 32768 0) 0 #[] bytes⟩

def lengthLimit : Nat := 258

def window : Nat := 32768

/-- The place after `previous` in the chain, for a copy to `place` from at most `reach` bytes
before. Places are told apart by their last 16 bits, and those where all 16 are zero end a chain. -/
def next? (r : Repeats) (place reach previous : Nat) : Option Nat :=
  let before := r.earlier.getD previous 0
  let distance := (place - before) % 65536
  if before % 65536 = 0 || distance = 0 || reach < distance then none else some (place - distance)

def common (r : Repeats) (a b : Nat) : (limit : Nat) → Nat
  | 0 => 0
  | limit + 1 => if r.data[a]? = r.data[b]? then common r (a + 1) (b + 1) limit + 1 else 0

/-- Compares `budget` places of the chain at most. A place that agrees in the two bytes which would
end a longer copy than `best` is compared in full, which uses up the budget to a multiple of
three. -/
def search (r : Repeats) (place reach limit : Nat) :
    (budget : Nat) → (previous : Nat) → (best : Copy) → Copy
  | 0, _, best => best
  | budget + 1, previous, best =>
    match r.next? place reach previous with
    | none => best
    | some start =>
      if r.common (start + (best.length - 1)) (place + (best.length - 1)) 2 = 2 then
        let length := r.common start place limit
        if best.length < length then
          if length = limit then ⟨length, place - start⟩
          else search r place reach limit (budget / 3 * 3) start ⟨length, place - start⟩
        else search r place reach limit (budget / 3 * 3) start best
      else search r place reach limit budget start best
termination_by budget => budget
decreasing_by all_goals omega

/-- A copy to `place` of more than `least` bytes. A copy of three bytes from far away would cost
more than it saves. -/
def longest? (r : Repeats) (place least : Nat) : Option Copy :=
  let limit := min lengthLimit (r.data.size - place)
  if limit ≤ least then none
  else
    let reach := min place (window - limit)
    let c := r.search place reach limit (if least < 32 then 129 else 33) place ⟨least, 0⟩
    if c.distance = 0 || (c.length = 3 && 8192 ≤ c.distance) || place % window = c.distance then none
    else some c

/-- A copy of so many bytes is not held back. -/
def longEnough : Nat := 128

/-- The tokens that are settled at `place`, the copy that is held back after that, and how many
bytes are passed. `held` is a copy to the place before. -/
def step (r : Repeats) (place : Nat) (held : Option Copy) : List Token × Option Copy × Nat :=
  match held, r.longest? place ((held.map Copy.length).getD 2) with
  | none, none => ([.literal (r.data.getD place 0)], none, 1)
  | some copy, none => ([.copy copy], none, copy.length - 1)
  | held, some copy =>
    let passed := if held.isSome then [.literal (r.data.getD (place - 1) 0)] else []
    if longEnough ≤ copy.length then (passed ++ [.copy copy], none, copy.length)
    else (passed, some copy, 1)

end Repeats
end ClassHooks.Jar
