import ClassHooks.Jar.Zstandard.Tail

/-!
Tables of states. A state stands for a symbol, and some bits choose the state after it; a symbol
has as many states as it is frequent.
-/
namespace ClassHooks.Jar.Zstandard

/-- What a state stands for: its symbol, and the bits that are added to the least of the states
which may follow. -/
structure State where
  symbol : Nat
  bits : Nat
  least : Nat
  deriving Repr, Inhabited

structure StateTable where
  /-- There are two to the power of `log` states. -/
  log : Nat
  states : Array State
  deriving Repr

/-- How frequent symbols are, in states; a symbol may be so rare that its only state is followed by
all. -/
inductive Share where
  | states (n : Nat)
  | rare
  deriving DecidableEq, Repr

namespace Share

def size : Share → Nat
  | .states n => n
  | .rare => 1

def ofNumber : Nat → Share
  | 0 => .rare
  | n + 1 => .states n

end Share

namespace StateTable

def single (symbol : Nat) : StateTable := ⟨0, #[⟨symbol, 0, 0⟩]⟩

/-- The symbol of each state. Rare symbols have the last states; the others are spread. -/
def symbols (log : Nat) (shares : List Share) : Array Nat :=
  let size := Nat.pow 2 log
  let numbered := shares.zipIdx
  let rare := (numbered.filter (·.1 = .rare)).map (·.2)
  let step := size / 2 + size / 8 + 3
  let free := size - rare.length
  let places := ((List.range size).map fun i => i * step % size).filter (· < free)
  let others := numbered.flatMap fun
    | (.states n, symbol) => List.replicate n symbol
    | (.rare, _) => []
  let table := (places.zip others).foldl (fun table (place, symbol) =>
    table.setIfInBounds place symbol) (Array.replicate size 0)
  rare.zipIdx.foldl (fun table (symbol, i) => table.setIfInBounds (size - 1 - i) symbol) table

def ofShares (log : Nat) (shares : List Share) : StateTable :=
  let size := Nat.pow 2 log
  let counts := (shares.map Share.size).toArray
  let (_, states) := (symbols log shares).foldl (fun (counts, states) symbol =>
    let count := counts.getD symbol 1
    let bits := log - Nat.log2 count
    (counts.modify symbol (· + 1), states.push ⟨symbol, bits, count * Nat.pow 2 bits - size⟩))
    (counts, (#[] : Array State))
  ⟨log, states⟩

def state (t : StateTable) (i : Nat) : State := t.states.getD i default

end StateTable

def bitsFrom (bytes : Array UInt8) (place : Nat) : (n : Nat) → Nat
  | 0 => 0
  | n + 1 => bitAt bytes place + 2 * bitsFrom bytes (place + 1) n

def gap (bytes : Array UInt8) (place : Nat) (found : Nat) : (limit : Nat) → Nat × Nat
  | 0 => (found, place)
  | limit + 1 =>
    let n := bitsFrom bytes place 2
    if n = 3 then gap bytes (place + 2) (found + 3) limit else (found + n, place + 2)

/-- Shares of `left` states among the symbols after those of `shares`, which are in opposite order;
and the place behind. A number takes a bit less if it is one of the lowest. -/
def sharesFrom (bytes : Array UInt8) (place left : Nat) (shares : List Share) :
    (limit : Nat) → Except FileFault (List Share × Nat)
  | 0 => corrupt
  | limit + 1 =>
    if left = 0 then .ok (shares.reverse, place)
    else
      let bits := Nat.log2 (left + 1) + 1
      let value := bitsFrom bytes place bits
      let low := value % Nat.pow 2 (bits - 1)
      let spare := Nat.pow 2 bits - 2 - left
      let (value, place) :=
        if low < spare then (low, place + (bits - 1))
        else (if value < Nat.pow 2 (bits - 1) then value else value - spare, place + bits)
      let share := Share.ofNumber value
      if left < share.size then corrupt
      else if share = .states 0 then
        let (n, place) := gap bytes place 0 limit
        sharesFrom bytes place left (List.replicate n (.states 0) ++ share :: shares) limit
      else sharesFrom bytes place (left - share.size) (share :: shares) limit

def readTable (greatest symbols : Nat) (bytes : Bytes) : Except FileFault (StateTable × Bytes) := do
  let array := bytes.toArray
  let log := bitsFrom array 0 4 + 5
  demand (log ≤ greatest)
  let (shares, place) ← sharesFrom array 4 (Nat.pow 2 log) [] (8 * array.size + 1)
  let size := (place + 7) / 8
  demand (size ≤ array.size && shares.length ≤ symbols)
  return (.ofShares log shares, bytes.drop size)

def firstState (t : StateTable) : TailM Nat := number t.log

def nextState (t : StateTable) (i : Nat) : TailM Nat := do
  let s := t.state i
  return s.least + (← number s.bits)

end ClassHooks.Jar.Zstandard
