import ClassHooks.Jar.Zstandard.Literals

/-!
The sequences of a block: some literals, and a copy of what was written before. Their numbers are
split into a symbol and some extra bits, and the symbols are states of three tables.
-/
namespace ClassHooks.Jar.Zstandard

structure Triple (α : Type) where
  literals : α
  offset : α
  length : α
  deriving Repr

abbrev Values := Array (Nat × Nat)

def literalValues : Values :=
  (List.range 16).toArray.map (fun n => (n, 0)) ++ #[
    (16, 1), (18, 1), (20, 1), (22, 1), (24, 2), (28, 2), (32, 3), (40, 3), (48, 4), (64, 6),
    (128, 7), (256, 8), (512, 9), (1024, 10), (2048, 11), (4096, 12), (8192, 13), (16384, 14),
    (32768, 15), (65536, 16)]

def lengthValues : Values :=
  (List.range 32).toArray.map (fun n => (n + 3, 0)) ++ #[
    (35, 1), (37, 1), (39, 1), (41, 1), (43, 2), (47, 2), (51, 3), (59, 3), (67, 4), (83, 4),
    (99, 5), (131, 7), (259, 8), (515, 9), (1027, 10), (2051, 11), (4099, 12), (8195, 13),
    (16387, 14), (32771, 15), (65539, 16)]

def offsetValues : Values := (List.range 32).toArray.map fun n => (Nat.pow 2 n, n)

structure Field where
  values : Values
  /-- Greatest `log` of a table. -/
  greatest : Nat
  /-- The table that need not be given. -/
  usual : StateTable

def shares (states : List Nat) (rare : Nat) : List Share :=
  states.map .states ++ List.replicate rare .rare

def fields : Triple Field where
  literals := ⟨literalValues, 9, .ofShares 6 (shares
    ([4, 3] ++ List.replicate 11 2 ++ [1, 1, 1] ++ List.replicate 9 2 ++ [3, 2, 1, 1, 1, 1, 1])
    4)⟩
  offset := ⟨offsetValues, 8, .ofShares 5 (shares
    (List.replicate 6 1 ++ [2, 2, 2] ++ List.replicate 15 1) 5)⟩
  length := ⟨lengthValues, 9, .ofShares 6 (shares
    ([1, 4, 3] ++ List.replicate 6 2 ++ List.replicate 37 1) 7)⟩

/-- The table of a number: the usual one, a single symbol, a new one or that of the block before. -/
def table (f : Field) (mode : Nat) (before : Option StateTable) : UnpackM StateTable :=
  match mode with
  | 0 => pure f.usual
  | 1 => do
    let symbol := (← UnpackM.byte).toNat
    demand (symbol < f.values.size)
    return .single symbol
  | 2 => do
    let bytes ← UnpackM.take (← UnpackM.remaining)
    let (t, rest) ← UnpackM.lift (readTable f.greatest f.values.size bytes)
    set rest
    return t
  | _ =>
    match before with
    | some t => pure t
    | none => corrupt

def sequenceCount : UnpackM Nat := do
  let first := (← UnpackM.byte).toNat
  if first < 128 then return first
  else if first < 255 then return (first - 128) * 256 + (← UnpackM.byte).toNat
  else return (← UnpackM.little 2) + 0x7F00

/-- A copy of `length` bytes behind some literals; an offset up to 3 is a place among the last
ones. -/
abbrev Sequence := Triple Nat

def value (values : Values) (symbol : Nat) : TailM Nat := do
  let (least, bits) := values.getD symbol (0, 0)
  return least + (← number bits)

def sequencesFrom (t : Triple StateTable) (states : Triple Nat) (found : List Sequence) :
    (n : Nat) → TailM (List Sequence)
  | 0 => do
    demand (← get).isSpent
    return found.reverse
  | n + 1 => do
    let symbol (t : StateTable) (i : Nat) := (t.state i).symbol
    let offset ← value offsetValues (symbol t.offset states.offset)
    let length ← value lengthValues (symbol t.length states.length)
    let literals ← value literalValues (symbol t.literals states.literals)
    let found := ⟨literals, offset, length⟩ :: found
    if n = 0 then sequencesFrom t states found n
    else
      let literals ← nextState t.literals states.literals
      let length ← nextState t.length states.length
      let offset ← nextState t.offset states.offset
      sequencesFrom t ⟨literals, offset, length⟩ found n

def decodeSequences (t : Triple StateTable) (n : Nat) (bytes : Bytes) :
    Except FileFault (List Sequence) :=
  let reader : TailM (List Sequence) := do
    let literals ← firstState t.literals
    let offset ← firstState t.offset
    let length ← firstState t.length
    sequencesFrom t ⟨literals, offset, length⟩ [] n
  readTail reader bytes.toArray

def sequences (before : Option (Triple StateTable)) :
    UnpackM (List Sequence × Option (Triple StateTable)) := do
  let n ← sequenceCount
  if n = 0 then
    demand (← UnpackM.atEnd)
    return ([], before)
  let modes := (← UnpackM.byte).toNat
  demand (modes % 4 = 0)
  let literals ← table fields.literals (modes / 64) (before.map (·.literals))
  let offset ← table fields.offset (modes / 16 % 4) (before.map (·.offset))
  let length ← table fields.length (modes / 4 % 4) (before.map (·.length))
  let tables := ⟨literals, offset, length⟩
  let bytes ← UnpackM.take (← UnpackM.remaining)
  return (← UnpackM.lift (decodeSequences tables n bytes), some tables)

end ClassHooks.Jar.Zstandard
