import ClassHooks.Bytes.Cursor

/-!
Text in UTF-8 that may be damaged. Bytes that begin a character and do not end it are read as one
replacement character, and so is each byte that begins none.
-/
namespace ClassHooks.Text

/-- Least and greatest byte at each place behind a first byte; `none` if no character begins so. -/
def following (first : UInt8) : Option (List (UInt8 × UInt8)) :=
  if first < 0x80 then some []
  else if first < 0xC2 then none
  else if first < 0xE0 then some [(0x80, 0xBF)]
  else if first = 0xE0 then some [(0xA0, 0xBF), (0x80, 0xBF)]
  else if first = 0xED then some [(0x80, 0x9F), (0x80, 0xBF)]
  else if first < 0xF0 then some [(0x80, 0xBF), (0x80, 0xBF)]
  else if first = 0xF0 then some [(0x90, 0xBF), (0x80, 0xBF), (0x80, 0xBF)]
  else if first < 0xF4 then some [(0x80, 0xBF), (0x80, 0xBF), (0x80, 0xBF)]
  else if first = 0xF4 then some [(0x80, 0x8F), (0x80, 0xBF), (0x80, 0xBF)]
  else none

def matched : List (UInt8 × UInt8) → Bytes → Nat
  | (least, greatest) :: ranges, b :: rest =>
    if least ≤ b && b ≤ greatest then matched ranges rest + 1 else 0
  | _, _ => 0

def joined (first : UInt8) (others : Bytes) : Char :=
  let lead := if others.isEmpty then first.toNat else first.toNat % Nat.pow 2 (6 - others.length)
  Char.ofNat (others.foldl (fun n b => 64 * n + b.toNat % 64) lead)

def lossyChars : Bytes → List Char
  | [] => []
  | first :: rest =>
    match following first with
    | none => '\uFFFD' :: lossyChars rest
    | some ranges =>
      let n := matched ranges rest
      let c := if n = ranges.length then joined first (rest.take n) else '\uFFFD'
      c :: lossyChars (rest.drop n)
termination_by bytes => bytes.length
decreasing_by all_goals simp only [List.length_cons, List.length_drop]; omega

def lossy (bytes : Bytes) : String := String.ofList (lossyChars bytes)

end ClassHooks.Text
