/-!
How values stand inside messages: lists in square brackets, records in braces, numbers in
hexadecimal with a fixed count of digits.
-/
namespace ClassHooks.Text

def listing (items : List String) : String :=
  "[" ++ ", ".intercalate items ++ "]"

def labelled (name : String) (fields : List (String × String)) : String :=
  name ++ " \x7b " ++ ", ".intercalate (fields.map fun f => f.1 ++ ": " ++ f.2) ++ " \x7d"

def applied (name argument : String) : String :=
  name ++ "(" ++ argument ++ ")"

def hexUpper : (width : Nat) → (n : Nat) → String
  | 0, _ => ""
  | width + 1, n => hexUpper width (n / 16) ++ String.singleton ((Nat.digitChar (n % 16)).toUpper)

def hexLower : (width : Nat) → (n : Nat) → String
  | 0, _ => ""
  | width + 1, n => hexLower width (n / 16) ++ String.singleton (Nat.digitChar (n % 16))

end ClassHooks.Text
