import ClassHooks.Bytes.Cursor

/-!
The entries of a jar, and the time each of them carries.
-/
namespace ClassHooks.Jar

structure Stamp where
  date : UInt16
  time : UInt16
  deriving DecidableEq, Repr, Inhabited

namespace Stamp

def year (s : Stamp) : Nat := 1980 + s.date.toNat / 512
def month (s : Stamp) : Nat := s.date.toNat / 32 % 16
def day (s : Stamp) : Nat := s.date.toNat % 32
def hour (s : Stamp) : Nat := s.time.toNat / 2048
def minute (s : Stamp) : Nat := s.time.toNat / 32 % 64
def second (s : Stamp) : Nat := 2 * (s.time.toNat % 32)

def earliest : Stamp := ⟨0x0021, 0⟩

def isLeapYear (year : Nat) : Bool := year % 4 = 0 && (year % 100 ≠ 0 || year % 400 = 0)

def daysOf (year month : Nat) : Nat :=
  if month = 2 then if isLeapYear year then 29 else 28
  else if month = 4 || month = 6 || month = 9 || month = 11 then 30
  else 31

def isValid (s : Stamp) : Bool :=
  1 ≤ s.month && s.month ≤ 12 && 1 ≤ s.day && s.day ≤ daysOf s.year s.month
    && s.hour < 24 && s.minute < 60 && s.second ≤ 60

def orEarliest (s : Stamp) : Stamp := if s.isValid then s else earliest

def padded (width n : Nat) : String :=
  let digits := toString n
  String.ofList (List.replicate (width - digits.length) '0') ++ digits

def text (s : Stamp) : String :=
  padded 4 s.year ++ "-" ++ padded 2 s.month ++ "-" ++ padded 2 s.day ++ " " ++ padded 2 s.hour
    ++ ":" ++ padded 2 s.minute ++ ":" ++ padded 2 s.second

end Stamp

structure Entry where
  name : String
  data : Bytes
  stored : Bool
  stamp : Stamp
  deriving DecidableEq, Repr, Inhabited

namespace Entry

def isDirectory (e : Entry) : Bool :=
  match e.name.toList.getLast? with
  | some c => c = '/' || c = '\\'
  | none => false

end Entry

end ClassHooks.Jar
