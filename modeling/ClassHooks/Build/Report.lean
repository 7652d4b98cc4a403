import ClassHooks.Build.Change

/-!
What a run did, in numbers and in words.
-/
namespace ClassHooks

structure Report where
  mode : BuildMode
  unitsWoven : Nat
  unitsUnchanged : Nat
  resourcesCopied : Nat
  inputsCopied : Nat
  inputsSkipped : Nat
  outputsDeleted : Nat
  methods : Nat
  returnSites : Nat
  deriving DecidableEq, Repr

structure Elapsed where
  seconds : Nat
  /-- Below a thousand million. -/
  nanoseconds : Nat
  deriving DecidableEq, Repr

namespace Elapsed

def roundHalfEven (n d : Nat) : Nat :=
  let q := n / d
  let r := 2 * (n % d)
  if d < r ∨ (d = r ∧ q % 2 = 1) then q + 1 else q

def decimals (n d : Nat) : String :=
  let hundredths := roundHalfEven (100 * n) d
  let part := toString (hundredths % 100)
  toString (hundredths / 100) ++ "." ++ (if hundredths % 100 < 10 then "0" ++ part else part)

def text (t : Elapsed) : String :=
  if 0 < t.seconds then decimals (t.seconds * 1000000000 + t.nanoseconds) 1000000000 ++ "s"
  else if 1000000 ≤ t.nanoseconds then decimals t.nanoseconds 1000000 ++ "ms"
  else if 1000 ≤ t.nanoseconds then decimals t.nanoseconds 1000 ++ "µs"
  else decimals t.nanoseconds 1 ++ "ns"

end Elapsed

namespace Report

def start (mode : BuildMode) : Report := ⟨mode, 0, 0, 0, 0, 0, 0, 0, 0⟩

def summary (r : Report) : String :=
  s!"{r.mode.text} run: {r.unitsWoven} classes rewritten ({r.methods} methods, {r.returnSites} return sites), {r.unitsUnchanged} unchanged, {r.resourcesCopied} resources, {r.inputsCopied} copied, {r.inputsSkipped} kept, {r.outputsDeleted} deleted"

def text (r : Report) (elapsed : Elapsed) : String := r.summary ++ " in " ++ elapsed.text

end Report
end ClassHooks
