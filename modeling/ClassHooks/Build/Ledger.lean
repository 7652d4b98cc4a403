import ClassHooks.Build.Report
import ClassHooks.Error
import ClassHooks.Files.Path
import ClassHooks.Weaving.Unit

/-!
The record of a run: the destinations that are taken, and the counts of its report.
-/
namespace ClassHooks

structure Ledger where
  claimed : List Path
  report : Report
  deriving DecidableEq, Repr

namespace Ledger

def start (mode : BuildMode) : Ledger := ⟨[], Report.start mode⟩

/-- Takes a destination, which no spelling of it may have been taken before. -/
def claim (l : Ledger) (path : Path) : Except Error Ledger :=
  if l.claimed.any (·.sameAs path) then .error (.destinationConflict path.text)
  else .ok { l with claimed := path :: l.claimed }

def recordUnit (l : Ledger) (outcome : Outcome) : Ledger :=
  match outcome with
  | .woven _ methods returnSites =>
    { l with report := { l.report with
        unitsWoven := l.report.unitsWoven + 1
        methods := l.report.methods + methods
        returnSites := l.report.returnSites + returnSites } }
  | .unchanged =>
    { l with report := { l.report with unitsUnchanged := l.report.unitsUnchanged + 1 } }

def recordResource (l : Ledger) : Ledger :=
  { l with report := { l.report with resourcesCopied := l.report.resourcesCopied + 1 } }

def recordCopy (l : Ledger) : Ledger :=
  { l with report := { l.report with inputsCopied := l.report.inputsCopied + 1 } }

def recordSkip (l : Ledger) : Ledger :=
  { l with report := { l.report with inputsSkipped := l.report.inputsSkipped + 1 } }

def recordDelete (l : Ledger) : Ledger :=
  { l with report := { l.report with outputsDeleted := l.report.outputsDeleted + 1 } }

end Ledger
end ClassHooks
