/-!
What happens to an input: its change status and the mode of the build decide.
-/
namespace ClassHooks

inductive ChangeStatus where
  | unchanged
  | addedOrChanged
  | removed
  deriving DecidableEq, Repr

namespace ChangeStatus

def text : ChangeStatus → String
  | .unchanged => "Unchanged"
  | .addedOrChanged => "AddedOrChanged"
  | .removed => "Removed"

end ChangeStatus

inductive BuildMode where
  | full
  | incremental
  deriving DecidableEq, Repr

namespace BuildMode

def text : BuildMode → String
  | .full => "Full"
  | .incremental => "Incremental"

def ofIncremental (incremental : Bool) : BuildMode := if incremental then .incremental else .full

def isIncremental (m : BuildMode) : Bool := m == .incremental

end BuildMode

inductive Action where
  | weave
  | copyThrough
  | delete
  deriving DecidableEq, Repr

namespace Action

def text : Action → String
  | .weave => "Rewrite"
  | .copyThrough => "CopyThrough"
  | .delete => "Delete"

def decide : ChangeStatus → BuildMode → Action
  | _, .full => .weave
  | .addedOrChanged, .incremental => .weave
  | .unchanged, .incremental => .copyThrough
  | .removed, .incremental => .delete

end Action

inductive CopyPolicy where
  | always
  | ifMissing
  | never
  deriving DecidableEq, Repr

namespace CopyPolicy

def text : CopyPolicy → String
  | .always => "Always"
  | .ifMissing => "IfMissing"
  | .never => "Never"

end CopyPolicy

structure Config where
  /-- Units may be processed in any order. -/
  parallel : Bool
  copyUnchanged : CopyPolicy
  deriving DecidableEq, Repr

namespace Config

def default : Config := ⟨true, .ifMissing⟩

def sequential : Config := { default with parallel := false }

end Config
end ClassHooks
