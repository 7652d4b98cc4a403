import ClassHooks.Build.Ledger
import ClassHooks.Files.Tree

/-!
The state of a run: the file tree, the ledger and the warnings. What an action has done stays, also
when it fails.
-/
namespace ClassHooks

structure Session where
  tree : FileTree
  ledger : Ledger
  warnings : List String
  deriving DecidableEq, Repr

abbrev RunM := EStateM Error Session

namespace RunM

def lift (result : Except Error α) : RunM α := fun s =>
  match result with
  | .ok a => .ok a s
  | .error e => .error e s

def look (operation : FileTree → Except FileFault α) (unit : Option String) : RunM α := fun s =>
  match operation s.tree with
  | .ok a => .ok a s
  | .error fault =>
    .error (match unit with
      | some u => (Error.file fault).within u
      | none => .file fault) s

def change (operation : FileTree → Except FileFault FileTree) (unit : Option String) :
    RunM Unit := do
  let tree ← look operation unit
  modify fun s => { s with tree }

def record (entry : Ledger → Ledger) : RunM Unit :=
  modify fun s => { s with ledger := entry s.ledger }

def warn (text : String) : RunM Unit :=
  modify fun s => { s with warnings := s.warnings ++ [text] }

def claim (path : Path) : RunM Unit := do
  let ledger ← lift ((← get).ledger.claim path)
  modify fun s => { s with ledger }

end RunM
end ClassHooks
