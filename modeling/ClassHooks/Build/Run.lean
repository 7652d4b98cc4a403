import ClassHooks.Build.Destination
import ClassHooks.Files.Listing
import ClassHooks.Jar.Weaving

/-!
A run over all inputs. Each input is woven, copied through or deleted; the files of a directory
are planned, with all their destinations taken, before the first is processed. The first failure
ends the run, and what was written before it stays.
-/
namespace ClassHooks

structure Build where
  resolver : Resolver
  chain : Chain
  selector : Selector
  config : Config

structure PlannedFile where
  file : Path
  target : Path
  action : Action
  deriving DecidableEq, Repr

namespace Build

def weave (b : Build) (bytes : Bytes) : Except Error Outcome :=
  weaveUnit b.chain b.selector bytes

def copies (policy : CopyPolicy) (tree : FileTree) (destination : Path) : Bool :=
  match policy with
  | .always => true
  | .ifMissing => !tree.isPresent destination
  | .never => false

def copyThrough (policy : CopyPolicy) (source destination : Path) : RunM Unit := do
  if copies policy (← get).tree destination then
    RunM.change (·.createParent destination) none
    RunM.change (·.copyFile source destination) (some source.text)
    RunM.record Ledger.recordCopy
  else RunM.record Ledger.recordSkip

def delete (destination : Path) : RunM Unit := do
  let (removed, tree) ← RunM.look (·.removeIfPresent destination) none
  modify fun s => { s with tree }
  if removed then RunM.record Ledger.recordDelete

def weaveFile (weave : Bytes → Except Error Outcome) (source destination : Path) :
    RunM Unit := do
  let unit := source.text
  let bytes ← RunM.look (·.readFile source) (some unit)
  RunM.change (·.createParent destination) none
  if source.extension? = some "class" then
    let outcome ← RunM.lift ((weave bytes).mapError (Error.within unit))
    RunM.record (·.recordUnit outcome)
    let written := match outcome with
      | .woven bytes _ _ => bytes
      | .unchanged => bytes
    RunM.change (·.writeFile destination written) (some unit)
  else
    RunM.change (·.writeFile destination bytes) (some unit)
    RunM.record Ledger.recordResource

def processArchive (b : Build) (mode : BuildMode) (jar : ArchiveInput) (destination : Path) :
    RunM Unit :=
  match Action.decide jar.status mode with
  | .weave => Jar.renew b.weave jar.path destination
  | .copyThrough => copyThrough b.config.copyUnchanged jar.path destination
  | .delete => delete destination

/-- The files of a directory with their actions: the changes of an incremental build, all files of
a full one. -/
def work (mode : BuildMode) (d : DirectoryInput) : RunM (List (Path × Action)) := do
  match mode with
  | .incremental =>
    return d.changes.map fun change => (d.root.join change.1, Action.decide change.2 mode)
  | .full =>
    let files ← RunM.lift ((← get).tree.listFiles d.root)
    return files.map fun file => (file, Action.decide .addedOrChanged mode)

def plan (d : DirectoryInput) (destination : Path) (file : Path) (action : Action) :
    RunM PlannedFile := do
  let target ← RunM.lift (counterpart d.root destination file)
  RunM.claim target
  return ⟨file, target, action⟩

def processItem (b : Build) (item : PlannedFile) : RunM Unit :=
  match item.action with
  | .weave => weaveFile b.weave item.file item.target
  | .copyThrough => copyThrough b.config.copyUnchanged item.file item.target
  | .delete => delete item.target

def processDirectory (b : Build) (mode : BuildMode) (d : DirectoryInput) (destination : Path) :
    RunM Unit := do
  let files ← work mode d
  let planned ← files.mapM fun f => plan d destination f.1 f.2
  planned.forM b.processItem

def processInput (b : Build) (mode : BuildMode) (input : Input) : RunM Unit := do
  let destination ← RunM.lift (b.resolver.resolve input.name input.format)
  RunM.claim destination
  match input with
  | .archive jar => b.processArchive mode jar destination
  | .directory tree => b.processDirectory mode tree destination

/-- Removes the output area; it is no fault that there is none. -/
def clearArea (area : Path) : RunM Unit := fun s =>
  match s.tree.removeDirectory area with
  | .ok tree => .ok () { s with tree }
  | .error .notFound => .ok () s
  | .error fault => .error (.file fault) s

def process (b : Build) (mode : BuildMode) (inputs : List Input) : RunM Report := do
  if !mode.isIncremental then b.resolver.area.forM clearArea
  inputs.forM (b.processInput mode)
  return (← get).ledger.report

def run (b : Build) (mode : BuildMode) (inputs : List Input) (tree : FileTree) :
    Except Error Report × Session :=
  match b.process mode inputs ⟨tree, Ledger.start mode, []⟩ with
  | .ok report s => (.ok report, s)
  | .error e s => (.error e, s)

end Build
end ClassHooks
