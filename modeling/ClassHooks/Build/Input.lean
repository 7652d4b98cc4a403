import ClassHooks.Build.Change
import ClassHooks.Error
import ClassHooks.Files.Path

/-!
The inputs of a build, and where the files of a directory go: a file keeps its path below the root
of its input.
-/
namespace ClassHooks

inductive Format where
  | archive
  | directory
  deriving DecidableEq, Repr

namespace Format

def text : Format → String
  | .archive => "Archive"
  | .directory => "Directory"

end Format

structure ArchiveInput where
  name : String
  path : Path
  status : ChangeStatus
  deriving DecidableEq, Repr

def ArchiveInput.ofPath (path : Path) (status : ChangeStatus) : ArchiveInput :=
  ⟨path.text, path, status⟩

abbrev ChangeMap := List (Path × ChangeStatus)

namespace ChangeMap

/-- Sets the status of a path; a path that is there keeps its spelling. -/
def insert (file : Path) (status : ChangeStatus) : ChangeMap → ChangeMap
  | [] => [(file, status)]
  | (other, s) :: rest =>
    match file.compare other with
    | .lt => (file, status) :: (other, s) :: rest
    | .eq => (other, status) :: rest
    | .gt => (other, s) :: insert file status rest

end ChangeMap

structure DirectoryInput where
  name : String
  root : Path
  changes : ChangeMap
  deriving DecidableEq, Repr

namespace DirectoryInput

def ofPath (root : Path) : DirectoryInput := ⟨root.text, root, []⟩

def withChange (d : DirectoryInput) (file : Path) (status : ChangeStatus) : DirectoryInput :=
  { d with changes := ChangeMap.insert file status d.changes }

end DirectoryInput

inductive Input where
  | archive (jar : ArchiveInput)
  | directory (tree : DirectoryInput)
  deriving DecidableEq, Repr

namespace Input

def name : Input → String
  | .archive a => a.name
  | .directory d => d.name

def format : Input → Format
  | .archive _ => .archive
  | .directory _ => .directory

end Input

/-- Where a file of a source tree goes. A file given relative to the root may also be spelled with
the root; the path below the root must consist of names. -/
def counterpart (source destination file : Path) : Except Error Path := do
  let below ←
    if file.absolute || file.startsWith source then
      match file.relativeTo? source with
      | some below => pure below
      | none => throw (.invalidDestination (.outsideRoot file.text source.text))
    else pure file
  if below.components.any (!·.isNormal) || below.text == "" then
    throw (.invalidDestination (.noFileUnderRoot file.text source.text))
  return destination.join below

end ClassHooks
