import ClassHooks.Files.Path
import ClassHooks.Bytes.Cursor

/-!
File trees: a finite map from locations to files, directories and symbolic links. A location is
the list of names from the root; the root is a directory. Entries are reported in the order in
which they are stored. Paths are followed as a file system does: name by name, through links.
-/
namespace ClassHooks

abbrev Location := List String

inductive Entry where
  | file (bytes : Bytes)
  | directory
  | link (target : Path)
  deriving DecidableEq, Repr

structure FileTree where
  entries : List (Location × Entry)
  /-- Where relative paths begin. -/
  workingDirectory : Location
  deriving DecidableEq, Repr

/-- Where a path leads: to an entry, or to a name that is free in a directory. -/
inductive Place where
  | entry (location : Location) (entry : Entry)
  | vacant (directory : Location) (name : String)
  deriving DecidableEq, Repr

namespace FileTree

/-- Nothing but the working directory and those above it. -/
def empty (workingDirectory : Location) : FileTree :=
  ⟨(List.range workingDirectory.length).map fun n => (workingDirectory.take (n + 1), .directory),
    workingDirectory⟩

def find? (t : FileTree) (location : Location) : Option Entry :=
  if location = [] then some .directory else t.entries.lookup location

def isDirectoryAt (t : FileTree) (location : Location) : Bool :=
  t.find? location == some .directory

def insert (t : FileTree) (location : Location) (entry : Entry) : FileTree :=
  if (t.find? location).isSome then
    { t with entries := t.entries.map fun e => if e.1 = location then (e.1, entry) else e }
  else { t with entries := t.entries ++ [(location, entry)] }

def erase (t : FileTree) (location : Location) : FileTree :=
  { t with entries := t.entries.filter fun e => e.1 ≠ location }

def eraseTree (t : FileTree) (location : Location) : FileTree :=
  { t with entries := t.entries.filter fun e => !location.isPrefixOf e.1 }

def children (t : FileTree) (directory : Location) : List (String × Entry) :=
  t.entries.filterMap fun e =>
    match e.1.getLast? with
    | some name => if e.1 = directory ++ [name] then some (name, e.2) else none
    | none => none

def linkLimit : Nat := 40

/-- Follows the remaining segments from a directory. The last name is looked through if it is a
link, where `follow` asks for that. -/
def walk (t : FileTree) (follow : Bool) (links : Nat) (here : Location) (todo : List String) :
    Except FileFault Place :=
  match todo with
  | [] => .ok (.entry here .directory)
  | segment :: rest =>
    if segment = "" ∨ segment = "." then walk t follow links here rest
    else if segment = ".." then walk t follow links here.dropLast rest
    else
      match t.find? (here ++ [segment]) with
      | none => if rest.all (· = "") then .ok (.vacant here segment) else .error .notFound
      | some .directory => walk t follow links (here ++ [segment]) rest
      | some (.file bytes) =>
        if rest.isEmpty then .ok (.entry (here ++ [segment]) (.file bytes))
        else .error .notADirectory
      | some (.link target) =>
        if rest.isEmpty && !follow then .ok (.entry (here ++ [segment]) (.link target))
        else
          match links with
          | 0 => .error .linkLoop
          | links + 1 =>
            walk t follow links (if target.absolute then [] else here) (target.segments ++ rest)
termination_by (links, todo.length)

def resolve (t : FileTree) (follow : Bool) (p : Path) : Except FileFault Place :=
  if p.absolute then t.walk follow linkLimit [] p.segments
  else if p.segments.isEmpty then .error .notFound
  else if t.isDirectoryAt t.workingDirectory then
    t.walk follow linkLimit t.workingDirectory p.segments
  else .error .notFound

def entry (t : FileTree) (p : Path) : Except FileFault (Location × Entry) :=
  match t.resolve true p with
  | .ok (.entry location e) => .ok (location, e)
  | .ok (.vacant _ _) => .error .notFound
  | .error e => .error e

def isPresent (t : FileTree) (p : Path) : Bool := (t.entry p).toOption.isSome

def isDirectory (t : FileTree) (p : Path) : Bool :=
  match t.entry p with
  | .ok (_, .directory) => true
  | _ => false

def readFile (t : FileTree) (p : Path) : Except FileFault Bytes :=
  match t.entry p with
  | .ok (_, .file bytes) => .ok bytes
  | .ok _ => .error .isADirectory
  | .error e => .error e

def fileLocation (t : FileTree) (p : Path) : Except FileFault Location :=
  if p.endsWithSlash then
    match t.resolve false { p with segments := p.segments.dropLast } with
    | .ok _ => .error .isADirectory
    | .error e => .error e
  else
    match t.resolve true p with
    | .ok (.entry _ .directory) => .error .isADirectory
    | .ok (.entry location _) => .ok location
    | .ok (.vacant directory name) => .ok (directory ++ [name])
    | .error e => .error e

def writeFile (t : FileTree) (p : Path) (bytes : Bytes) : Except FileFault FileTree := do
  let location ← t.fileLocation p
  return t.insert location (.file bytes)

/-- Copies a file. Its destination is emptied first, so a file copied to itself is lost. -/
def copyFile (t : FileTree) (source destination : Path) : Except FileFault FileTree := do
  match ← t.entry source with
  | (origin, .file bytes) =>
    let location ← t.fileLocation destination
    return t.insert location (.file (if location = origin then [] else bytes))
  | _ => throw .invalidInput

def createDirectory (t : FileTree) (p : Path) : Except FileFault FileTree :=
  match t.resolve false p with
  | .ok (.vacant directory name) => .ok (t.insert (directory ++ [name]) .directory)
  | .ok (.entry _ _) => .error .alreadyExists
  | .error e => .error e

/-- Creates a directory and those above it; a path of `depth` segments has fewer above it. -/
def createDirectoriesTo (t : FileTree) (depth : Nat) (p : Path) : Except FileFault FileTree :=
  if p.segments.isEmpty && !p.absolute then .ok t
  else
    match t.createDirectory p with
    | .ok t => .ok t
    | .error .notFound =>
      match depth, p.parent? with
      | depth + 1, some above => do
        let t ← t.createDirectoriesTo depth above
        match t.createDirectory p with
        | .ok t => return t
        | .error e => if t.isDirectory p then return t else throw e
      | _, _ => .error .notFound
    | .error e => if t.isDirectory p then .ok t else .error e

def createDirectories (t : FileTree) (p : Path) : Except FileFault FileTree :=
  t.createDirectoriesTo (p.segments.length + 1) p

def createParent (t : FileTree) (p : Path) : Except FileFault FileTree :=
  match p.parent? with
  | some above => t.createDirectories above
  | none => .ok t

def removeFile (t : FileTree) (p : Path) : Except FileFault FileTree :=
  match t.resolve false p with
  | .ok (.entry _ .directory) => .error .isADirectory
  | .ok (.entry location _) => .ok (t.erase location)
  | .ok (.vacant _ _) => .error .notFound
  | .error e => .error e

def removeDirectory (t : FileTree) (p : Path) : Except FileFault FileTree :=
  match t.resolve false p with
  | .ok (.entry location .directory) => .ok (t.eraseTree location)
  | .ok (.entry location (.link _)) => .ok (t.erase location)
  | .ok (.entry _ (.file _)) => .error .notADirectory
  | .ok (.vacant _ _) => .error .notFound
  | .error e => .error e

def removeIfPresent (t : FileTree) (p : Path) : Except FileFault (Bool × FileTree) :=
  match if t.isDirectory p then t.removeDirectory p else t.removeFile p with
  | .ok t => .ok (true, t)
  | .error .notFound => .ok (false, t)
  | .error e => .error e

def createLink (t : FileTree) (target p : Path) : Except FileFault FileTree :=
  match t.resolve false p with
  | .ok (.vacant directory name) => .ok (t.insert (directory ++ [name]) (.link target))
  | .ok (.entry _ _) => .error .alreadyExists
  | .error e => .error e

end FileTree
end ClassHooks
