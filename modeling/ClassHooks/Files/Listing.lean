import ClassHooks.Files.Tree

/-!
The regular files below a directory. Links are followed; a directory that several paths lead to is
entered by the first path that reaches it. The walk ends because no directory is entered twice.
-/
namespace ClassHooks.FileTree

def directories (t : FileTree) : List Location :=
  [] :: (t.entries.filter fun e => e.2 == .directory).map (·.1)

structure Contents where
  below : List Path
  files : List Path

/-- Sorts the entries of a directory; what a link leads to counts, and a link must lead
somewhere. -/
def contents (t : FileTree) (directory : Path) :
    List (String × Entry) → Except Error Contents
  | [] => .ok ⟨[], []⟩
  | (name, e) :: rest => do
    let path := directory.join ⟨false, [name]⟩
    let e ← match e with
      | .link _ =>
        match t.entry path with
        | .ok (_, target) => pure target
        | .error fault => throw ((Error.file fault).within path.text)
      | e => pure e
    let found ← contents t directory rest
    match e with
    | .directory => return ⟨path :: found.below, found.files⟩
    | .file _ => return ⟨found.below, path :: found.files⟩
    | .link _ => return found

/-- Enters the directories in `pending`, the last one found first. Directories that were entered
are no longer in `unvisited`. -/
def listFrom (t : FileTree) (unvisited : List Location) (files pending : List Path) :
    Except Error (List Path) :=
  match pending with
  | [] => .ok files
  | directory :: pending =>
    match t.entry directory with
    | .error fault => .error (.file fault)
    | .ok (_, .file _) | .ok (_, .link _) => .error (.file .notADirectory)
    | .ok (location, .directory) =>
      if _h : location ∈ unvisited then
        match t.contents directory (t.children location) with
        | .error e => .error e
        | .ok found =>
          listFrom t (unvisited.erase location) (files ++ found.files)
            (found.below.reverse ++ pending)
      else listFrom t unvisited files pending
termination_by (unvisited.length, pending.length)
decreasing_by
  · have := List.length_erase_of_mem _h
    have := List.length_pos_of_mem _h
    simp_wf
    left
    omega
  · simp_wf
    right
    omega

def listFiles (t : FileTree) (root : Path) : Except Error (List Path) := do
  let files ← t.listFrom t.directories [] [root]
  return files.mergeSort fun a b => (a.compare b).isLE

end ClassHooks.FileTree
