import ClassHooks.Build.Input
import ClassHooks.Build.Digest
import ClassHooks.Text.Blank
import ClassHooks.Text.Written

/-!
Where the inputs of a build go. A layout puts all outputs below one root, each under a name made
of the last part of its identity and the beginning of the identity's digest.
-/
namespace ClassHooks

/-- Where outputs go. No rule of the library looks at the tags of an input, so `resolve` is not
given any; and all that clearing may do is to remove one area. -/
structure Resolver where
  resolve : (identity : String) → Format → Except Error Path
  /-- What a full build removes first. -/
  area : Option Path

structure OutputLayout where
  root : Path
  deriving DecidableEq, Repr

namespace OutputLayout

def shortDigest (identity : String) : String :=
  String.join (((Digest.ofBytes identity.toUTF8.toList).take 4).map fun b => Text.hexLower 2 b.toNat)

def isSlash (c : Char) : Bool := c = '/' || c = '\\'

/-- The last part between slashes that is not empty; without one, the identity. -/
def lastPart (identity : String) : String :=
  let backward := identity.toList.reverse.dropWhile isSlash
  match backward.takeWhile (!isSlash ·) with
  | [] => identity
  | part => String.ofList part.reverse

def plainChar (c : Char) : Char :=
  if c.isAlphanum || c = '-' || c = '_' || c = '.' then c else '_'

def displayName (identity : String) : String :=
  let last := lastPart identity
  let stem := if last.endsWith ".jar" then String.ofList (last.toList.take (last.length - 4)) else last
  stem.map plainChar

def resolve (l : OutputLayout) (identity : String) (format : Format) : Except Error Path :=
  if Text.isBlank identity then .error (.invalidDestination .emptyIdentity)
  else
    let name := displayName identity ++ "-" ++ shortDigest identity
    .ok <| match format with
      | .archive => (l.root.join (.parse "archives")).join (.parse (name ++ ".jar"))
      | .directory => (l.root.join (.parse "directories")).join (.parse name)

def resolver (l : OutputLayout) : Resolver := ⟨l.resolve, some l.root⟩

end OutputLayout
end ClassHooks
