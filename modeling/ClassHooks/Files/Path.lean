/-!
Paths as they are spelled: absolute or not, and the segments between slashes. Two spellings name
one path if their components agree; empty segments and dots, the first dot of a relative path
apart, are no components. Paths are ordered by their components.
-/
namespace ClassHooks

inductive Component where
  | root
  | current
  | parent
  | normal (name : String)
  deriving DecidableEq, Repr, Hashable

namespace Component

def rank : Component → Nat
  | .root => 0
  | .current => 1
  | .parent => 2
  | .normal _ => 3

def isNormal : Component → Bool
  | .normal _ => true
  | _ => false

def compare : Component → Component → Ordering
  | .normal a, .normal b => Ord.compare a b
  | a, b => Ord.compare a.rank b.rank

end Component

structure Path where
  absolute : Bool
  segments : List String
  deriving DecidableEq, Repr, Inhabited

namespace Path

def splitSlashes (read : List Char) : List Char → List String
  | [] => [String.ofList read.reverse]
  | c :: rest =>
    if c = '/' then String.ofList read.reverse :: splitSlashes [] rest
    else splitSlashes (c :: read) rest

def segmentsOf : List Char → List String
  | [] => []
  | cs => splitSlashes [] cs

def parse (text : String) : Path :=
  match text.toList with
  | '/' :: rest => ⟨true, segmentsOf rest⟩
  | cs => ⟨false, segmentsOf cs⟩

def text (p : Path) : String :=
  (if p.absolute then "/" else "") ++ "/".intercalate p.segments

instance : ToString Path := ⟨text⟩

def innerComponent (segment : String) : Option Component :=
  if segment = "" ∨ segment = "." then none
  else if segment = ".." then some .parent
  else some (.normal segment)

def firstComponent (segment : String) : Option Component :=
  if segment = "." then some .current else innerComponent segment

def steps (p : Path) : List (String × Option Component) :=
  match p.absolute, p.segments with
  | false, first :: rest => (first, firstComponent first) :: rest.map fun s => (s, innerComponent s)
  | _, segments => segments.map fun s => (s, innerComponent s)

def components (p : Path) : List Component :=
  (if p.absolute then [.root] else []) ++ p.steps.filterMap (·.2)

def sameAs (p q : Path) : Bool := p.components == q.components

/-- The order of the first components that differ; a beginning comes before the whole. -/
def compareComponents : List Component → List Component → Ordering
  | [], [] => .eq
  | [], _ :: _ => .lt
  | _ :: _, [] => .gt
  | a :: as, b :: bs => (Component.compare a b).then (compareComponents as bs)

def compare (p q : Path) : Ordering := compareComponents p.components q.components

def startsWith (p base : Path) : Bool := base.components.isPrefixOf p.components

def trimEnd (steps : List (String × Option Component)) : List (String × Option Component) :=
  (steps.reverse.dropWhile fun s => s.2.isNone).reverse

def dropComponents : Nat → List (String × Option Component) → List (String × Option Component)
  | 0, steps => steps
  | _, [] => []
  | n + 1, (_, none) :: rest => dropComponents (n + 1) rest
  | n + 1, (_, some _) :: rest => dropComponents n rest

/-- What follows `base`, spelled as in the path, if the path starts with it. -/
def relativeTo? (p base : Path) : Option Path :=
  if p.startsWith base then
    let dropped := base.components.length
    if dropped = 0 then some ⟨p.absolute, (trimEnd p.steps).map (·.1)⟩
    else
      let inner := if p.absolute then dropped - 1 else dropped
      let left := (dropComponents inner p.steps).dropWhile fun s => s.2.isNone
      some ⟨false, (trimEnd left).map (·.1)⟩
  else none

/-- A relative path below a path; an absolute one replaces it. -/
def join (p q : Path) : Path :=
  if q.absolute then q
  else if p.segments.isEmpty then ⟨p.absolute, q.segments⟩
  else
    let below := if q.segments.isEmpty then [""] else q.segments
    if p.segments.getLast? = some "" then ⟨p.absolute, p.segments.dropLast ++ below⟩
    else ⟨p.absolute, p.segments ++ below⟩

def parent? (p : Path) : Option Path :=
  match p.steps.reverse.dropWhile fun s => s.2.isNone with
  | [] => none
  | _ :: above => some ⟨p.absolute, (trimEnd above.reverse).map (·.1)⟩

def fileName? (p : Path) : Option String :=
  match p.components.getLast? with
  | some (.normal name) => some name
  | _ => none

/-- What follows the last dot of the file name, unless the dot comes first. -/
def extension? (p : Path) : Option String :=
  match p.fileName? with
  | none => none
  | some name =>
    let backward := name.toList.reverse
    match backward.dropWhile (· ≠ '.') with
    | [] | [_] => none
    | _ :: _ :: _ => some (String.ofList (backward.takeWhile (· ≠ '.')).reverse)

def endsWithSlash (p : Path) : Bool := p.segments.getLast? == some ""

end Path
end ClassHooks
