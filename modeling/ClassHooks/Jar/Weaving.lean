import ClassHooks.Jar.Archive
import ClassHooks.Build.Session

/-!
Weaving a chain into the classes of a jar. All other entries keep their data, and all keep their
order and whether they are stored. Nothing is written before every class is woven.
-/
namespace ClassHooks.Jar

namespace Entry

def isClass (e : Entry) : Bool := !e.isDirectory && e.name.endsWith ".class"

def isSignature (e : Entry) : Bool :=
  let name := e.name.map Char.toUpper
  name.startsWith "META-INF/"
    && [".SF", ".RSA", ".DSA", ".EC"].any fun ending => name.endsWith ending

def isResource (e : Entry) : Bool := !e.isDirectory && !e.isClass

/-- The entry of the new jar; directories have no data and are stored. -/
def renewed (e : Entry) (data : Bytes) : Entry :=
  if e.isDirectory then ⟨e.name, [], true, .earliest⟩ else ⟨e.name, data, e.stored, .earliest⟩

end Entry

def weaveEntry (weave : Bytes → Except Error Outcome) (jar : Path) (e : Entry) : RunM Outcome := do
  let outcome ← RunM.lift ((weave e.data).mapError (Error.within (jar.text ++ "!" ++ e.name)))
  RunM.record (·.recordUnit outcome)
  return outcome

def newData (weave : Bytes → Except Error Outcome) (jar : Path) (e : Entry) : RunM Bytes := do
  if e.isClass then
    match ← weaveEntry weave jar e with
    | .woven bytes _ _ => return bytes
    | .unchanged => return e.data
  else return e.data

def load (jar : Path) : RunM (List Entry) := fun s =>
  match s.tree.entry jar with
  | .error fault => .error (.file fault) s
  | .ok (_, .file bytes) =>
    match readEntries bytes with
    | .ok entries => .ok entries s
    | .error e => .error e s
  | .ok _ => .error .archive s

def renew (weave : Bytes → Except Error Outcome) (source destination : Path) : RunM Unit := do
  let entries ← load source
  if entries.any Entry.isSignature then
    RunM.warn (source.text ++ " is signed; rewriting its classes invalidates the signature")
  let renewed ← entries.mapM fun e => return e.renewed (← newData weave source e)
  RunM.change (·.createParent destination) none
  RunM.change (·.writeFile destination (writeEntries renewed)) none
  (entries.filter Entry.isResource).forM fun _ => RunM.record Ledger.recordResource

end ClassHooks.Jar
