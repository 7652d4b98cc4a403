import ClassHooks.Body.Encoding
import ClassHooks.Body.Exclusion
import ClassHooks.Hook.Chain

/-!
Weaving a chain into one method. The enter hook comes first, the return hook before every return,
and behind the code stands a handler that runs the error hook and throws on. That handler guards
all but the enter hook, after the method's own regions, which are cut so that they do not guard
return hooks.
-/
namespace ClassHooks

structure WovenMethod where
  body : Body
  returnSites : Nat
  deriving DecidableEq, Repr

namespace Weaving

def throwable : String := "java/lang/Throwable"

/-- Items with a hook, between two new labels, before each return; also the spans of the hooks.
`done` and `spans` hold what came before, last first. -/
def guardReturns (hook : List Item) (next : UInt32) (done : List Item) (spans : List CodeSpan) :
    List Item → List Item × List CodeSpan
  | [] => (done.reverse, spans.reverse)
  | .op i :: rest =>
    if i.isReturn then
      let begin : Label := ⟨next⟩
      let resume : Label := ⟨next + 1⟩
      guardReturns hook (next + 2)
        (.op i :: .mark resume :: (hook.reverse ++ .mark begin :: done))
        (⟨begin, resume⟩ :: spans) rest
    else guardReturns hook next (.op i :: done) spans rest
  | item :: rest => guardReturns hook next (item :: done) spans rest

def withReturnHook (hook : Hook) (next : UInt32) (items : List Item) :
    List Item × List CodeSpan :=
  if hook.instructions.isEmpty then (items, [])
  else guardReturns (hook.instructions.map .op) next [] [] items

/-- How many labels a woven body has more: three for the handler, two around each return hook. -/
def labelsMinted (exit : List (Instruction Label)) (returns : Nat) : Nat :=
  3 + if exit.isEmpty then 0 else 2 * returns

/-- The depth that the woven body needs: below the enter and return hooks lies the method's own
stack, below the error hook the exception. -/
def neededStack (maxStack : UInt16) (enter exit error : Hook) : Nat :=
  max (maxStack.toNat + (max enter.maxStack exit.maxStack).toNat) (1 + error.maxStack.toNat)

def handlerFrame (handler : Label) (throwable : UInt16) : Frame Label :=
  ⟨handler, .full [] [.object throwable]⟩

/-- Annotations of types name offsets that do not move with the code. -/
def isDropped (pool : Pool) (a : Attribute) : Bool :=
  a.hasName pool Attribute.visibleTypeAnnotations
    || a.hasName pool Attribute.invisibleTypeAnnotations

end Weaving

open Weaving in
/-- Weaves the chain into the body. A frame for the handler is added if the body has a stack map
or `requireFrames` asks for one. -/
def Body.weave (body : Body) (chain : Chain) (requireFrames : Bool) (method : MethodName) :
    PoolM WovenMethod := do
  let descriptor ← PoolM.lift ((MethodDescriptor.parse method.descriptor).mapError .malformed)
  let site (event : Event) : Site := ⟨method, event, descriptor.returnType⟩
  let returnSites := body.returnCount
  let enter ← chain.emit (site .enter)
  let exit ← if 0 < returnSites then chain.emit (site .return) else pure Hook.empty
  let error ← chain.emit (site .error)
  let nextLabel ← PoolM.lift (body.labelsBehind (labelsMinted exit.instructions returnSites))
  let start : Label := ⟨body.nextLabel⟩
  let finish : Label := ⟨body.nextLabel + 1⟩
  let handler : Label := ⟨body.nextLabel + 2⟩
  let (guarded, spans) := withReturnHook exit (body.nextLabel + 3) body.items
  let items := enter.instructions.map .op ++ (.mark start :: (guarded
    ++ (.mark finish :: .mark handler :: (error.instructions.map .op
    ++ [.op (.plain Opcode.athrow)]))))
  let regions ← PoolM.lift (Region.exclude items body.handlers spans)
  let needed := neededStack body.maxStack enter exit error
  if 65535 < needed then
    throw (.notSupported (.operandStack method.className method.method method.descriptor needed))
  let frames ← if requireFrames || body.frames.isSome then do
      let throwable ← Pool.addClass throwable
      pure (some (body.frames.getD [] ++ [handlerFrame handler throwable]))
    else pure body.frames
  let pool ← get
  return {
    body := { body with
      maxStack := UInt16.ofNat needed
      items
      handlers := regions ++ [⟨start, finish, handler, none⟩]
      frames
      others := body.others.filter fun a => !isDropped pool a
      nextLabel }
    returnSites }

end ClassHooks
