import ClassHooks.Weaving.Method
import ClassHooks.Weaving.Selector
import ClassHooks.Body.Labelling

/-!
Weaving a chain into every selected method of one class.
-/
namespace ClassHooks

inductive Outcome where
  | woven (bytes : Bytes) (methods returnSites : Nat)
  | unchanged
  deriving DecidableEq, Repr

structure WeaveCount where
  methods : Nat
  returnSites : Nat
  deriving DecidableEq, Repr

namespace Weaving

/-- The payload of a code attribute with the chain woven in, and the returns in it. -/
def payload (chain : Chain) (requireFrames : Bool) (method : MethodName) (bytes : Bytes) :
    PoolM (Bytes × Nat) := do
  let code ← PoolM.lift (CodeAttribute.parse bytes)
  let body ← PoolM.lift (Body.ofCode code (← get))
  let woven ← body.weave chain requireFrames method
  let code ← woven.body.toCode
  return (← PoolM.lift code.write, woven.returnSites)

def inMethod (method : MethodName) (operation : PoolM α) : PoolM α := fun pool =>
  match operation pool with
  | .ok a pool => .ok a pool
  | .error e pool =>
    .error (.inMethod method.className (method.method ++ method.descriptor) e) pool

/-- One member; the result is none if it has no code or is not selected. -/
def member (chain : Chain) (selector : Selector) (className : String) (classFlags : UInt16)
    (requireFrames : Bool) (m : Member) : PoolM (Option (Member × Nat)) := do
  let pool ← get
  let name ← PoolM.lift ((pool.utf8 m.name).mapError .malformed)
  let descriptor ← PoolM.lift ((pool.utf8 m.descriptor).mapError .malformed)
  match m.codeIndex pool with
  | none => return none
  | some index =>
    if selector ⟨className, classFlags, name, descriptor, m.flags, true⟩ then
      let old := (m.attributes[index]?.map Attribute.payload).getD []
      let method : MethodName := ⟨className, name, descriptor⟩
      let (new, sites) ← inMethod method (payload chain requireFrames method old)
      let attributes := m.attributes.modify index fun a => { a with payload := new }
      return some ({ m with attributes }, sites)
    else return none

def members (weave : Member → PoolM (Option (Member × Nat))) (done : List Member)
    (count : WeaveCount) : List Member → PoolM (List Member × WeaveCount)
  | [] => pure (done.reverse, count)
  | m :: rest => do
    match ← weave m with
    | none => members weave (m :: done) count rest
    | some (m, sites) =>
      members weave (m :: done) ⟨count.methods + 1, count.returnSites + sites⟩ rest

end Weaving

/-- Weaves the chain into the selected methods of the class that the bytes hold. -/
def weaveUnit (chain : Chain) (selector : Selector) (bytes : Bytes) : Except Error Outcome := do
  let c ← ClassFile.parse bytes
  if chain.isEmpty then return .unchanged
  let className ← c.name.mapError .malformed
  let weave := Weaving.member chain selector className c.flags c.requiresStackMaps
  match Weaving.members weave [] ⟨0, 0⟩ c.methods c.pool with
  | .error e _ => throw e
  | .ok (methods, count) pool =>
    if count.methods = 0 then return .unchanged
    let bytes ← { c with pool, methods }.write
    return .woven bytes count.methods count.returnSites

end ClassHooks
