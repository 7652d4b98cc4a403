import ClassHooks.Hook.Emitter

/-!
What a policy does at a site: emitter operations one after the other, each chosen after the answer
of the one before it. A script can do nothing but perform operations, so every property that each
operation keeps holds after every script.
-/
namespace ClassHooks

inductive Operation where
  | pushInt (value : Int32)
  | pushString (text : String)
  | pushNull
  | copyReturnValue
  | copyException
  | box (type : FieldType)
  | invokeStatic (owner name descriptor : String)
  | checkcast (className : String)
  | discard
  | swap
  | raw (instruction : Instruction Label) (pops pushes : List ValueKind)
  | constant (value : Constant)
  deriving DecidableEq, Repr

namespace Operation

def perform : Operation → EmitM (Option UInt16)
  | .pushInt value => do EmitM.pushInt value; return none
  | .pushString text => do EmitM.pushString text; return none
  | .pushNull => do EmitM.pushNull; return none
  | .copyReturnValue => do EmitM.copyReturnValue; return none
  | .copyException => do EmitM.copyException; return none
  | .box type => do EmitM.box type; return none
  | .invokeStatic owner name descriptor => do EmitM.invokeStatic owner name descriptor; return none
  | .checkcast className => do EmitM.checkcast className; return none
  | .discard => do EmitM.discard; return none
  | .swap => do EmitM.swap; return none
  | .raw instruction pops pushes => do EmitM.raw instruction pops pushes; return none
  | .constant value => return some (← EmitM.inPool (Pool.add value))

end Operation

inductive Script where
  | done
  | fail (error : Error)
  | perform (operation : Operation) (next : Except Error (Option UInt16) → Script)

namespace Script

/-- The policy is told of every failure but an overflow. -/
def run : Script → EmitM Unit
  | .done => pure ()
  | .fail error => throw error
  | .perform operation next => fun s =>
    match operation.perform s with
    | .ok answer s => run (next (.ok answer)) s
    | .error error s =>
      if error.isReported then run (next (.error error)) s else .error error s

def andThen (operation : Operation) (rest : Script) : Script :=
  .perform operation fun
    | .ok _ => rest
    | .error error => .fail error

def ofOperations (operations : List Operation) : Script := operations.foldr andThen .done

end Script
end ClassHooks
