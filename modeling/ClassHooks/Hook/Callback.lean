import ClassHooks.Hook.Chain

/-!
A policy that reports events to static methods of a runtime class. Each report carries the names
of the class and the method; a report of a return may carry the value, and one of an error carries
the exception. An event without a method to call is not reported.
-/
namespace ClassHooks

structure Callback where
  name : String
  runtimeClass : String
  onEnter : Option String
  onReturn : Option String
  onError : Option String
  reportsValue : Bool
  deriving DecidableEq, Repr

namespace Callback

def namesDescriptor : String := "(Ljava/lang/String;Ljava/lang/String;)V"

def valueDescriptor : String := "(Ljava/lang/String;Ljava/lang/String;Ljava/lang/Object;)V"

def exceptionDescriptor : String := "(Ljava/lang/String;Ljava/lang/String;Ljava/lang/Throwable;)V"

def ofClass (runtimeClass : String) : Callback where
  name := "callback:" ++ runtimeClass
  runtimeClass := runtimeClass
  onEnter := some "onMethodEnter"
  onReturn := some "onMethodReturn"
  onError := some "onMethodError"
  reportsValue := false

def pushNames (m : MethodName) : List Operation :=
  [.pushString m.className, .pushString m.method]

/-- Puts the names of the class and the method below the reference on top. -/
def pushNamesUnder (m : MethodName) : List Operation :=
  [.pushString m.className, .swap, .pushString m.method, .swap]

/-- What is reported of a return: the value itself, wrapped if it is primitive, or null. -/
def pushValue (site : Site) : List Operation :=
  match site.returnType with
  | some type => [.copyReturnValue, .box type] ++ pushNamesUnder site.method
  | none => pushNames site.method ++ [.pushNull]

def operations (c : Callback) (site : Site) : List Operation :=
  match site.event with
  | .enter =>
    match c.onEnter with
    | none => []
    | some method =>
      pushNames site.method ++ [.invokeStatic c.runtimeClass method namesDescriptor]
  | .return =>
    match c.onReturn with
    | none => []
    | some method =>
      if c.reportsValue then
        pushValue site ++ [.invokeStatic c.runtimeClass method valueDescriptor]
      else pushNames site.method ++ [.invokeStatic c.runtimeClass method namesDescriptor]
  | .error =>
    match c.onError with
    | none => []
    | some method =>
      [.copyException] ++ pushNamesUnder site.method
        ++ [.invokeStatic c.runtimeClass method exceptionDescriptor]

def policy (c : Callback) : Policy := ⟨c.name, fun site => Script.ofOperations (c.operations site)⟩

end Callback
end ClassHooks
