import ClassHooks.Body.Basic
import Std.Data.TreeSet

/-!
A body is valid if no label is placed twice and every label that something names is placed.
-/
namespace ClassHooks.Body

def placedLabels (placed : Std.TreeSet Label) : List Item → Except Error (Std.TreeSet Label)
  | [] => .ok placed
  | .mark l :: rest =>
    if placed.contains l then .error (.duplicateLabel l)
    else placedLabels (placed.insert l) rest
  | .op _ :: rest => placedLabels placed rest

def namedLabels (b : Body) : List Label :=
  b.instructions.flatMap Instruction.targets
  ++ b.handlers.flatMap (fun r => [r.start, r.finish, r.handler])
  ++ b.lines.map LineMark.start
  ++ (b.locals ++ b.variableTypes).flatMap (fun v => [v.start, v.finish])
  ++ (b.frames.getD []).flatMap frameLabels
where
  typeLabel? : VerificationType Label → Option Label
    | .uninitialized l => some l
    | _ => none
  frameLabels (f : Frame Label) : List Label :=
    (match f.kind with
      | .sameOneItem t => (typeLabel? t).toList
      | .append locals => locals.filterMap typeLabel?
      | .full locals stack => (locals ++ stack).filterMap typeLabel?
      | _ => []) ++ [f.position]

def validate (b : Body) : Except Error Unit := do
  let placed ← placedLabels ∅ b.items
  match b.namedLabels.find? fun l => !placed.contains l with
  | some l => throw (.undefinedLabel l)
  | none => return ()

end ClassHooks.Body
