import ClassHooks.Proofs.Pool.Growth
import ClassHooks.Proofs.Code.DebugTable
import ClassHooks.Proofs.Code.StackMap
import ClassHooks.Body.Encoding

/-!
What a body is encoded to: the code of its items, and tables that are read back as its own.
-/
namespace ClassHooks

theorem PoolM.lift_ok_iff {result : Except Error α} {a : α} {p p' : Pool} :
    PoolM.lift result p = .ok a p' ↔ result = .ok a ∧ p = p' := by
  cases result with
  | error e => simp [PoolM.lift]
  | ok a' => simp [PoolM.lift]

theorem Region.encode_ok {e : Encoded} {r : Region} {h : Handler} (run : r.encode e = .ok h) :
    h.start < h.finish ∧ e.offset r.start = .ok h.start ∧ e.offset r.finish = .ok h.finish ∧
      e.offset r.handler = .ok h.handler ∧ h.catchType = r.catchType.getD 0 := by
  obtain ⟨s, first, run⟩ := bind_ok_iff.mp run
  obtain ⟨f, last, run⟩ := bind_ok_iff.mp run
  dsimp only at run
  split at run
  · cases run
  · rename_i filled
    obtain ⟨l, handler, made⟩ := bind_ok_iff.mp run
    cases made
    exact ⟨UInt16.not_le.mp filled, first, last, handler, rfl⟩

namespace Attribute

inductive Holds (pool : Pool) (name : String) (parse : Bytes → Except Error (List α)) :
    List α → List Attribute → Prop where
  | nothing : Holds pool name parse [] []
  | table {a : Attribute} {entries : List α} (filled : entries ≠ [])
      (named : a.hasName pool name = true) (parsed : parse a.payload = .ok entries) :
      Holds pool name parse entries [a]

inductive HoldsFrames (pool : Pool) : Option (List (Frame UInt16)) → List Attribute → Prop where
  | nothing : HoldsFrames pool none []
  | table {a : Attribute} {frames : List (Frame UInt16)}
      (named : a.hasName pool stackMapTable = true)
      (parsed : Frame.parseTable a.payload = .ok frames) : HoldsFrames pool (some frames) [a]

variable {p q : Pool}

theorem hasName_grows (grows : p.Grows q) {a : Attribute} {name : String}
    (named : a.hasName p name = true) : a.hasName q name = true :=
  Pool.holdsText_of_grows grows named

theorem holds_grows (grows : p.Grows q) {name : String} {parse : Bytes → Except Error (List α)}
    {entries : List α} {as : List Attribute} (holds : Holds p name parse entries as) :
    Holds q name parse entries as := by
  cases holds with
  | nothing => exact .nothing
  | table filled named parsed => exact .table filled (hasName_grows grows named) parsed

theorem holdsFrames_grows (grows : p.Grows q) {frames : Option (List (Frame UInt16))}
    {as : List Attribute} (holds : HoldsFrames p frames as) : HoldsFrames q frames as := by
  cases holds with
  | nothing => exact .nothing
  | table named parsed => exact .table (hasName_grows grows named) parsed

end Attribute

namespace Body
open Attribute

section Tables
variable {e : Encoded} {p q : Pool} (sound : p.Sound)
include sound

theorem holds_of_written {write : List α → Except Error Bytes}
    {parse : Bytes → Except Error (List α)}
    (back : ∀ entries payload, write entries = .ok payload → parse payload = .ok entries)
    {name : String} {f : β → Except Error α} {xs : List β} {as : List Attribute}
    (run : (do
      if xs.isEmpty then return []
      let entries ← PoolM.lift (xs.mapM f)
      let index ← Pool.addUtf8 name
      return [⟨index, ← PoolM.lift (write entries)⟩] : PoolM (List Attribute)) p = .ok as q) :
    p.Beyond q ∧ ∃ entries, xs.mapM f = .ok entries ∧ Holds q name parse entries as := by
  by_cases empty : xs.isEmpty = true
  · rw [if_pos empty] at run
    cases run
    rw [List.isEmpty_iff.mp empty]
    exact ⟨Pool.beyond_self sound, [], rfl, .nothing⟩
  · rw [if_neg empty] at run
    obtain ⟨entries, p₁, lifted, run⟩ := state_bind_ok_iff.mp run
    obtain ⟨mapped, rfl⟩ := PoolM.lift_ok_iff.mp lifted
    obtain ⟨index, p₂, added, run⟩ := state_bind_ok_iff.mp run
    obtain ⟨beyond, named⟩ := Pool.addUtf8_ok sound added
    obtain ⟨payload, p₃, lifted', run⟩ := state_bind_ok_iff.mp run
    obtain ⟨written, rfl⟩ := PoolM.lift_ok_iff.mp lifted'
    cases run
    refine ⟨beyond, entries, mapped, .table ?_ named (back entries payload written)⟩
    rintro rfl
    cases xs with
    | nil => exact empty rfl
    | cons x xs => cases mapM_ok_iff.mp mapped

theorem holds_of_encodeLines {lines : List LineMark} {as : List Attribute}
    (run : encodeLines e lines p = .ok as q) : p.Beyond q ∧ ∃ entries,
      lines.mapM (·.encode e) = .ok entries ∧
        Holds q lineNumberTable LineEntry.parseTable entries as :=
  holds_of_written sound (fun _ _ => LineEntry.parse_written) run

theorem holds_of_encodeVariables {table : String} {locals : List Variable} {as : List Attribute}
    (run : encodeVariables e table locals p = .ok as q) : p.Beyond q ∧ ∃ entries,
      locals.mapM (·.encode e) = .ok entries ∧
        Holds q table VariableEntry.parseTable entries as :=
  holds_of_written sound (fun _ _ => VariableEntry.parse_written) run

end Tables

inductive EncodesFrames (e : Encoded) :
    Option (List (Frame Label)) → Option (List (Frame UInt16)) → Prop where
  | none : EncodesFrames e none none
  | some {frames : List (Frame Label)} {mapped : List (Frame UInt16)}
      (each : frames.mapM (·.mapPositions e.offset) = .ok mapped) :
      EncodesFrames e (some frames) (some (mapped.mergeSort fun a b => a.position ≤ b.position))

theorem holds_of_encodeFrames {e : Encoded} {p q : Pool} (sound : p.Sound)
    {frames : Option (List (Frame Label))} {as : List Attribute}
    (run : encodeFrames e frames p = .ok as q) : p.Beyond q ∧ ∃ mapped,
      EncodesFrames e frames mapped ∧ HoldsFrames q mapped as := by
  cases frames with
  | none =>
    cases run
    exact ⟨Pool.beyond_self sound, none, .none, .nothing⟩
  | some frames =>
    obtain ⟨mapped, p₁, lifted, run⟩ := state_bind_ok_iff.mp run
    obtain ⟨each, rfl⟩ := PoolM.lift_ok_iff.mp lifted
    obtain ⟨index, p₂, added, run⟩ := state_bind_ok_iff.mp run
    obtain ⟨beyond, named⟩ := Pool.addUtf8_ok sound added
    obtain ⟨payload, p₃, lifted', run⟩ := state_bind_ok_iff.mp run
    obtain ⟨written, rfl⟩ := PoolM.lift_ok_iff.mp lifted'
    cases run
    exact ⟨beyond, _, .some each, .table named (Frame.parse_written written)⟩

/-- The body and what it is encoded to; names are looked up in the pool. -/
structure Encodes (pool : Pool) (b : Body) (e : Encoded) (c : CodeAttribute) : Prop where
  encoded : Assembly.encode b.items = .ok e
  code : c.code = e.code
  maxStack : c.maxStack = b.maxStack
  maxLocals : c.maxLocals = b.maxLocals
  handlers : b.handlers.mapM (·.encode e) = .ok c.handlers
  tables : ∃ lines locals types frames lineTable localTable typeTable stackMap,
    b.lines.mapM (·.encode e) = .ok lines ∧ b.locals.mapM (·.encode e) = .ok locals ∧
    b.variableTypes.mapM (·.encode e) = .ok types ∧ EncodesFrames e b.frames frames ∧
    c.attributes = lineTable ++ (localTable ++ (typeTable ++ (stackMap ++ b.others))) ∧
    Holds pool lineNumberTable LineEntry.parseTable lines lineTable ∧
    Holds pool localVariableTable VariableEntry.parseTable locals localTable ∧
    Holds pool localVariableTypeTable VariableEntry.parseTable types typeTable ∧
    HoldsFrames pool frames stackMap

theorem encodes_grows {p q : Pool} (grows : p.Grows q) {b : Body} {e : Encoded} {c : CodeAttribute}
    (encodes : b.Encodes p e c) : b.Encodes q e c := by
  obtain ⟨lines, locals, types, frames, lineTable, localTable, typeTable, stackMap, one, two, three,
    four, listed, first, second, third, fourth⟩ := encodes.tables
  exact ⟨encodes.encoded, encodes.code, encodes.maxStack, encodes.maxLocals, encodes.handlers,
    lines, locals, types, frames, lineTable, localTable, typeTable, stackMap, one, two, three, four,
    listed, holds_grows grows first, holds_grows grows second, holds_grows grows third,
    holdsFrames_grows grows fourth⟩

theorem encodes_of_toCode {b : Body} {p p' : Pool} {c : CodeAttribute} (sound : p.Sound)
    (run : b.toCode p = .ok c p') : p.Beyond p' ∧ ∃ e, b.Encodes p' e c := by
  obtain ⟨e, p₁, lifted, run⟩ := state_bind_ok_iff.mp run
  obtain ⟨encoded, rfl⟩ := PoolM.lift_ok_iff.mp lifted
  obtain ⟨handlers, p₂, lifted', run⟩ := state_bind_ok_iff.mp run
  obtain ⟨placed, rfl⟩ := PoolM.lift_ok_iff.mp lifted'
  obtain ⟨lineTable, p₃, one, run⟩ := state_bind_ok_iff.mp run
  obtain ⟨localTable, p₄, two, run⟩ := state_bind_ok_iff.mp run
  obtain ⟨typeTable, p₅, three, run⟩ := state_bind_ok_iff.mp run
  obtain ⟨stackMap, p₆, four, run⟩ := state_bind_ok_iff.mp run
  cases run
  obtain ⟨beyond₁, lines, lineEntries, holds₁⟩ := holds_of_encodeLines sound one
  obtain ⟨beyond₂, locals, localEntries, holds₂⟩ := holds_of_encodeVariables beyond₁.sound two
  obtain ⟨beyond₃, types, typeEntries, holds₃⟩ := holds_of_encodeVariables beyond₂.sound three
  obtain ⟨beyond₄, frames, framed, holds₄⟩ := holds_of_encodeFrames beyond₃.sound four
  have late : p₅.Grows p' := beyond₄.grows
  have middle : p₄.Grows p' := Pool.grows_trans beyond₃.grows late
  have early : p₃.Grows p' := Pool.grows_trans beyond₂.grows middle
  refine ⟨⟨beyond₄.sound, Pool.grows_trans beyond₁.grows early⟩, e, encoded, rfl, rfl, rfl, placed,
    lines, locals, types, frames, lineTable, localTable, typeTable, stackMap, lineEntries,
    localEntries, typeEntries, framed, rfl, holds_grows early holds₁, holds_grows middle holds₂,
    holds_grows late holds₃, holds₄⟩

end Body
end ClassHooks
