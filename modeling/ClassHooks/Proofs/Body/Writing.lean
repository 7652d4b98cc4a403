import ClassHooks.Proofs.Body.Moving
import ClassHooks.Proofs.Pool.Codec

/-!
When a decoded body is written as a code attribute: if its items can be encoded and the pool has room
for the names of its tables, nothing else can fail.
-/
namespace ClassHooks

theorem flatMap_length_lt {f : α → List β} {P : α → Bool} {n : Nat} {as : List α} (positive : 0 < n)
    (off : ∀ a ∈ as, P a = false → f a = []) (few : ∀ a ∈ as, (f a).length < n)
    (once : as.countP P ≤ 1) : (as.flatMap f).length < n := by
  induction as with
  | nil => exact positive
  | cons a as ih =>
    obtain ⟨here, later⟩ := List.forall_mem_cons.mp off
    obtain ⟨first, others⟩ := List.forall_mem_cons.mp few
    rw [List.countP_cons] at once
    rw [List.flatMap_cons]
    cases hit : P a with
    | false =>
      rw [here hit, List.nil_append]
      exact ih later others (by omega)
    | true =>
      have none : as.flatMap f = [] := by
        rw [List.flatMap_eq_nil_iff]
        intro a' member
        refine later a' member ?_
        have zero : as.countP P = 0 := by simp [hit] at once; simpa using once
        simpa using List.countP_eq_zero.mp zero a' member
      rw [none, List.append_nil]
      exact first

namespace CodeAttribute
open Attribute

def TablesOnce (pool : Pool) (c : CodeAttribute) : Prop :=
  ∀ name ∈ [lineNumberTable, localVariableTable, localVariableTypeTable],
    c.attributes.countP (·.hasName pool name) ≤ 1

instance (pool : Pool) (c : CodeAttribute) : Decidable (c.TablesOnce pool) :=
  inferInstanceAs (Decidable (∀ name ∈ [_, _, _], _))

variable {pool : Pool} {c : CodeAttribute} (once : c.TablesOnce pool)
include once

theorem few_lines : (c.lineEntries pool).length < 65536 := by
  refine flatMap_length_lt (P := (·.hasName pool lineNumberTable)) (by decide) (fun a _ other => ?_)
    (fun a _ => ?_) (once _ (by simp))
  · simp [Attribute.lineEntries, other]
  · unfold Attribute.lineEntries
    split
    · cases parsed : LineEntry.parseTable a.payload with
      | ok es => exact LineEntry.few_of_parse parsed
      | error e => exact (by decide : 0 < 65536)
    · exact (by decide : 0 < 65536)

theorem few_variables {table : String}
    (debug : table ∈ [lineNumberTable, localVariableTable, localVariableTypeTable]) :
    (c.variableEntries pool table).length < 65536 := by
  refine flatMap_length_lt (P := (·.hasName pool table)) (by decide) (fun a _ other => ?_)
    (fun a _ => ?_) (once _ debug)
  · simp [Attribute.variableEntries, other]
  · unfold Attribute.variableEntries
    split
    · cases parsed : VariableEntry.parseTable a.payload with
      | ok es => exact VariableEntry.few_of_parse parsed
      | error e => exact (by decide : 0 < 65536)
    · exact (by decide : 0 < 65536)

omit once

theorem writable_frames (pool : Pool) (c : CodeAttribute) :
    ((c.frameEntries pool).getD []).length < 65536 ∧
    ∀ f ∈ (c.frameEntries pool).getD [], Frame.Writable f.kind := by
  rcases c.frames_parsed pool with none | ⟨payload, parsed⟩
  · rw [none]
    exact ⟨(by decide : 0 < 65536), nofun⟩
  · exact Frame.writable_of_parse parsed

end CodeAttribute

namespace Body
open Attribute Labelling

def tableName (name : String) (xs : List α) : List String := if xs.isEmpty then [] else [name]

def tableNames (b : Body) : List String :=
  tableName lineNumberTable b.lines ++ (tableName localVariableTable b.locals ++
    (tableName localVariableTypeTable b.variableTypes ++
      tableName stackMapTable b.frames.toList))

theorem tableName_length (name : String) (xs : List α) : (tableName name xs).length ≤ 1 := by
  unfold tableName
  split <;> simp

theorem hasRoom_tableNames {p : Pool} (free : p.size + 4 ≤ 65535) (b : Body) :
    p.HasRoom b.tableNames := by
  have few : b.tableNames.length ≤ 4 := by
    have := tableName_length lineNumberTable b.lines
    have := tableName_length localVariableTable b.locals
    have := tableName_length localVariableTypeTable b.variableTypes
    have := tableName_length stackMapTable b.frames.toList
    simp only [tableNames, List.length_append]
    omega
  have := List.countP_le_length (p := fun name => !p.knows name) (l := b.tableNames)
  unfold Pool.HasRoom
  omega

section Tables
variable {p : Pool} (reached : p.Reached) {names : List String}
include reached

theorem writes_table {write : List α → Except Error Bytes} {f : β → Except Error α} {xs : List β}
    {entries : List α} (mapped : xs.mapM f = .ok entries)
    (writes : ∃ payload, write entries = .ok payload) {name : String}
    (room : p.HasRoom (tableName name xs ++ names)) : ∃ as q, (do
      if xs.isEmpty then return []
      let entries ← PoolM.lift (xs.mapM f)
      let index ← Pool.addUtf8 name
      return [⟨index, ← PoolM.lift (write entries)⟩] : PoolM (List Attribute)) p = .ok as q ∧
      q.Reached ∧ q.HasRoom names ∧
      ((∀ known ∈ tableName name xs, p.knows known = true) → q = p) := by
  unfold tableName at room ⊢
  by_cases empty : xs.isEmpty = true
  · rw [if_pos empty] at room
    exact ⟨[], p, by rw [if_pos empty]; rfl, reached, room, fun _ => rfl⟩
  · rw [if_neg empty] at room
    obtain ⟨payload, written⟩ := writes
    obtain ⟨i, q, added, reached', room', same⟩ := Pool.addUtf8_of_room reached room
    refine ⟨[⟨i, payload⟩], q, ?_, reached', room', fun known => same (known name ?_)⟩
    · rw [if_neg empty]
      exact state_bind_ok_iff.mpr ⟨entries, p, PoolM.lift_ok_iff.mpr ⟨mapped, rfl⟩,
        state_bind_ok_iff.mpr ⟨i, q, added, state_bind_ok_iff.mpr
          ⟨payload, q, PoolM.lift_ok_iff.mpr ⟨written, rfl⟩, rfl⟩⟩⟩
    · rw [if_neg empty]
      exact List.mem_singleton.mpr rfl

theorem writes_stackMap {e : Encoded} {frames : Option (List (Frame Label))}
    {mapped : Option (List (Frame UInt16))} (encodes : EncodesFrames e frames mapped)
    (writes : ∀ fs ∈ mapped, ∃ payload, Frame.writeTable fs = .ok payload)
    (room : p.HasRoom (tableName stackMapTable frames.toList)) : ∃ as q,
      encodeFrames e frames p = .ok as q ∧
      ((∀ known ∈ tableName stackMapTable frames.toList, p.knows known = true) → q = p) := by
  cases encodes with
  | none => exact ⟨[], p, rfl, fun _ => rfl⟩
  | some each =>
    obtain ⟨payload, written⟩ := writes _ rfl
    obtain ⟨i, q, added, _, _, same⟩ := Pool.addUtf8_of_room reached room
    refine ⟨[⟨i, payload⟩], q, ?_, fun known => same (known _ (List.mem_singleton.mpr rfl))⟩
    exact state_bind_ok_iff.mpr ⟨_, p, PoolM.lift_ok_iff.mpr ⟨each, rfl⟩,
      state_bind_ok_iff.mpr ⟨i, q, added, state_bind_ok_iff.mpr
        ⟨payload, q, PoolM.lift_ok_iff.mpr ⟨written, rfl⟩, rfl⟩⟩⟩

end Tables

structure Recodes (pool pool' : Pool) (f : UInt16 → UInt16) (c c' : CodeAttribute) : Prop where
  maxStack : c'.maxStack = c.maxStack
  maxLocals : c'.maxLocals = c.maxLocals
  handlers : c'.handlers = c.handlers.map (Handler.move f)
  attributes : ∃ lineTable localTable typeTable stackMap,
    c'.attributes =
      lineTable ++ (localTable ++ (typeTable ++ (stackMap ++ c.otherAttributes pool))) ∧
    Holds pool' lineNumberTable LineEntry.parseTable
      ((c.lineEntries pool).map fun l => ⟨f l.start, l.line⟩) lineTable ∧
    Holds pool' localVariableTable VariableEntry.parseTable
      ((c.variableEntries pool localVariableTable).map (VariableEntry.move f)) localTable ∧
    Holds pool' localVariableTypeTable VariableEntry.parseTable
      ((c.variableEntries pool localVariableTypeTable).map (VariableEntry.move f)) typeTable ∧
    HoldsFrames pool' ((c.frameEntries pool).map (List.map (Frame.map f))) stackMap

theorem encodesFrames_unique {e : Encoded} {frames frames' : Option (List (Frame UInt16))}
    {source : Option (List (Frame Label))} (one : EncodesFrames e source frames)
    (two : EncodesFrames e source frames') : frames = frames' := by
  cases one with
  | none =>
    cases two
    rfl
  | some each =>
    cases two with
    | some each' =>
      rw [each] at each'
      cases each'
      rfl

section Decoded
variable {pool q : Pool} {t : Labelling} {c : CodeAttribute}
  {decoded : List (UInt16 × Instruction UInt16)} {b : Body} {e : Encoded} {f : UInt16 → UInt16}
  (labelled : Labelled pool t c decoded b) (moves : t.Moves e f)
include labelled moves

theorem toCode_of_encode (once : c.TablesOnce pool)
    (encoded : Assembly.encode b.items = .ok e) (reached : q.Reached)
    (room : q.HasRoom b.tableNames) : ∃ c' q', b.toCode q = .ok c' q' ∧
      ((∀ name ∈ b.tableNames, q.knows name = true) → q' = q) := by
  have tables := labelled.tables
  have frames := moves.encodesFrames tables
  obtain ⟨few, writable⟩ := c.writable_frames pool
  have ordered := moves.frames_ordered tables
  have stackMap : ∀ fs ∈ (c.frameEntries pool).map (List.map (Frame.map f)),
      ∃ payload, Frame.writeTable fs = .ok payload := by
    intro fs found
    obtain ⟨gs, here, rfl⟩ := Option.map_eq_some_iff.mp found
    rw [here, Option.getD_some] at few writable ordered
    refine Frame.writes (by rwa [List.length_map]) (fun g member => ?_) ordered
    obtain ⟨g', inside, rfl⟩ := List.mem_map.mp member
    exact Frame.writable_map.mpr (writable g' inside)
  obtain ⟨lineTable, q₁, one, reached₁, room₁, same₁⟩ :=
    writes_table reached (moves.encode_lines tables)
      (LineEntry.writes (by rw [List.length_map]; exact c.few_lines once)) room
  obtain ⟨localTable, q₂, two, reached₂, room₂, same₂⟩ :=
    writes_table reached₁ (moves.encode_variables tables.locals)
      (VariableEntry.writes (by rw [List.length_map]; exact c.few_variables once (by simp))) room₁
  obtain ⟨typeTable, q₃, three, reached₃, room₃, same₃⟩ :=
    writes_table reached₂ (moves.encode_variables tables.types)
      (VariableEntry.writes (by rw [List.length_map]; exact c.few_variables once (by simp))) room₂
  obtain ⟨stackMapTable, q₄, four, same₄⟩ := writes_stackMap reached₃ frames stackMap room₃
  refine ⟨_, q₄, state_bind_ok_iff.mpr ⟨e, q, PoolM.lift_ok_iff.mpr ⟨encoded, rfl⟩,
    state_bind_ok_iff.mpr ⟨_, q, PoolM.lift_ok_iff.mpr
      ⟨moves.encode_regions labelled.regions, rfl⟩,
    state_bind_ok_iff.mpr ⟨lineTable, q₁, one, state_bind_ok_iff.mpr ⟨localTable, q₂, two,
      state_bind_ok_iff.mpr ⟨typeTable, q₃, three, state_bind_ok_iff.mpr
        ⟨stackMapTable, q₄, four, rfl⟩⟩⟩⟩⟩⟩, fun known => ?_⟩
  simp only [tableNames, List.forall_mem_append] at known
  obtain ⟨lines, locals, types, frames⟩ := known
  obtain rfl := same₁ lines
  obtain rfl := same₂ locals
  obtain rfl := same₃ types
  exact same₄ frames

theorem recodes_of_encodes {c' : CodeAttribute} (encodes : b.Encodes q e c') :
    Recodes pool q f c c' := by
  have tables := labelled.tables
  obtain ⟨lines, locals, types, frames, lineTable, localTable, typeTable, stackMap, oneLines,
    oneLocals, oneTypes, oneFrames, listed, holds, holds', holds'', held⟩ := encodes.tables
  rw [moves.encode_lines tables] at oneLines
  rw [moves.encode_variables tables.locals] at oneLocals
  rw [moves.encode_variables tables.types] at oneTypes
  have handlers := encodes.handlers
  rw [moves.encode_regions labelled.regions] at handlers
  cases oneLines
  cases oneLocals
  cases oneTypes
  obtain rfl := encodesFrames_unique oneFrames (moves.encodesFrames tables)
  refine ⟨encodes.maxStack.trans labelled.maxStack, encodes.maxLocals.trans labelled.maxLocals,
    (Except.ok.inj handlers).symm, lineTable, localTable, typeTable, stackMap, ?_, holds, holds',
    holds'', held⟩
  rw [listed, tables.others]

end Decoded
end Body
end ClassHooks
