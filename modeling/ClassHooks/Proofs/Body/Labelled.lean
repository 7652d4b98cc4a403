import ClassHooks.Proofs.Body.Labelling
import ClassHooks.Proofs.Instruction.Listing
import ClassHooks.Proofs.Instruction.Marks

/-!
The body of a code attribute: its instructions in order, a label where something names an offset,
and every table with labels for offsets.
-/
namespace ClassHooks

namespace Attribute

theorem eq_of_hasName {a : Attribute} {pool : Pool} {name name' : String}
    (one : a.hasName pool name = true) (two : a.hasName pool name' = true) :
    Text.ModifiedUtf8.encode name = Text.ModifiedUtf8.encode name' := by
  unfold hasName Pool.holdsText at one two
  split at one
  · rename_i bytes found
    rw [found] at two
    exact (beq_iff_eq.mp one).symm.trans (beq_iff_eq.mp two)
  · cases one

end Attribute

namespace Attribute

def lineEntries (pool : Pool) (a : Attribute) : List LineEntry :=
  if a.hasName pool lineNumberTable then (LineEntry.parseTable a.payload).toOption.getD [] else []

def variableEntries (pool : Pool) (table : String) (a : Attribute) : List VariableEntry :=
  if a.hasName pool table then (VariableEntry.parseTable a.payload).toOption.getD [] else []

def frameEntries (pool : Pool) (a : Attribute) : Option (List (Frame UInt16)) :=
  if a.hasName pool stackMapTable then some ((Frame.parseTable a.payload).toOption.getD [])
  else none

def isTable (pool : Pool) (a : Attribute) : Bool :=
  a.hasName pool stackMapTable || a.hasName pool lineNumberTable ||
    a.hasName pool localVariableTable || a.hasName pool localVariableTypeTable

end Attribute

namespace BodyPart
open Attribute Labelling

/-- What an attribute contributes, with the labels of `t`; the first flag tells that a stack map
was read before. -/
inductive Reads (pool : Pool) (t : Labelling) : Bool → Attribute → BodyPart → Prop where
  | frames {a : Attribute} {fs : List (Frame UInt16)} (name : a.hasName pool stackMapTable = true)
      (parsed : Frame.parseTable a.payload = .ok fs)
      (named : ∀ f ∈ fs, ∀ o ∈ f.positions, t.NamesInside o) :
      Reads pool t false a (.frames (fs.map (Frame.map t.labelFor)))
  | lines {mapped : Bool} {a : Attribute} {es : List LineEntry}
      (name : a.hasName pool lineNumberTable = true)
      (parsed : LineEntry.parseTable a.payload = .ok es)
      (named : ∀ e ∈ es, t.NamesInside e.start) :
      Reads pool t mapped a (.lines (es.map fun e => ⟨t.labelFor e.start, e.line⟩))
  | locals {mapped : Bool} {a : Attribute} {es : List VariableEntry} {vs : List Variable}
      (name : a.hasName pool localVariableTable = true)
      (parsed : VariableEntry.parseTable a.payload = .ok es)
      (related : List.Forall₂ t.VariableOf es vs) : Reads pool t mapped a (.locals vs)
  | types {mapped : Bool} {a : Attribute} {es : List VariableEntry} {vs : List Variable}
      (name : a.hasName pool localVariableTypeTable = true)
      (parsed : VariableEntry.parseTable a.payload = .ok es)
      (related : List.Forall₂ t.VariableOf es vs) : Reads pool t mapped a (.variableTypes vs)
  | other {mapped : Bool} {a : Attribute} (frames : a.hasName pool stackMapTable = false)
      (lines : a.hasName pool lineNumberTable = false)
      (locals : a.hasName pool localVariableTable = false)
      (types : a.hasName pool localVariableTypeTable = false) :
      Reads pool t mapped a (.other a)

theorem yields_ofAttribute (pool : Pool) (mapped : Bool) (a : Attribute) :
    Yields (ofAttribute pool mapped a) fun t part => Reads pool t mapped a part := by
  unfold ofAttribute
  dsimp only
  by_cases frames : a.hasName pool stackMapTable = true
  · rw [if_pos frames]
    cases mapped with
    | true => exact yields_throw_bind _ _
    | false =>
      refine yields_bind yields_lift fun fs => ?_
      refine yields_bind (yields_mapM yields_frame fs) fun ls => ?_
      refine yields_pure fun t related parsed => ?_
      have same : ls = fs.map (Frame.map t.labelFor) :=
        eq_map_of_related (related.imp fun _ _ here => here.1)
      rw [same]
      refine .frames frames parsed fun f member o inside => ?_
      obtain ⟨_, _, all⟩ := related_of_mem related member
      exact all.2 o inside
  rw [if_neg frames]
  by_cases lines : a.hasName pool lineNumberTable = true
  · rw [if_pos lines]
    refine yields_bind yields_lift fun es => yields_bind (yields_mapM yields_line es) fun ls => ?_
    refine yields_pure fun t related parsed => ?_
    have same : ls = es.map fun e => ⟨t.labelFor e.start, e.line⟩ :=
      eq_map_of_related (related.imp fun _ _ here => here.2)
    rw [same]
    refine .lines lines parsed fun e member => ?_
    obtain ⟨_, _, here⟩ := related_of_mem related member
    exact here.1
  rw [if_neg lines]
  by_cases locals : a.hasName pool localVariableTable = true
  · rw [if_pos locals]
    refine yields_bind yields_lift fun es =>
      yields_bind (yields_mapM yields_liveRange es) fun vs => ?_
    exact yields_pure fun t related parsed => .locals locals parsed related
  rw [if_neg locals]
  by_cases types : a.hasName pool localVariableTypeTable = true
  · rw [if_pos types]
    refine yields_bind yields_lift fun es =>
      yields_bind (yields_mapM yields_liveRange es) fun vs => ?_
    exact yields_pure fun t related parsed => .types types parsed related
  rw [if_neg types]
  simp only [Bool.not_eq_true] at frames lines locals types
  exact yields_pure fun t => .other frames lines locals types

inductive ReadsAll (pool : Pool) (t : Labelling) :
    Bool → List Attribute → List BodyPart → Prop where
  | nil {mapped : Bool} : ReadsAll pool t mapped [] []
  | cons {mapped : Bool} {a : Attribute} {part : BodyPart} {as : List Attribute}
      {parts : List BodyPart} (first : Reads pool t mapped a part)
      (rest : ReadsAll pool t (mapped || part.frames?.isSome) as parts) :
      ReadsAll pool t mapped (a :: as) (part :: parts)

theorem yields_ofAttributes (pool : Pool) (mapped : Bool) (read : List BodyPart)
    (as : List Attribute) : Yields (ofAttributes pool mapped read as) fun t parts =>
      ∃ rest, parts = read.reverse ++ rest ∧ ReadsAll pool t mapped as rest := by
  induction as generalizing mapped read with
  | nil => exact yields_pure fun t => ⟨[], by simp, .nil⟩
  | cons a as ih =>
    refine yields_bind (yields_ofAttribute pool mapped a) fun part => ?_
    refine yields_mono (ih _ _) fun t parts ⟨rest, same, all⟩ first => ?_
    exact ⟨part :: rest, by simp [same], .cons first all⟩

section Tables
variable {pool : Pool} {t : Labelling} {mapped : Bool} {a : Attribute} {part : BodyPart}

theorem tables_apart :
    (Text.ModifiedUtf8.encode stackMapTable ≠ Text.ModifiedUtf8.encode lineNumberTable ∧
      Text.ModifiedUtf8.encode stackMapTable ≠ Text.ModifiedUtf8.encode localVariableTable ∧
      Text.ModifiedUtf8.encode stackMapTable ≠ Text.ModifiedUtf8.encode localVariableTypeTable) ∧
    (Text.ModifiedUtf8.encode lineNumberTable ≠ Text.ModifiedUtf8.encode localVariableTable ∧
      Text.ModifiedUtf8.encode lineNumberTable ≠ Text.ModifiedUtf8.encode localVariableTypeTable) ∧
    Text.ModifiedUtf8.encode localVariableTable ≠
      Text.ModifiedUtf8.encode localVariableTypeTable := by
  decide +kernel

theorem hasName_other (name' : String) {name : String} (one : a.hasName pool name = true)
    (differ : Text.ModifiedUtf8.encode name ≠ Text.ModifiedUtf8.encode name') :
    a.hasName pool name' = false := by
  cases two : a.hasName pool name' with
  | false => rfl
  | true => exact absurd (eq_of_hasName one two) differ

-- No attribute has two of the names that are read.
theorem only_frames (name : a.hasName pool stackMapTable = true) :
    a.hasName pool lineNumberTable = false ∧ a.hasName pool localVariableTable = false ∧
      a.hasName pool localVariableTypeTable = false := by
  obtain ⟨lines, locals, types⟩ := tables_apart.1
  exact ⟨hasName_other _ name lines, hasName_other _ name locals, hasName_other _ name types⟩

theorem only_lines (name : a.hasName pool lineNumberTable = true) :
    a.hasName pool stackMapTable = false ∧ a.hasName pool localVariableTable = false ∧
      a.hasName pool localVariableTypeTable = false := by
  obtain ⟨frames, ⟨locals, types⟩, _⟩ := tables_apart
  exact ⟨hasName_other _ name frames.1.symm, hasName_other _ name locals,
    hasName_other _ name types⟩

theorem only_locals (name : a.hasName pool localVariableTable = true) :
    a.hasName pool stackMapTable = false ∧ a.hasName pool lineNumberTable = false ∧
      a.hasName pool localVariableTypeTable = false := by
  obtain ⟨frames, lines, types⟩ := tables_apart
  exact ⟨hasName_other _ name frames.2.1.symm, hasName_other _ name lines.1.symm,
    hasName_other _ name types⟩

theorem only_types (name : a.hasName pool localVariableTypeTable = true) :
    a.hasName pool stackMapTable = false ∧ a.hasName pool lineNumberTable = false ∧
      a.hasName pool localVariableTable = false := by
  obtain ⟨frames, lines, locals⟩ := tables_apart
  exact ⟨hasName_other _ name frames.2.2.symm, hasName_other _ name lines.2.symm,
    hasName_other _ name locals.symm⟩

structure Tells (pool : Pool) (t : Labelling) (a : Attribute) (part : BodyPart) : Prop where
  lines : part.lineMarks = (a.lineEntries pool).map fun e => ⟨t.labelFor e.start, e.line⟩
  lineStarts : ∀ e ∈ a.lineEntries pool, t.NamesInside e.start
  locals : List.Forall₂ t.VariableOf (a.variableEntries pool localVariableTable)
    part.liveVariables
  types : List.Forall₂ t.VariableOf (a.variableEntries pool localVariableTypeTable)
    part.typedVariables
  other : part.other? = if a.isTable pool then none else some a
  frames : part.frames? = (a.frameEntries pool).map (List.map (Frame.map t.labelFor))
  framePositions : ∀ fs ∈ a.frameEntries pool, ∀ f ∈ fs, ∀ o ∈ f.positions, t.NamesInside o

theorem tells_of_reads (reads : Reads pool t mapped a part) : Tells pool t a part := by
  cases reads with
  | frames name parsed named =>
    obtain ⟨lines, locals, types⟩ := only_frames name
    constructor <;> simp [lineEntries, variableEntries, frameEntries, isTable, lineMarks,
      liveVariables, typedVariables, other?, frames?, name, lines, locals, types, parsed,
      Except.toOption]
    exact named
  | lines name parsed named =>
    obtain ⟨frames, locals, types⟩ := only_lines name
    constructor <;> simp [lineEntries, variableEntries, frameEntries, isTable, lineMarks,
      liveVariables, typedVariables, other?, frames?, name, frames, locals, types, parsed,
      Except.toOption]
    exact named
  | locals name parsed related =>
    obtain ⟨frames, lines, types⟩ := only_locals name
    constructor <;> simp [lineEntries, variableEntries, frameEntries, isTable, lineMarks,
      liveVariables, typedVariables, other?, frames?, name, frames, lines, types, parsed,
      Except.toOption]
    exact related
  | types name parsed related =>
    obtain ⟨frames, lines, locals⟩ := only_types name
    constructor <;> simp [lineEntries, variableEntries, frameEntries, isTable, lineMarks,
      liveVariables, typedVariables, other?, frames?, name, frames, lines, locals, parsed,
      Except.toOption]
    exact related
  | other frames lines locals types =>
    constructor <;> simp [lineEntries, variableEntries, frameEntries, isTable, lineMarks,
      liveVariables, typedVariables, other?, frames?, frames, lines, locals, types]

end Tables
end BodyPart

namespace CodeAttribute
open Attribute BodyPart Labelling

def lineEntries (pool : Pool) (c : CodeAttribute) : List LineEntry :=
  c.attributes.flatMap (Attribute.lineEntries pool)

def variableEntries (pool : Pool) (table : String) (c : CodeAttribute) : List VariableEntry :=
  c.attributes.flatMap (Attribute.variableEntries pool table)

def frameEntries (pool : Pool) (c : CodeAttribute) : Option (List (Frame UInt16)) :=
  (c.attributes.filterMap (Attribute.frameEntries pool)).head?

def otherAttributes (pool : Pool) (c : CodeAttribute) : List Attribute :=
  c.attributes.filter fun a => !a.isTable pool

end CodeAttribute

namespace Body
open Attribute BodyPart Labelling

/-- The tables of a body, with the labels of `t` for the offsets in those of the attribute. -/
structure Tables (pool : Pool) (t : Labelling) (c : CodeAttribute) (b : Body) : Prop where
  lines : b.lines = (c.lineEntries pool).map fun e => ⟨t.labelFor e.start, e.line⟩
  lineStarts : ∀ e ∈ c.lineEntries pool, t.NamesInside e.start
  locals : List.Forall₂ t.VariableOf (c.variableEntries pool localVariableTable) b.locals
  types : List.Forall₂ t.VariableOf (c.variableEntries pool localVariableTypeTable) b.variableTypes
  others : b.others = c.otherAttributes pool
  frames : b.frames = (c.frameEntries pool).map (List.map (Frame.map t.labelFor))
  framePositions : ∀ fs ∈ c.frameEntries pool, ∀ f ∈ fs, ∀ o ∈ f.positions, t.NamesInside o

structure Labelled (pool : Pool) (t : Labelling) (c : CodeAttribute)
    (decoded : List (UInt16 × Instruction UInt16)) (b : Body) : Prop where
  sound : t.Sound
  boundaries : ∀ o, t.boundaries.contains o = true ↔ o ∈ decoded.map (·.1)
  codeLength : t.codeLength = UInt16.ofNat c.code.length
  items : b.items = markedItems t.labels t.codeLength
    (decoded.map fun d => (d.1, d.2.map t.labelFor))
  targets : ∀ d ∈ decoded, ∀ o ∈ d.2.targets, t.NamesInside o
  regions : List.Forall₂ t.RegionOf c.handlers b.handlers
  tables : Tables pool t c b
  maxStack : b.maxStack = c.maxStack
  maxLocals : b.maxLocals = c.maxLocals
  nextLabel : b.nextLabel = UInt32.ofNat t.labels.size
  reads : ∃ parts, ReadsAll pool t false c.attributes parts

theorem tells_of_readsAll {pool : Pool} {t : Labelling} {mapped : Bool} {as : List Attribute}
    {parts : List BodyPart} (all : ReadsAll pool t mapped as parts) :
    List.Forall₂ (Tells pool t) as parts := by
  induction all with
  | nil => exact .nil
  | cons first _ ih => exact .cons (tells_of_reads first) ih

theorem others_of_tells {pool : Pool} {t : Labelling} {as : List Attribute}
    {parts : List BodyPart} (related : List.Forall₂ (Tells pool t) as parts) :
    parts.filterMap other? = as.filter fun a => !a.isTable pool := by
  induction related with
  | nil => rfl
  | @cons a part as parts first _ ih =>
    rw [List.filterMap_cons, List.filter_cons, first.other, ih]
    cases a.isTable pool <;> rfl

theorem frames_of_tells {pool : Pool} {t : Labelling} {as : List Attribute}
    {parts : List BodyPart} (related : List.Forall₂ (Tells pool t) as parts) :
    (parts.filterMap frames?).head? =
      (as.filterMap (Attribute.frameEntries pool)).head?.map (List.map (Frame.map t.labelFor)) := by
  induction related with
  | nil => rfl
  | @cons a part as parts first _ ih =>
    rw [List.filterMap_cons, List.filterMap_cons, first.frames]
    cases a.frameEntries pool with
    | none => exact ih
    | some fs => rfl

theorem tables_of_tells {pool : Pool} {t : Labelling} {c : CodeAttribute} {parts : List BodyPart}
    (related : List.Forall₂ (Tells pool t) c.attributes parts) {b : Body}
    (lines : b.lines = parts.flatMap lineMarks) (locals : b.locals = parts.flatMap liveVariables)
    (types : b.variableTypes = parts.flatMap typedVariables)
    (others : b.others = parts.filterMap other?)
    (frames : b.frames = (parts.filterMap frames?).head?) : Tables pool t c b := by
  constructor
  case lines =>
    rw [lines]
    exact eq_map_of_related (related_flatMap related fun _ _ tells => related_of_eq_map tells.lines)
  case lineStarts =>
    intro e member
    obtain ⟨a, inside, here⟩ := List.mem_flatMap.mp member
    obtain ⟨_, _, tells⟩ := related_of_mem related inside
    exact tells.lineStarts e here
  case locals =>
    rw [locals]
    exact related_flatMap related fun _ _ tells => tells.locals
  case types =>
    rw [types]
    exact related_flatMap related fun _ _ tells => tells.types
  case others => rw [others, others_of_tells related]; rfl
  case frames => rw [frames, frames_of_tells related]; rfl
  case framePositions =>
    intro fs found
    obtain ⟨a, inside, here⟩ := List.mem_filterMap.mp (List.mem_of_head? found)
    obtain ⟨_, _, tells⟩ := related_of_mem related inside
    exact tells.framePositions fs here

theorem yields_located (d : UInt16 × Instruction UInt16) :
    Yields (do return (d.1, ← d.2.mapTargets (labelAt .branchTarget))) fun t r =>
      r = (d.1, d.2.map t.labelFor) ∧ ∀ o ∈ d.2.targets, t.NamesInside o :=
  yields_bind (yields_instruction d.2) fun _ => yields_pure fun _ ⟨same, all⟩ => ⟨by rw [same], all⟩

theorem sound_empty (boundaries : Std.TreeSet UInt16) (codeLength : UInt16) :
    (Labelling.mk boundaries codeLength ∅).Sound :=
  ⟨fun o l found => by simp at found, fun o o' l found => by simp at found,
    fun o l found => by simp at found⟩

theorem labelled_of_label {code : CodeAttribute} {pool : Pool}
    {decoded : List (UInt16 × Instruction UInt16)} {s t : Labelling} {b : Body} (sound : s.Sound)
    (boundaries : ∀ o, s.boundaries.contains o = true ↔ o ∈ decoded.map (·.1))
    (codeLength : s.codeLength = UInt16.ofNat code.code.length)
    (run : label code pool decoded s = .ok b t) : Labelled pool t code decoded b := by
  obtain ⟨instructions, s₁, one, run₁⟩ := state_bind_ok_iff.mp run
  obtain ⟨handlers, s₂, two, run₂⟩ := state_bind_ok_iff.mp run₁
  obtain ⟨parts, s₃, three, run₃⟩ := state_bind_ok_iff.mp run₂
  obtain ⟨sound₁, grown₁, right₁⟩ := yields_mapM yields_located decoded s _ s₁ sound one
  obtain ⟨sound₂, grown₂, right₂⟩ := yields_mapM yields_region code.handlers s₁ _ s₂ sound₁ two
  obtain ⟨sound₃, grown₃, right₃⟩ := yields_ofAttributes pool false [] _ s₂ _ s₃ sound₂ three
  have whole : s.Extends s₃ := extends_trans grown₁ (extends_trans grown₂ grown₃)
  obtain ⟨rest, listed, all⟩ := right₃ s₃ (extends_refl s₃)
  have located := right₁ s₃ (extends_trans grown₂ grown₃)
  have regions := right₂ s₃ grown₃
  rw [List.reverse_nil, List.nil_append] at listed
  subst listed
  cases run₃
  refine ⟨sound₃, ?_, ?_, ?_, ?_, regions, ?_, rfl, rfl, rfl, _, all⟩
  · rw [whole.boundaries]
    exact boundaries
  · rw [whole.codeLength, codeLength]
  · rw [whole.codeLength, codeLength]
    exact congrArg (markedItems _ _) (eq_map_of_related (located.imp fun _ _ here => here.1))
  · intro d member
    obtain ⟨_, _, here⟩ := related_of_mem located member
    exact here.2
  · exact tables_of_tells (tells_of_readsAll all) rfl rfl rfl rfl rfl

def unnamed (c : CodeAttribute) (decoded : List (UInt16 × Instruction UInt16)) : Labelling :=
  ⟨Std.TreeSet.ofList (decoded.map (·.1)), UInt16.ofNat c.code.length, ∅⟩

theorem unnamed_boundaries (c : CodeAttribute) (decoded : List (UInt16 × Instruction UInt16))
    (o : UInt16) : (unnamed c decoded).boundaries.contains o = true ↔ o ∈ decoded.map (·.1) := by
  rw [unnamed, Std.TreeSet.contains_ofList]
  simp

theorem ofCode_ok_iff {code : CodeAttribute} {pool : Pool} {b : Body} :
    ofCode code pool = .ok b ↔ code.code ≠ [] ∧ ∃ decoded t,
      Instruction.decode code.code = .ok decoded ∧
        label code pool decoded (unnamed code decoded) = .ok b t := by
  unfold ofCode
  dsimp only
  by_cases empty : code.code.isEmpty = true
  · rw [if_pos empty]
    simp only [List.isEmpty_iff.mp empty, ne_eq, not_true_eq_false, false_and, iff_false]
    intro made
    cases made
  · rw [if_neg empty, bind_ok_iff]
    rw [List.isEmpty_iff] at empty
    constructor
    · rintro ⟨decoded, decodes, made⟩
      split at made
      · rename_i b' t run
        cases made
        exact ⟨empty, decoded, t, decodes, run⟩
      · cases made
    · rintro ⟨_, decoded, t, decodes, run⟩
      refine ⟨decoded, decodes, ?_⟩
      rw [unnamed] at run
      rw [run]
      rfl

theorem labelled_of_unnamed {code : CodeAttribute} {pool : Pool}
    {decoded : List (UInt16 × Instruction UInt16)} {t : Labelling} {b : Body}
    (run : label code pool decoded (unnamed code decoded) = .ok b t) :
    Labelled pool t code decoded b :=
  labelled_of_label (sound_empty _ _) (unnamed_boundaries code decoded) rfl run

theorem labelled_of_ofCode {code : CodeAttribute} {pool : Pool} {b : Body}
    (made : ofCode code pool = .ok b) : ∃ decoded t, code.code ≠ [] ∧
      Instruction.decode code.code = .ok decoded ∧ Labelled pool t code decoded b := by
  obtain ⟨filled, decoded, t, decodes, run⟩ := ofCode_ok_iff.mp made
  exact ⟨decoded, t, filled, decodes, labelled_of_unnamed run⟩

end Body
end ClassHooks
