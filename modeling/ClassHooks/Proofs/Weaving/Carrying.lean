import ClassHooks.Proofs.Weaving.Simulation
import ClassHooks.Proofs.Weaving.Tables

/-!
What a method carries through weaving and encoding: one map of offsets takes its instructions, its
regions and its tables to their places in the woven code.
-/
namespace ClassHooks

theorem Attribute.hasName_of_inside {p q : Pool} (grows : p.Grows q) {a : Attribute}
    (inside : a.name.toNat < p.size) (name : String) : a.hasName q name = a.hasName p name :=
  Pool.holdsText_grows grows inside name

theorem Attribute.isTable_of_inside {p q : Pool} (grows : p.Grows q) {a : Attribute}
    (inside : a.name.toNat < p.size) : a.isTable q = a.isTable p := by
  simp only [isTable, hasName_of_inside grows inside]

namespace Weaving
open Item Instruction Attribute

/-- The stack map of the woven code: the frames of the method and one for the handler, or none if
there was none and none is asked for. -/
def MovesFrames (pool pool' : Pool) (requireFrames : Bool) (f : UInt16 → UInt16)
    (c : CodeAttribute) (stackMap : List Attribute) : Prop :=
  if requireFrames || (c.frameEntries pool).isSome then
    ∃ k, pool'.HoldsClass k throwable ∧ HoldsFrames pool'
      (some (((c.frameEntries pool).getD []).map (Frame.map f) ++
        [⟨f (UInt16.ofNat c.code.length), .full [] [.object k]⟩])) stackMap
  else stackMap = []

/-- The tables of the woven code are those of the method with all offsets moved. What is not a
table is kept, unless it is dropped. -/
structure MovesTables (pool pool' : Pool) (requireFrames : Bool) (f : UInt16 → UInt16)
    (c : CodeAttribute) (lineTable localTable typeTable stackMap rest : List Attribute) : Prop where
  lines : Holds pool' lineNumberTable LineEntry.parseTable
    ((c.lineEntries pool).map fun l => ⟨f l.start, l.line⟩) lineTable
  locals : Holds pool' localVariableTable VariableEntry.parseTable
    ((c.variableEntries pool localVariableTable).map (VariableEntry.move f)) localTable
  types : Holds pool' localVariableTypeTable VariableEntry.parseTable
    ((c.variableEntries pool localVariableTypeTable).map (VariableEntry.move f)) typeTable
  frames : MovesFrames pool pool' requireFrames f c stackMap
  others : rest = (c.otherAttributes pool).filter fun a => !isDropped pool a
  apart : ∀ a ∈ rest, a.isTable pool' = false

/-- Everything that carries an offset follows its instruction. The map is of interest at the
offsets of the instructions and at the end of the code. -/
structure Carried (pool pool' : Pool) (requireFrames : Bool) (w : Interleaving)
    (f : UInt16 → UInt16) (decoded new : List (UInt16 × Instruction UInt16))
    (c c' : CodeAttribute) : Prop where
  rising : ∀ o o', (o ∈ decoded.map (·.1) ∨ o = UInt16.ofNat c.code.length) →
    (o' ∈ decoded.map (·.1) ∨ o' = UInt16.ofNat c.code.length) → o < o' → f o < f o'
  offsets : ∀ o, (o ∈ decoded.map (·.1) ∨ o = UInt16.ofNat c.code.length) → f o ∈ new.map (·.1)
  instructions : ∀ d ∈ decoded, d.2.isReturn = false →
    ∃ j, (f d.1, j) ∈ new ∧ (d.2.map f).LengthensTo j
  returns : ∀ d ∈ decoded, d.2.isReturn = true → ∃ before hook last after,
    new = before ++ (hook ++ last :: after) ∧ (hook ++ [last]).head?.map Prod.fst = some (f d.1) ∧
    List.Forall₂ (fun i x => (unplaced i).WrittenAs x.2) w.exit hook ∧ last.2 = d.2
  handlers : ∃ parts, c'.handlers = parts.flatten ++
      [⟨f 0, f (UInt16.ofNat c.code.length), f (UInt16.ofNat c.code.length), 0⟩] ∧
    List.Forall₂ (Guards w decoded new f) c.handlers parts
  attributes : ∃ lineTable localTable typeTable stackMap rest,
    c'.attributes = lineTable ++ (localTable ++ (typeTable ++ (stackMap ++ rest))) ∧
    MovesTables pool pool' requireFrames f c lineTable localTable typeTable stackMap rest

theorem recoded_of_encode {pool : Pool} {t : Labelling} {c : CodeAttribute}
    {decoded : List (UInt16 × Instruction UInt16)} {b woven : Body} {w : Interleaving}
    {e : Encoded} (labelled : Body.Labelled pool t c decoded b) (filled : c.code ≠ [])
    (decodes : decode c.code = .ok decoded) (shape : Woven b w woven) (straight : w.Straight)
    (run : Assembly.encode woven.items = .ok e) :
    ∃ new, Recoded pool t c decoded b w woven e new := by
  obtain ⟨small, listing, some⟩ := listing_of_decode decodes
  obtain ⟨slots, layout, laid⟩ := laid_of_encode run
  have sound : b.Sound := Body.sound_of_labelled labelled listing small (some filled)
  have fits : ∀ i ∈ w.instructions, i.Fits := by
    intro i member
    rw [← shape.code] at member
    exact laid.acceptable.fits i member
  have rising : ∀ i ∈ b.instructions, i.operand.KeysRise := by
    intro i member
    rw [Body.instructions_labelled labelled] at member
    obtain ⟨d, inside, rfl⟩ := List.mem_map.mp member
    exact Operand.keysRise_map.mpr (decent_of_listing listing inside).rising
  have renders := laid.renders (decodable_of_woven sound rising shape straight fits)
  obtain ⟨small', listing', _⟩ := listing_of_decode renders.decodes
  exact ⟨_, labelled, listing, small, some filled, shape, straight, fits, renders, listing', small'⟩

namespace Recoded
variable {pool : Pool} {t : Labelling} {c : CodeAttribute}
  {decoded new : List (UInt16 × Instruction UInt16)} {b woven : Body} {w : Interleaving}
  {e : Encoded} (r : Recoded pool t c decoded b w woven e new)
include r

theorem moves_frames {p' p'' : Pool} {requireFrames : Bool} {handler : Label}
    (marks : Marks woven.items handler w.finish) (grows : p'.Grows p'')
    (added : if requireFrames || b.frames.isSome then ∃ k, p'.HoldsClass k throwable ∧
        woven.frames = some (b.frames.getD [] ++ [handlerFrame handler k])
      else woven.frames = b.frames) {frames : Option (List (Frame UInt16))}
    (encodes : Body.EncodesFrames e woven.frames frames) {stackMap : List Attribute}
    (holds : HoldsFrames p'' frames stackMap) :
    MovesFrames pool p'' requireFrames (moved w decoded new e.code.length) c stackMap := by
  have tables := r.labelled.tables
  have same : b.frames.isSome = (c.frameEntries pool).isSome := by
    rw [tables.frames, Option.isSome_map]
  unfold MovesFrames
  rw [← same]
  split at added
  · rename_i asked
    obtain ⟨k, named, whole⟩ := added
    rw [if_pos asked]
    rw [whole] at encodes
    cases encodes with
    | some each =>
      rw [r.encode_frames marks each] at holds
      exact ⟨k, Pool.holdsClass_of_grows grows named, holds⟩
  · rename_i plain
    rw [if_neg plain]
    have none : b.frames = none := by
      cases found : b.frames with
      | none => rfl
      | some fs => simp [found] at plain
    rw [added, none] at encodes
    cases encodes
    cases holds
    rfl

theorem others_kept {p' p'' : Pool} (grows : pool.Grows p') (grows' : p'.Grows p'')
    (named : ∀ a ∈ c.attributes, a.name.toNat < pool.size)
    (others : woven.others = b.others.filter fun a => !isDropped p' a) :
    woven.others = ((c.otherAttributes pool).filter fun a => !isDropped pool a) ∧
      ∀ a ∈ woven.others, a.isTable p'' = false := by
  have known : ∀ a ∈ c.otherAttributes pool, a.name.toNat < pool.size ∧ a.isTable pool = false := by
    intro a member
    obtain ⟨inside, plain⟩ := List.mem_filter.mp member
    exact ⟨named a inside, by simpa using plain⟩
  -- Weaving looks names up in the pool as it is after the hooks, where they are what they were.
  have same : ∀ a ∈ c.otherAttributes pool, isDropped p' a = isDropped pool a := by
    intro a member
    obtain ⟨inside, _⟩ := known a member
    simp only [isDropped, hasName_of_inside grows inside]
  rw [others, r.labelled.tables.others]
  constructor
  · exact List.filter_congr fun a member => by rw [same a member]
  · intro a member
    obtain ⟨inside, plain⟩ := known a (List.mem_filter.mp member).1
    rw [isTable_of_inside (Pool.grows_trans grows grows') inside, plain]

theorem moved_mem {o : UInt16} (known : o ∈ decoded.map (·.1) ∨ o = UInt16.ofNat c.code.length) :
    moved w decoded new e.code.length o ∈ new.map (·.1) := by
  obtain ⟨n, bound, place⟩ := place_of_bounds r.small known
  have inside := r.begin_lt_new bound
  have here := List.getElem?_eq_getElem inside
  refine List.mem_map.mpr ⟨_, List.getElem_mem inside, ?_⟩
  rw [← UInt16.toNat_inj, r.moved_toNat bound place, placeIn_eq_of_getElem here]

end Recoded

section Whole
variable {pool p' p'' : Pool} {t : Labelling} {c c' : CodeAttribute}
  {decoded new : List (UInt16 × Instruction UInt16)} {b : Body} {chain : Chain}
  {requireFrames : Bool} {method : MethodName} {enter exit error : Hook} {woven : WovenMethod}
  {e : Encoded}

theorem carried_of_made (sound : pool.Sound)
    (named : ∀ a ∈ c.attributes, a.name.toNat < pool.size)
    (made : Made b chain requireFrames method pool enter exit error woven p')
    (r : Recoded pool t c decoded b (interleaving b enter exit error) woven.body e new)
    (grows' : p'.Grows p'') (encodes : woven.body.Encodes p'' e c') :
    Carried pool p'' requireFrames (interleaving b enter exit error)
      (moved (interleaving b enter exit error) decoded new e.code.length) decoded new c c' := by
  have tables := r.labelled.tables
  obtain ⟨_, p₁, frames, _, emits, adds, framed⟩ := made.emits
  have emitted := emits_beyond sound emits
  obtain ⟨framing, added⟩ := addFrame_ok emitted.sound adds
  have grows : pool.Grows p' := Pool.grows_trans emitted.grows framing.grows
  rw [← framed] at added
  have marks :
      Marks woven.body.items ⟨b.nextLabel + 2⟩ (interleaving b enter exit error).finish := by
    rw [made.items]
    exact (marks_finish rfl).2
  constructor
  case rising => exact fun o o' known known' => r.moved_rising known known'
  case offsets => exact fun o known => r.moved_mem known
  case instructions => exact fun d member goesOn => r.moved_plain member goesOn
  case returns => exact fun d member ends => r.moved_return member ends
  case handlers => exact r.encode_handlers encodes.handlers
  case attributes =>
    obtain ⟨lines, locals, types, frames', lineTable, localTable, typeTable, stackMap, oneLines,
      oneLocals, oneTypes, oneFrames, listed, holds, holds', holds'', held⟩ := encodes.tables
    refine ⟨lineTable, localTable, typeTable, stackMap, woven.body.others, listed, ?_⟩
    have others : woven.body.others = b.others.filter fun a => !isDropped p' a :=
      congrArg Body.others made.rest
    obtain ⟨kept, apart⟩ := r.others_kept grows grows' named others
    rw [congrArg Body.lines made.rest, r.moves.encode_lines tables] at oneLines
    rw [congrArg Body.locals made.rest, r.moves.encode_variables tables.locals] at oneLocals
    rw [congrArg Body.variableTypes made.rest, r.moves.encode_variables tables.types] at oneTypes
    cases oneLines
    cases oneLocals
    cases oneTypes
    exact ⟨holds, holds', holds'', r.moves_frames marks grows' added oneFrames held, kept, apart⟩

end Whole

/-- Everything that carries an offset follows its instruction through weaving and encoding. -/
theorem weave_carries_offsets {pool : Pool} (reached : pool.Reached) {c : CodeAttribute}
    (named : ∀ a ∈ c.attributes, a.name.toNat < pool.size) {b : Body}
    (read : Body.ofCode c pool = .ok b) {chain : Chain} {requireFrames : Bool}
    {method : MethodName} {p' : Pool} {woven : WovenMethod}
    (run : b.weave chain requireFrames method pool = .ok woven p') {c' : CodeAttribute}
    {p'' : Pool} (coded : woven.body.toCode p' = .ok c' p'') :
    ∃ descriptor enter exit error p₁ decoded new f,
      MethodDescriptor.parse method.descriptor = .ok descriptor ∧
      Emits chain method descriptor.returnType b.returnCount pool enter exit error p₁ ∧
      decode c.code = .ok decoded ∧ decode c'.code = .ok new ∧
      Carried pool p'' requireFrames (interleaving b enter exit error) f decoded new c c' := by
  have sound := Pool.sound_of_reached reached
  obtain ⟨decoded, t, filled, decodes, labelled⟩ := Body.labelled_of_ofCode read
  obtain ⟨enter, exit, error, made⟩ := made_of_weave run
  obtain ⟨descriptor, p₁, frames, parsed, emits, adds, _⟩ := made.emits
  have emitted := emits_beyond sound emits
  obtain ⟨framing, _⟩ := addFrame_ok emitted.sound adds
  obtain ⟨later, e, encodes⟩ := Body.encodes_of_toCode framing.sound coded
  obtain ⟨new, r⟩ := recoded_of_encode labelled filled decodes
    (woven_of_made (Body.sound_of_ofCode read) made) (straight_of_emits emits) encodes.encoded
  have decodes' : decode c'.code = .ok new := encodes.code ▸ r.renders.decodes
  exact ⟨descriptor, enter, exit, error, p₁, decoded, new, _, parsed, emits, decodes, decodes',
    carried_of_made sound named made r later.grows encodes⟩

def tabled : CodeAttribute :=
  ⟨2, 1, [0xBB, 0, 1, 0x03, 0x99, 0, 5, 0x57, 0xB1, 0x57, 0xB1], [⟨0, 10, 9, 0⟩],
    [⟨1, [0, 2, 0, 0, 0, 1, 0, 9, 0, 2]⟩, ⟨2, [0, 1, 0, 3, 0, 8, 0, 1, 0, 1, 0, 0]⟩,
      ⟨3, [0, 1, 0, 3, 0, 8, 0, 1, 0, 1, 0, 0]⟩, ⟨4, []⟩]⟩

def tableNames : PoolM Unit :=
  [lineNumberTable, localVariableTable, localVariableTypeTable,
    visibleTypeAnnotations].forM fun name => do
      let _ ← Pool.addUtf8 name

def wovenTabled : PoolM CodeAttribute := do
  tableNames
  let b ← PoolM.lift (Body.ofCode tabled (← get))
  let woven ← b.weave reporting false ⟨"A", "m", "()V"⟩
  woven.body.toCode

theorem adds_tableNames : tableNames.Adds := fun I each =>
  keeps_forM (fun name => keeps_bind (Pool.adds_addUtf8 name I each) fun _ => keeps_pure _) _

theorem tabled_carried : ∃ pool b woven p' c' p'', pool.Reached ∧
    (∀ a ∈ tabled.attributes, a.name.toNat < pool.size) ∧ Body.ofCode tabled pool = .ok b ∧
    b.weave reporting false ⟨"A", "m", "()V"⟩ pool = .ok woven p' ∧
    woven.body.toCode p' = .ok c' p'' ∧ ∃ enter exit error decoded new f,
      Carried pool p'' false (interleaving b enter exit error) f decoded new tabled c' := by
  have accepted : succeeds wovenTabled Pool.empty = true := by decide +kernel
  have counted : (match tableNames Pool.empty with
      | .ok _ pool => pool.size
      | .error _ _ => 0) = 5 := by decide +kernel
  obtain ⟨c', p'', run⟩ := ok_of_succeeds accepted
  obtain ⟨_, pool, names, run⟩ := state_bind_ok_iff.mp run
  obtain ⟨_, _, same, run⟩ := state_bind_ok_iff.mp run
  cases same
  obtain ⟨b, _, lifted, run⟩ := state_bind_ok_iff.mp run
  obtain ⟨read, rfl⟩ := PoolM.lift_ok_iff.mp lifted
  obtain ⟨woven, p', weaves, coded⟩ := state_bind_ok_iff.mp run
  rw [names] at counted
  have reached : pool.Reached := Pool.reached_of_adds adds_tableNames .empty names
  have named : ∀ a ∈ tabled.attributes, a.name.toNat < pool.size := by
    rw [show pool.size = 5 from counted]
    decide
  obtain ⟨_, enter, exit, error, _, decoded, new, f, _, _, _, _, carried⟩ :=
    weave_carries_offsets reached named read weaves coded
  exact ⟨pool, b, woven, p', c', p'', reached, named, read, weaves, coded, enter, exit, error,
    decoded, new, f, carried⟩

end Weaving
end ClassHooks
