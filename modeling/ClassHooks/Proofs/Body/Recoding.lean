import ClassHooks.Proofs.Body.Places
import ClassHooks.Proofs.Body.Writing
import ClassHooks.Proofs.Instruction.Shrinking

/-!
Encoding a body just as it was decoded. If no jump comes out of reach the narrow layout is taken, and
code without needless bytes comes back byte for byte.
-/
namespace ClassHooks
namespace Body
open Item Instruction Attribute Labelling Slot

theorem placed_of_sound {b : Body} (sound : b.Sound) : Item.Placed b.items :=
  ⟨⟨sound.once, sound.fits⟩, fun i member l target => by
    obtain ⟨m, _, marks⟩ := sound.targets i member l target
    exact mem_labels_of_marks marks⟩

section Encoded
variable {pool : Pool} {t : Labelling} {c : CodeAttribute}
  {decoded new : List (UInt16 × Instruction UInt16)} {b : Body} {e : Encoded}
  (labelled : Labelled pool t c decoded b) (decodes : decode c.code = .ok decoded)
include labelled

theorem length_of_renders (renders : e.Renders b.items new) : new.length = decoded.length := by
  rw [← renders.instructions.length_eq, show code b.items = _ from instructions_labelled labelled,
    List.length_map]

include decodes

theorem carried_rising (renders : e.Renders b.items new) {o o' : UInt16}
    (known : Bounds decoded c.code.length o) (known' : Bounds decoded c.code.length o')
    (order : o < o') :
    carry id decoded new e.code.length o < carry id decoded new e.code.length o' := by
  obtain ⟨small, listing, _⟩ := listing_of_decode decodes
  obtain ⟨small', listing', _⟩ := listing_of_decode renders.decodes
  have inside : ∀ n < decoded.length, id n < new.length := by
    rw [length_of_renders labelled renders]
    exact fun _ below => below
  exact carry_rising listing small listing' small' (fun _ _ before _ => before) inside known known'
    order

theorem moves_of_renders (renders : e.Renders b.items new) :
    t.Moves e (carry id decoded new e.code.length) := by
  obtain ⟨small, listing, _⟩ := listing_of_decode decodes
  constructor
  · intro o named
    obtain ⟨n, bound, place, marks⟩ := marks_named labelled listing small named
    rw [Encoded.offset, renders.places _ n marks, carry, numberAt_placeIn listing small bound place]
    rfl
  · exact fun o o' named named' => carried_rising labelled decodes renders
      (bounds_of_names labelled named) (bounds_of_names labelled named')

variable (filled : c.code ≠ [])
include filled

theorem sound_of_decode : b.Sound := by
  obtain ⟨small, listing, more⟩ := listing_of_decode decodes
  exact sound_of_labelled labelled listing small (more filled)

theorem decodable_of_labelled : Item.Decodable b.items := by
  obtain ⟨small, listing, _⟩ := listing_of_decode decodes
  have sound := sound_of_decode labelled decodes filled
  constructor
  · intro i member
    rw [show code b.items = _ from instructions_labelled labelled] at member
    obtain ⟨d, inside, rfl⟩ := List.mem_map.mp member
    exact Operand.keysRise_map.mpr (decent_of_listing listing inside).rising
  · intro i member l target n marks
    obtain ⟨m, inside, marks'⟩ := sound.targets i member l target
    rwa [marks_unique sound.once marks marks']

theorem laid_of_keepsReach (keeps : KeepsReach c.code decoded) : ∃ e layout,
    Assembly.encode b.items = .ok e ∧ e.Laid b.items (narrow b.items) layout := by
  obtain ⟨small, listing, _⟩ := listing_of_decode decodes
  have sound := sound_of_decode labelled decodes filled
  have same : code b.items = _ := instructions_labelled labelled
  refine Assembly.laid_narrow (placed_of_sound sound) ?_ fun n op l here short m marks => ?_
  · have shrinks := narrow_le decodes same (Nat.le_refl _)
    rw [placeIn_of_le (Nat.le_refl _), placeAfter_of_le 0 (narrow b.items) (by
      rw [items_narrow, same, List.length_map])] at shrinks
    exact Nat.le_trans shrinks small
  · rw [same, List.getElem?_map] at here
    obtain ⟨⟨o, op', operand⟩, there, mapped⟩ := Option.map_eq_some_iff.mp here
    cases operand with
    | branch target =>
      cases mapped
      obtain ⟨m', bound, place, marks'⟩ := marks_inside labelled listing small
        (labelled.targets _ (List.mem_of_getElem? there) target (List.mem_singleton.mpr rfl))
      obtain rfl := marks_unique sound.once marks marks'
      exact reach_narrow decodes same keeps there rfl short (Nat.le_of_lt bound) place
    | _ => cases mapped

section Canonical
variable (canonical : ∀ d ∈ decoded, d.2.Canonical d.1.toNat (c.code.drop d.1.toNat))
include canonical

/-- Canonical code is encoded to itself. -/
theorem encode_canonical : ∃ e, Assembly.encode b.items = .ok e ∧ e.code = c.code ∧
    t.Moves e id := by
  obtain ⟨small, listing, _⟩ := listing_of_decode decodes
  have sound := sound_of_decode labelled decodes filled
  have same : code b.items = _ := instructions_labelled labelled
  obtain ⟨e, layout, encoded, laid⟩ := laid_of_keepsReach labelled decodes filled
    fun _ _ _ _ _ => .inr fun _ _ _ _ _ r member _ => (canonical r member).needed
  have stays : ∀ n ≤ decoded.length, placeIn decoded c.code.length n =
      placeAfter 0 (narrow b.items) n := fun n bound =>
    narrow_same decodes same bound fun _ d _ here =>
      (canonical d (List.mem_of_getElem? here)).needed
  have back : e.code = c.code := by
    rw [laid.code_eq]
    refine text_of_canonical decodes same (fun d member o target => ?_) canonical
    obtain ⟨n, marks, place, _⟩ := laid.target_placed (i := d.2.map t.labelFor)
      (by rw [same]; exact List.mem_map_of_mem member) (l := t.labelFor o)
      (by rw [targets_map]; exact List.mem_map_of_mem target)
    obtain ⟨m, bound, old, marks'⟩ :=
      marks_inside labelled listing small (labelled.targets d member o target)
    obtain rfl := marks_unique sound.once marks marks'
    rw [place, old, stays n (Nat.le_of_lt bound)]
  have renders := laid.renders (decodable_of_labelled labelled decodes filled)
  have again := renders.decodes
  rw [back, decodes] at again
  have moves := moves_of_renders labelled decodes renders
  rw [← Except.ok.inj again, back] at moves
  refine ⟨e, encoded, back, fun o named => ?_, fun o o' _ _ order => order⟩
  obtain ⟨n, bound, place, _⟩ := marks_named labelled listing small named
  have kept : carry id decoded decoded c.code.length o = o :=
    UInt16.toNat_inj.mp ((carry_toNat listing small listing small bound place).trans place.symm)
  rw [moves.offset o named, kept, id]

end Canonical
end Encoded

/-- The code attribute again: only the tables come first, in a fixed order, with names from the new
pool. -/
structure Restored (pool pool' : Pool) (c c' : CodeAttribute) : Prop where
  maxStack : c'.maxStack = c.maxStack
  maxLocals : c'.maxLocals = c.maxLocals
  code : c'.code = c.code
  handlers : c'.handlers = c.handlers
  attributes : ∃ lineTable localTable typeTable stackMap,
    c'.attributes =
      lineTable ++ (localTable ++ (typeTable ++ (stackMap ++ c.otherAttributes pool))) ∧
    Holds pool' lineNumberTable LineEntry.parseTable (c.lineEntries pool) lineTable ∧
    Holds pool' localVariableTable VariableEntry.parseTable
      (c.variableEntries pool localVariableTable) localTable ∧
    Holds pool' localVariableTypeTable VariableEntry.parseTable
      (c.variableEntries pool localVariableTypeTable) typeTable ∧
    HoldsFrames pool' (c.frameEntries pool) stackMap

theorem restored_of_recodes {pool pool' : Pool} {c c' : CodeAttribute} (code : c'.code = c.code)
    (recodes : Recodes pool pool' id c c') : Restored pool pool' c c' := by
  obtain ⟨lineTable, localTable, typeTable, stackMap, listed, lines, locals, types, frames⟩ :=
    recodes.attributes
  rw [show (c.lineEntries pool).map (fun l => (⟨id l.start, l.line⟩ : LineEntry)) = _ from
    List.map_id'' (fun _ => rfl) _] at lines
  rw [List.map_id'' VariableEntry.move_id] at locals types
  rw [show List.map (Frame.map id) = id from funext fun fs => List.map_id'' Frame.map_id fs,
    Option.map_id] at frames
  exact ⟨recodes.maxStack, recodes.maxLocals, code,
    recodes.handlers.trans (List.map_id'' Handler.move_id _),
    lineTable, localTable, typeTable, stackMap, listed, lines, locals, types, frames⟩

/-- Encoding undoes decoding of canonical code. -/
theorem toCode_canonical {c : CodeAttribute} {pool : Pool} {b : Body}
    (read : ofCode c pool = .ok b) {decoded : List (UInt16 × Instruction UInt16)}
    (decodes : decode c.code = .ok decoded)
    (canonical : ∀ d ∈ decoded, d.2.Canonical d.1.toNat (c.code.drop d.1.toNat))
    (once : c.TablesOnce pool) {p : Pool} (reached : p.Reached) (room : p.HasRoom b.tableNames) :
    ∃ c' p', b.toCode p = .ok c' p' ∧ Restored pool p' c c' := by
  obtain ⟨decoded', t, filled, decodes', labelled⟩ := labelled_of_ofCode read
  rw [decodes] at decodes'
  cases decodes'
  obtain ⟨e, encoded, back, moves⟩ := encode_canonical labelled decodes filled canonical
  obtain ⟨c', p', written, _⟩ := toCode_of_encode labelled moves once encoded reached room
  obtain ⟨_, e', encodes⟩ := encodes_of_toCode (Pool.sound_of_reached reached) written
  have same : e = e' := Except.ok.inj (encoded.symm.trans encodes.encoded)
  subst same
  exact ⟨c', p', written, restored_of_recodes (encodes.code.trans back)
    (recodes_of_encodes labelled moves encodes)⟩

def guardedSwitch : CodeAttribute :=
  ⟨1, 257, [0xC4, 0x15, 1, 0, 0xAA, 0, 0, 0, 0, 0, 0, 20, 0, 0, 0, 0, 0, 0, 0, 0,
    0xFF, 0xFF, 0xFF, 0xFC, 0xB1], [⟨0, 24, 24, 0⟩], [⟨1, [0, 1, 0, 24, 0, 7]⟩]⟩

def lineNamed : Pool := Pool.empty.append (.utf8 (Text.ModifiedUtf8.encode lineNumberTable))

theorem reached_lineNamed : lineNamed.Reached :=
  Pool.reached_append .empty Std.TreeMap.getElem?_emptyc (by decide)

theorem room_lineNamed (b : Body) : lineNamed.HasRoom b.tableNames :=
  hasRoom_tableNames (p := lineNamed) (by decide) b

theorem guardedSwitch_restored : ∃ b decoded c' p', ofCode guardedSwitch lineNamed = .ok b ∧
    decode guardedSwitch.code = .ok decoded ∧
    (∀ d ∈ decoded, d.2.Canonical d.1.toNat (guardedSwitch.code.drop d.1.toNat)) ∧
    guardedSwitch.TablesOnce lineNamed ∧ lineNamed.Reached ∧ lineNamed.HasRoom b.tableNames ∧
    b.toCode lineNamed = .ok c' p' ∧ Restored lineNamed p' guardedSwitch c' := by
  have accepted : (ofCode guardedSwitch lineNamed).toOption.isSome = true := by decide +kernel
  have spelled : ∀ d ∈ ((decode guardedSwitch.code).toOption.getD []),
      d.2.Canonical d.1.toNat (guardedSwitch.code.drop d.1.toNat) := by decide +kernel
  have once : guardedSwitch.TablesOnce lineNamed := by decide
  obtain ⟨b, read⟩ := ok_of_isSome accepted
  obtain ⟨decoded, _, _, decodes, _⟩ := labelled_of_ofCode read
  rw [decodes] at spelled
  have room := room_lineNamed b
  obtain ⟨c', p', written, restored⟩ :=
    toCode_canonical read decodes spelled once reached_lineNamed room
  exact ⟨b, decoded, c', p', read, decodes, spelled, once, reached_lineNamed, room, written,
    restored⟩

end Body
end ClassHooks
