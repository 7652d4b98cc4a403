import ClassHooks.Proofs.Body.Moving
import ClassHooks.Proofs.Body.Naming
import ClassHooks.Proofs.Body.Places

/-!
Two code attributes, the second with the offsets of the first moved, become the same body but for the
numbers of the labels: just the moved offsets are named, so just these get labels.
-/
namespace ClassHooks

inductive Item.Renames (g : Label → Label) : Item → Item → Prop where
  | mark (l : Label) : Renames g (.mark l) (.mark (g l))
  | op {i j : Instruction Label} (lengthens : (i.map g).LengthensTo j) : Renames g (.op i) (.op j)

def Region.rename (g : Label → Label) (r : Region) : Region :=
  ⟨g r.start, g r.finish, g r.handler, r.catchType⟩

def LineMark.rename (g : Label → Label) (l : LineMark) : LineMark := ⟨g l.start, l.line⟩

def Variable.rename (g : Label → Label) (v : Variable) : Variable :=
  ⟨g v.start, g v.finish, v.name, v.descriptor, v.index⟩

/-- The body with other labels, different ones for different ones. -/
structure Body.Renames (g : Label → Label) (b b' : Body) : Prop where
  apart : ∀ l ∈ Item.labels b.items, ∀ l' ∈ Item.labels b.items, g l = g l' → l = l'
  items : List.Forall₂ (Item.Renames g) b.items b'.items
  handlers : b'.handlers = b.handlers.map (Region.rename g)
  frames : b'.frames = b.frames.map (List.map (Frame.map g))
  lines : b'.lines = b.lines.map (LineMark.rename g)
  locals : b'.locals = b.locals.map (Variable.rename g)
  variableTypes : b'.variableTypes = b.variableTypes.map (Variable.rename g)
  others : b'.others = b.others
  maxStack : b'.maxStack = b.maxStack
  maxLocals : b'.maxLocals = b.maxLocals
  nextLabel : b'.nextLabel = b.nextLabel

namespace Attribute

structure Parses (pool : Pool) (a : Attribute) : Prop where
  frames : a.hasName pool stackMapTable = true → ∃ fs, Frame.parseTable a.payload = .ok fs
  lines : a.hasName pool lineNumberTable = true → ∃ es, LineEntry.parseTable a.payload = .ok es
  locals : a.hasName pool localVariableTable = true →
    ∃ es, VariableEntry.parseTable a.payload = .ok es
  types : a.hasName pool localVariableTypeTable = true →
    ∃ es, VariableEntry.parseTable a.payload = .ok es

end Attribute

namespace CodeAttribute
open Attribute
variable {pool : Pool} {c : CodeAttribute}

theorem isSome_frameEntries (a : Attribute) :
    (a.frameEntries pool).isSome = a.hasName pool stackMapTable := by
  unfold Attribute.frameEntries
  split
  · rename_i name
    exact name.symm
  · rename_i other
    exact (Bool.not_eq_true _ ▸ other).symm

theorem frameEntries_of_mem (single : c.attributes.countP (·.hasName pool stackMapTable) ≤ 1)
    {a : Attribute} (member : a ∈ c.attributes) {fs : List (Frame UInt16)}
    (found : a.frameEntries pool = some fs) : c.frameEntries pool = some fs := by
  have few : (c.attributes.filterMap (Attribute.frameEntries pool)).length ≤ 1 := by
    rw [List.length_filterMap_eq_countP, List.countP_congr fun a _ => by
      rw [isSome_frameEntries]]
    exact single
  have here := List.mem_filterMap.mpr ⟨a, member, found⟩
  unfold frameEntries
  cases listed : c.attributes.filterMap (Attribute.frameEntries pool) with
  | nil =>
    rw [listed] at here
    cases here
  | cons fs' rest =>
    rw [listed] at here few
    have none : rest = [] :=
      List.length_eq_zero_iff.mp (Nat.le_zero.mp (Nat.le_of_succ_le_succ few))
    subst none
    rw [List.mem_singleton.mp here]
    rfl

def tablePlaces (pool : Pool) (c : CodeAttribute) : List UInt16 :=
  ((c.frameEntries pool).getD []).flatMap Frame.positions ++
    ((c.lineEntries pool).map LineEntry.start ++
      ((c.variableEntries pool localVariableTable).flatMap VariableEntry.ends ++
        (c.variableEntries pool localVariableTypeTable).flatMap VariableEntry.ends))

theorem mem_tablePlaces (single : c.attributes.countP (·.hasName pool stackMapTable) ≤ 1)
    {o : UInt16} : o ∈ c.attributes.flatMap (Attribute.places pool) ↔ o ∈ c.tablePlaces pool := by
  have frames : (∃ a ∈ c.attributes, ∃ f ∈ (a.frameEntries pool).getD [], o ∈ f.positions) ↔
      ∃ f ∈ (c.frameEntries pool).getD [], o ∈ f.positions := by
    constructor
    · rintro ⟨a, member, f, inside, here⟩
      cases found : a.frameEntries pool with
      | none =>
        rw [found] at inside
        cases inside
      | some fs =>
        rw [found] at inside
        rw [frameEntries_of_mem single member found]
        exact ⟨f, inside, here⟩
    · rintro ⟨f, inside, here⟩
      cases found : c.frameEntries pool with
      | none =>
        rw [found] at inside
        cases inside
      | some fs =>
        rw [found] at inside
        obtain ⟨a, member, same⟩ := List.mem_filterMap.mp (List.mem_of_head? found)
        exact ⟨a, member, f, by rwa [same], here⟩
  simp only [Attribute.places, tablePlaces, lineEntries, variableEntries, List.mem_flatMap,
    List.mem_append, List.mem_map, and_or_left, exists_or, frames]
  grind

end CodeAttribute

namespace Body
open Attribute Instruction Labelling

/-- The second code attribute is the first with its offsets moved, and maybe some jumps in their long
form. -/
structure Relocates (pool pool' : Pool) (f : UInt16 → UInt16) (c c' : CodeAttribute)
    (decoded new : List (UInt16 × Instruction UInt16)) : Prop where
  filled : c'.code ≠ []
  decodes : decode c'.code = .ok new
  rising : ∀ o o', Bounds decoded c.code.length o → Bounds decoded c.code.length o' → o < o' →
    f o < f o'
  instructions : List.Forall₂ (fun d d' => d'.1 = f d.1 ∧ (d.2.map f).LengthensTo d'.2) decoded new
  finish : f (UInt16.ofNat c.code.length) = UInt16.ofNat c'.code.length
  maxStack : c'.maxStack = c.maxStack
  maxLocals : c'.maxLocals = c.maxLocals
  handlers : c'.handlers = c.handlers.map (Handler.move f)
  parses : ∀ a ∈ c'.attributes, a.Parses pool'
  single : c'.attributes.countP (·.hasName pool' stackMapTable) ≤ 1
  frames : c'.frameEntries pool' = (c.frameEntries pool).map (List.map (Frame.map f))
  lines : c'.lineEntries pool' = (c.lineEntries pool).map fun l => ⟨f l.start, l.line⟩
  locals : c'.variableEntries pool' localVariableTable =
    (c.variableEntries pool localVariableTable).map (VariableEntry.move f)
  types : c'.variableEntries pool' localVariableTypeTable =
    (c.variableEntries pool localVariableTypeTable).map (VariableEntry.move f)
  others : c'.otherAttributes pool' = c.otherAttributes pool

theorem renames_markedItems {labels labels' : Std.TreeMap UInt16 Label} {last last' : UInt16}
    {g : Label → Label} {ds ds' : List (UInt16 × Instruction Label)}
    (related : List.Forall₂ (fun d d' => labels'[d'.1]? = labels[d.1]?.map g ∧
      (d.2.map g).LengthensTo d'.2) ds ds') (ends : labels'[last']? = labels[last]?.map g) :
    List.Forall₂ (Item.Renames g) (markedItems labels last ds) (markedItems labels' last' ds') := by
  have marks : ∀ found : Option Label, List.Forall₂ (Item.Renames g)
      (found.map Item.mark).toList ((found.map g).map Item.mark).toList := by
    rintro (_ | l)
    · exact .nil
    · exact .cons (.mark l) .nil
  induction related with
  | nil =>
    rw [markedItems_nil, markedItems_nil, ends]
    exact marks _
  | @cons d d' ds ds' first _ ih =>
    rw [markedItems_cons, markedItems_cons, first.1]
    exact List.rel_append (marks _) (.cons (.op first.2) ih)

section Labelled
variable {pool : Pool} {t : Labelling} {c : CodeAttribute}
  {decoded : List (UInt16 × Instruction UInt16)} {b : Body} (labelled : Labelled pool t c decoded b)
include labelled

theorem names_of_getElem {o : UInt16} {l : Label} (found : t.labels[o]? = some l) : t.Names o :=
  ⟨labelled.sound.known o l found, by rw [found, labelFor_eq found]⟩

end Labelled

def relabel (t' : Labelling) (e : Encoded) (l : Label) : Label := t'.labelFor (e.placeOf l)

namespace Relocates
variable {pool pool' : Pool} {f : UInt16 → UInt16} {c c' : CodeAttribute}
  {decoded new : List (UInt16 × Instruction UInt16)} (r : Relocates pool pool' f c c' decoded new)
include r

theorem injective {o o' : UInt16} (known : Bounds decoded c.code.length o)
    (known' : Bounds decoded c.code.length o') (same : f o = f o') : o = o' := by
  by_contra differ
  rcases UInt16.lt_or_lt_of_ne differ with less | more
  · exact absurd same (UInt16.ne_of_lt (r.rising o o' known known' less))
  · exact absurd same.symm (UInt16.ne_of_lt (r.rising o' o known' known more))

theorem begins {o : UInt16} (member : o ∈ decoded.map (·.1)) : f o ∈ new.map (·.1) := by
  obtain ⟨d, here, rfl⟩ := List.mem_map.mp member
  obtain ⟨d', there, same, _⟩ := related_of_mem r.instructions here
  exact List.mem_map.mpr ⟨d', there, same⟩

theorem targets_eq :
    new.flatMap (·.2.targets) = (decoded.flatMap (·.2.targets)).map f := by
  have related := r.instructions
  clear r
  induction related with
  | nil => rfl
  | cons first _ ih =>
    rw [List.flatMap_cons, List.flatMap_cons, List.map_append, ih, first.2.targets, targets_map]

theorem places_eq :
    c'.handlers.flatMap Handler.places = (c.handlers.flatMap Handler.places).map f := by
  rw [r.handlers, List.flatMap_map, List.map_flatMap]
  rfl

theorem tablePlaces_eq : c'.tablePlaces pool' = (c.tablePlaces pool).map f := by
  have ends : ∀ e : VariableEntry, (e.move f).ends = e.ends.map f := fun e => by
    rw [VariableEntry.ends, e.move_finish]
    rfl
  have frames : ((c'.frameEntries pool').getD []).flatMap Frame.positions =
      (((c.frameEntries pool).getD []).flatMap Frame.positions).map f := by
    rw [r.frames]
    cases c.frameEntries pool with
    | none => rfl
    | some fs => simp [List.flatMap_map, List.map_flatMap, Frame.positions_map]
  rw [CodeAttribute.tablePlaces, CodeAttribute.tablePlaces, frames, r.lines, r.locals, r.types]
  simp [List.flatMap_map, List.map_flatMap, ends]

section Labelled
variable {t : Labelling} {b : Body} {e : Encoded} (labelled : Labelled pool t c decoded b)
include labelled

theorem mem_namedOffsets {o' : UInt16} : o' ∈ namedOffsets pool' c' new ↔
    ∃ o ∈ namedOffsets pool c decoded, f o = o' := by
  obtain ⟨_, all⟩ := labelled.reads
  have single : c.attributes.countP (·.hasName pool stackMapTable) ≤ 1 := by
    simpa using BodyPart.single_of_readsAll all
  rw [← List.mem_map]
  simp only [namedOffsets, List.map_append, List.mem_append, r.targets_eq, r.places_eq,
    CodeAttribute.mem_tablePlaces r.single, r.tablePlaces_eq, List.mem_map,
    CodeAttribute.mem_tablePlaces single]

theorem inside_moved {o : UInt16} (named : t.NamesInside o) :
    (unnamed c' new).boundaries.contains (f o) = true :=
  (unnamed_boundaries c' new _).mpr (r.begins ((labelled.boundaries o).mp named.1))

theorem known_moved {o : UInt16} (named : t.Names o) :
    (unnamed c' new).boundaries.contains (f o) = true ∨ f o = UInt16.ofNat c'.code.length := by
  rcases bounds_of_names labelled named with inside | rfl
  · exact .inl ((unnamed_boundaries c' new _).mpr (r.begins inside))
  · exact .inr r.finish

variable (moves : t.Moves e f)
include moves

theorem lies_move {entries : List VariableEntry} {vs : List Variable}
    (related : List.Forall₂ t.VariableOf entries vs) :
    ∀ v ∈ entries.map (VariableEntry.move f), v.Lies (unnamed c' new).boundaries
      (UInt16.ofNat c'.code.length) := by
  intro v' member
  obtain ⟨v, inside, rfl⟩ := List.mem_map.mp member
  obtain ⟨_, _, source⟩ := related_of_mem related inside
  have order := moves.range_le source
  have length := UInt16.toNat_sub_of_le _ _ order
  have last := (f (v.start + v.length)).toNat_lt
  refine ⟨?_, r.known_moved labelled source.start, ?_⟩
  · change (f v.start).toNat + (f (v.start + v.length) - f v.start).toNat ≤ 65535
    rw [UInt16.le_iff_toNat_le] at order
    omega
  · rw [v.move_finish]
    exact r.known_moved labelled source.finish

theorem readable {a : Attribute} (member : a ∈ c'.attributes) : a.Readable pool'
    (unnamed c' new).boundaries (UInt16.ofNat c'.code.length) := by
  have tables := labelled.tables
  have parses := r.parses a member
  constructor
  case frames =>
    intro name
    obtain ⟨fs, parsed⟩ := parses.frames name
    refine ⟨fs, parsed, fun frame inside o' here => ?_⟩
    have found : a.frameEntries pool' = some fs := by
      rw [Attribute.frameEntries, if_pos name, parsed]
      rfl
    have whole := CodeAttribute.frameEntries_of_mem r.single member found
    rw [r.frames] at whole
    obtain ⟨gs, source, rfl⟩ := Option.map_eq_some_iff.mp whole
    obtain ⟨frame, old, rfl⟩ := List.mem_map.mp inside
    rw [Frame.positions_map] at here
    obtain ⟨o, position, rfl⟩ := List.mem_map.mp here
    exact r.inside_moved labelled (tables.framePositions gs source frame old o position)
  case lines =>
    intro name
    obtain ⟨es, parsed⟩ := parses.lines name
    refine ⟨es, parsed, fun entry inside => ?_⟩
    have here : entry ∈ c'.lineEntries pool' := List.mem_flatMap.mpr ⟨a, member, by
      rwa [Attribute.lineEntries, if_pos name, parsed]⟩
    rw [r.lines] at here
    obtain ⟨old, source, rfl⟩ := List.mem_map.mp here
    exact r.inside_moved labelled (tables.lineStarts old source)
  case locals =>
    intro name
    obtain ⟨es, parsed⟩ := parses.locals name
    refine ⟨es, parsed, fun entry inside => r.lies_move labelled moves tables.locals entry ?_⟩
    rw [← r.locals]
    exact List.mem_flatMap.mpr ⟨a, member, by rwa [Attribute.variableEntries, if_pos name, parsed]⟩
  case types =>
    intro name
    obtain ⟨es, parsed⟩ := parses.types name
    refine ⟨es, parsed, fun entry inside => r.lies_move labelled moves tables.types entry ?_⟩
    rw [← r.types]
    exact List.mem_flatMap.mpr ⟨a, member, by rwa [Attribute.variableEntries, if_pos name, parsed]⟩

theorem labellable : Labellable pool' c' new (unnamed c' new).boundaries
    (UInt16.ofNat c'.code.length) := by
  constructor
  case targets =>
    intro d' member o' target
    obtain ⟨d, here, _, lengthens⟩ := related_of_mem_right r.instructions member
    rw [lengthens.targets, targets_map] at target
    obtain ⟨o, source, rfl⟩ := List.mem_map.mp target
    exact r.inside_moved labelled (labelled.targets d here o source)
  case handlers =>
    rw [r.handlers]
    intro h' member
    obtain ⟨h, here, rfl⟩ := List.mem_map.mp member
    obtain ⟨_, _, source⟩ := related_of_mem labelled.regions here
    exact ⟨moves.rising _ _ (names_of_inside source.start) source.finish source.filled,
      r.inside_moved labelled source.start, r.known_moved labelled source.finish,
      r.inside_moved labelled source.handler⟩
  case attributes => exact fun a member => r.readable labelled moves member
  case single => exact r.single

section Relabelled
variable {t' : Labelling} {b' : Body} (labelled' : Labelled pool' t' c' new b')
  (named : ∀ o, o ∈ t.labels ↔ o ∈ namedOffsets pool c decoded)
  (named' : ∀ o, o ∈ t'.labels ↔ o ∈ namedOffsets pool' c' new)

omit r labelled in
theorem relabel_label {o : UInt16} (known : t.Names o) :
    relabel t' e (t.labelFor o) = t'.labelFor (f o) := by
  rw [relabel, moves.placeOf_label known]

include named named'

theorem labels_moved {o : UInt16} (known : Bounds decoded c.code.length o) :
    t'.labels[f o]? = t.labels[o]?.map (relabel t' e) := by
  cases found : t.labels[o]? with
  | some l =>
    have member : o ∈ t.labels := by
      rw [Std.TreeMap.mem_iff_isSome_getElem?, found]
      rfl
    have member' : f o ∈ t'.labels :=
      (named' _).mpr ((r.mem_namedOffsets labelled).mpr ⟨o, (named o).mp member, rfl⟩)
    obtain ⟨l', found'⟩ := Option.isSome_iff_exists.mp
      (Std.TreeMap.mem_iff_isSome_getElem?.mp member')
    rw [found', Option.map_some, ← labelFor_eq found,
      relabel_label moves (names_of_getElem labelled found), labelFor_eq found']
  | none =>
    have absent : f o ∉ t'.labels := by
      intro member'
      obtain ⟨o', there, same⟩ := (r.mem_namedOffsets labelled).mp ((named' _).mp member')
      have member := (named o').mpr there
      obtain ⟨l, found'⟩ := Option.isSome_iff_exists.mp
        (Std.TreeMap.mem_iff_isSome_getElem?.mp member)
      have known' := bounds_of_names labelled (names_of_getElem labelled found')
      rw [r.injective known' known same, found] at found'
      cases found'
    exact Std.TreeMap.getElem?_eq_none absent

omit moves in
theorem size_labels : t'.labels.size = t.labels.size := by
  have moved : (t.labels.keys.map f).Nodup := by
    refine List.pairwise_map.mpr
      (Std.TreeMap.nodup_keys.imp_of_mem fun {o o'} here here' differ same => ?_)
    have known : ∀ o ∈ t.labels.keys, Bounds decoded c.code.length o := by
      intro o member
      obtain ⟨l, found⟩ := Option.isSome_iff_exists.mp
        (Std.TreeMap.mem_iff_isSome_getElem?.mp (Std.TreeMap.mem_keys.mp member))
      exact bounds_of_names labelled (names_of_getElem labelled found)
    exact differ (r.injective (known o here) (known o' here') same)
  have same : t'.labels.keys.Perm (t.labels.keys.map f) := by
    refine (List.perm_ext_iff_of_nodup Std.TreeMap.nodup_keys moved).mpr fun o' => ?_
    simp only [Std.TreeMap.mem_keys, named', r.mem_namedOffsets labelled, List.mem_map, named]
  have count := same.length_eq
  rwa [List.length_map, Std.TreeMap.length_keys, Std.TreeMap.length_keys] at count

include labelled'

theorem apart_relabel (decodes : decode c.code = .ok decoded) {l l' : Label}
    (member : l ∈ Item.labels b.items) (member' : l' ∈ Item.labels b.items)
    (same : relabel t' e l = relabel t' e l') : l = l' := by
  obtain ⟨small, listing, _⟩ := listing_of_decode decodes
  have origin : ∀ l ∈ Item.labels b.items, ∃ o : UInt16, t.labels[o]? = some l := by
    intro l member
    obtain ⟨n, marks⟩ := Item.marked_iff_mem.mpr member
    obtain ⟨o, found, _⟩ := (marks_labelled labelled listing small).mp marks
    exact ⟨o, found⟩
  obtain ⟨o, found⟩ := origin l member
  obtain ⟨o', found'⟩ := origin l' member'
  have known := bounds_of_names labelled (names_of_getElem labelled found)
  have known' := bounds_of_names labelled (names_of_getElem labelled found')
  have moved := r.labels_moved labelled moves named named' known
  have moved' := r.labels_moved labelled moves named named' known'
  rw [found, Option.map_some] at moved
  rw [found', Option.map_some, ← same] at moved'
  rw [r.injective known known' (labelled'.sound.single _ _ _ moved moved'), found'] at found
  exact (Option.some.inj found).symm

theorem renames_items :
    List.Forall₂ (Item.Renames (relabel t' e)) b.items b'.items := by
  rw [labelled.items, labelled'.items, labelled.codeLength, labelled'.codeLength]
  refine renames_markedItems ?_ ?_
  · rw [List.forall₂_map_left_iff, List.forall₂_map_right_iff]
    have each : ∀ d ∈ decoded, d ∈ decoded := fun _ member => member
    refine ((List.forall₂_and_left _ _).mpr ⟨each, r.instructions⟩).imp ?_
    rintro d d' ⟨member, place, lengthens⟩
    have same : (d.2.map t.labelFor).map (relabel t' e) = (d.2.map f).map t'.labelFor := by
      rw [map_map, map_map]
      exact map_congr fun o target =>
        relabel_label moves (names_of_inside (labelled.targets d member o target))
    refine ⟨?_, same ▸ lengthens.map t'.labelFor⟩
    rw [place]
    exact r.labels_moved labelled moves named named' (.inl (List.mem_map_of_mem member))
  · rw [← r.finish]
    exact r.labels_moved labelled moves named named' (.inr rfl)

omit named named'

theorem renames_handlers : b'.handlers = b.handlers.map (Region.rename (relabel t' e)) := by
  have related := labelled'.regions
  rw [r.handlers, List.forall₂_map_left_iff] at related
  have old := eq_map_of_related (labelled.regions.imp fun _ _ source => source.same)
  rw [eq_map_of_related (related.imp fun _ _ source => source.same), old, List.map_map]
  refine List.map_congr_left fun h member => ?_
  obtain ⟨_, _, source⟩ := related_of_mem labelled.regions member
  simp only [Function.comp_apply, Region.rename, Handler.move,
    relabel_label moves (names_of_inside source.start), relabel_label moves source.finish,
    relabel_label moves (names_of_inside source.handler)]
  rfl

theorem renames_frames : b'.frames = b.frames.map (List.map (Frame.map (relabel t' e))) := by
  rw [labelled'.tables.frames, labelled.tables.frames, r.frames]
  cases found : c.frameEntries pool with
  | none => rfl
  | some fs =>
    simp only [Option.map_some, List.map_map, Option.some.injEq]
    refine List.map_congr_left fun frame member => ?_
    rw [Function.comp_apply, Function.comp_apply, Frame.map_map, Frame.map_map]
    exact (Frame.map_congr fun o here => relabel_label moves (names_of_inside
      (labelled.tables.framePositions fs found frame member o here))).symm

theorem renames_lines : b'.lines = b.lines.map (LineMark.rename (relabel t' e)) := by
  rw [labelled'.tables.lines, labelled.tables.lines, r.lines, List.map_map, List.map_map]
  refine List.map_congr_left fun entry member => ?_
  simp only [Function.comp_apply, LineMark.rename,
    relabel_label moves (names_of_inside (labelled.tables.lineStarts entry member))]

omit r labelled labelled'

theorem renames_variables {entries : List VariableEntry} {vs vs' : List Variable}
    (related : List.Forall₂ t.VariableOf entries vs)
    (related' : List.Forall₂ t'.VariableOf (entries.map (VariableEntry.move f)) vs') :
    vs' = vs.map (Variable.rename (relabel t' e)) := by
  rw [List.forall₂_map_left_iff] at related'
  rw [eq_map_of_related (related'.imp fun _ _ source => source.same),
    eq_map_of_related (related.imp fun _ _ source => source.same), List.map_map]
  refine List.map_congr_left fun entry member => ?_
  obtain ⟨_, _, source⟩ := related_of_mem related member
  rw [entry.move_finish]
  simp only [Function.comp_apply, Variable.rename, VariableEntry.move,
    relabel_label moves source.start, relabel_label moves source.finish]

end Relabelled

/-- The relocated code attribute becomes the same body with other labels. -/
theorem ofCode_relocated (decodes : decode c.code = .ok decoded)
    (named : ∀ o, o ∈ t.labels ↔ o ∈ namedOffsets pool c decoded) :
    ∃ b' g, ofCode c' pool' = .ok b' ∧ b.Renames g b' := by
  obtain ⟨b', t', made, labelled', named'⟩ :=
    ofCode_of_labellable r.filled r.decodes (r.labellable labelled moves)
  refine ⟨b', relabel t' e, made, ?_⟩
  constructor
  case apart => exact fun l member l' member' =>
    r.apart_relabel labelled moves labelled' named named' decodes member member'
  case items => exact r.renames_items labelled moves labelled' named named'
  case handlers => exact r.renames_handlers labelled moves labelled'
  case frames => exact r.renames_frames labelled moves labelled'
  case lines => exact r.renames_lines labelled moves labelled'
  case locals =>
    have related := labelled'.tables.locals
    rw [r.locals] at related
    exact renames_variables moves labelled.tables.locals related
  case variableTypes =>
    have related := labelled'.tables.types
    rw [r.types] at related
    exact renames_variables moves labelled.tables.types related
  case others => rw [labelled'.tables.others, labelled.tables.others, r.others]
  case maxStack => rw [labelled'.maxStack, labelled.maxStack, r.maxStack]
  case maxLocals => rw [labelled'.maxLocals, labelled.maxLocals, r.maxLocals]
  case nextLabel =>
    rw [labelled'.nextLabel, labelled.nextLabel, r.size_labels labelled named named']

end Labelled
end Relocates
end Body
end ClassHooks
