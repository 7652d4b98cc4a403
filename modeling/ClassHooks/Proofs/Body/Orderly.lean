import ClassHooks.Proofs.Body.Redecoding
import ClassHooks.Proofs.Limits
import ClassHooks.Proofs.Pool.Replay

/-!
Bodies in order: whatever names a place names one that is there, no range ends before it begins, and
the frames come in the order of the code. A body that was read is in order. One in order is written
unless it is too large, and what was written is read again.
-/
namespace ClassHooks

def Variable.Spans (items : List Item) (v : Variable) : Prop :=
  ∃ n m, Item.Marks items v.start n ∧ Item.Marks items v.finish m ∧ n ≤ m

namespace Body
open Item Instruction Attribute Labelling

def Heads (b : Body) (l : Label) : Prop := ∃ n < b.instructions.length, Marks b.items l n

/-- Whatever names a place names one that is there, and the frames are in order. -/
structure Orderly (b : Body) : Prop where
  sound : b.Sound
  rising : ∀ i ∈ b.instructions, i.operand.KeysRise
  lines : ∀ l ∈ b.lines, b.Heads l.start
  locals : ∀ v ∈ b.locals, v.Spans b.items
  variableTypes : ∀ v ∈ b.variableTypes, v.Spans b.items
  writable : ∀ f ∈ b.frames.getD [], Frame.Writable f.kind
  positions : ∀ f ∈ b.frames.getD [], ∀ l ∈ f.positions, b.Heads l
  ordered : (b.frames.getD []).Pairwise fun f g =>
    ∃ n m, Marks b.items f.position n ∧ Marks b.items g.position m ∧ n < m

section Labelled
variable {pool : Pool} {t : Labelling} {c : CodeAttribute}
  {decoded : List (UInt16 × Instruction UInt16)} {b : Body}
  (labelled : Labelled pool t c decoded b) (listing : Listing c.code.length 0 decoded)
  (small : c.code.length ≤ 65535)
include labelled listing small

theorem heads_of_inside {o : UInt16} (named : t.NamesInside o) : b.Heads (t.labelFor o) := by
  obtain ⟨n, inside, _, marks⟩ := marks_inside labelled listing small named
  refine ⟨n, ?_, marks⟩
  rwa [instructions_labelled labelled, List.length_map]

theorem spans_of_variable {e : VariableEntry} {v : Variable} (source : t.VariableOf e v) :
    v.Spans b.items := by
  rw [source.same]
  rcases source.order with same | before
  · obtain ⟨n, _, _, marks⟩ := marks_named labelled listing small source.start
    refine ⟨n, n, marks, ?_, Nat.le_refl _⟩
    rwa [same] at marks
  · obtain ⟨n, m, marks, marks', order⟩ :=
      marks_lt labelled listing small source.start source.finish before
    exact ⟨n, m, marks, marks', Nat.le_of_lt order⟩

end Labelled

/-- A body that was read is in order. -/
theorem orderly_of_ofCode {c : CodeAttribute} {pool : Pool} {b : Body}
    (read : ofCode c pool = .ok b) : b.Orderly := by
  obtain ⟨decoded, t, filled, decodes, labelled⟩ := labelled_of_ofCode read
  obtain ⟨small, listing, _⟩ := listing_of_decode decodes
  have tables := labelled.tables
  have named := frames_named tables
  have frames : b.frames.getD [] = ((c.frameEntries pool).getD []).map (Frame.map t.labelFor) := by
    rw [tables.frames]
    cases c.frameEntries pool <;> rfl
  constructor
  case sound => exact sound_of_ofCode read
  case rising => exact (decodable_of_labelled labelled decodes filled).rising
  case lines =>
    rw [tables.lines]
    intro l member
    obtain ⟨e, inside, rfl⟩ := List.mem_map.mp member
    exact heads_of_inside labelled listing small (tables.lineStarts e inside)
  case locals =>
    intro v member
    obtain ⟨e, _, source⟩ := related_of_mem_right tables.locals member
    exact spans_of_variable labelled listing small source
  case variableTypes =>
    intro v member
    obtain ⟨e, _, source⟩ := related_of_mem_right tables.types member
    exact spans_of_variable labelled listing small source
  case writable =>
    rw [frames]
    intro f member
    obtain ⟨g, inside, rfl⟩ := List.mem_map.mp member
    exact Frame.writable_map.mpr ((c.writable_frames pool).2 g inside)
  case positions =>
    rw [frames]
    intro f member l here
    obtain ⟨g, inside, rfl⟩ := List.mem_map.mp member
    rw [Frame.positions_map] at here
    obtain ⟨o, position, rfl⟩ := List.mem_map.mp here
    exact heads_of_inside labelled listing small (named g inside o position)
  case ordered =>
    rw [frames, List.pairwise_map]
    refine CodeAttribute.rising_frameEntries.imp_of_mem fun {g g'} member member' order => ?_
    have here := named g member g.position (by simp [Frame.positions])
    have there := named g' member' g'.position (by simp [Frame.positions])
    exact marks_lt labelled listing small (names_of_inside here) (names_of_inside there) order

theorem Orderly.decodable {b : Body} (orderly : b.Orderly) : Item.Decodable b.items := by
  refine ⟨orderly.rising, ?_⟩
  intro i member l target n marks
  obtain ⟨m, inside, marks'⟩ := orderly.sound.targets i member l target
  rwa [marks_unique orderly.sound.once marks marks']

section Rendered
variable {b : Body} {e : Encoded} {new : List (UInt16 × Instruction UInt16)}
  (renders : e.Renders b.items new)
include renders

theorem new_length : new.length = b.instructions.length := renders.instructions.length_eq.symm

theorem toNat_placeOf {l : Label} {n : Nat} (marks : Marks b.items l n) :
    e.offset l = .ok (e.placeOf l) ∧ (e.placeOf l).toNat = placeIn new e.code.length n := by
  have placed := renders.offset_of_marks marks
  rw [Encoded.placeOf_eq placed]
  exact ⟨placed, renders.toNat_placeIn n⟩

theorem placeOf_lt {l l' : Label} {n m : Nat} (marks : Marks b.items l n)
    (marks' : Marks b.items l' m) (order : n < m) (inside : n < b.instructions.length) :
    e.placeOf l < e.placeOf l' := by
  obtain ⟨small, listing, _⟩ := listing_of_decode renders.decodes
  have less := placeIn_lt listing small order (by rwa [new_length renders])
  rw [UInt16.lt_iff_toNat_lt, (toNat_placeOf renders marks).2, (toNat_placeOf renders marks').2]
  exact less

theorem placeOf_heads {l : Label} (heads : b.Heads l) :
    e.offset l = .ok (e.placeOf l) ∧ e.placeOf l ∈ new.map (·.1) := by
  obtain ⟨n, inside, marks⟩ := heads
  obtain ⟨placed, place⟩ := toNat_placeOf renders marks
  rw [← new_length renders] at inside
  rw [placeIn_eq_of_getElem (List.getElem?_eq_getElem inside), UInt16.toNat_inj] at place
  refine ⟨placed, ?_⟩
  rw [place]
  exact List.mem_map_of_mem (List.getElem_mem inside)

theorem placeOf_bounds {l : Label} {n : Nat} (marks : Marks b.items l n) :
    Bounds new e.code.length (e.placeOf l) := by
  by_cases inside : n < b.instructions.length
  · exact .inl (placeOf_heads renders ⟨n, inside, marks⟩).2
  · obtain ⟨_, place⟩ := toNat_placeOf renders marks
    have past : new.length ≤ n := by
      rw [new_length renders]
      exact Nat.le_of_not_lt inside
    rw [placeIn_of_le past] at place
    right
    rw [← place, UInt16.ofNat_toNat]

theorem variable_lies {v : Variable} (spans : v.Spans b.items) : ∃ entry, v.encode e = .ok entry ∧
    entry.start.toNat + entry.length.toNat ≤ 65535 ∧ Bounds new e.code.length entry.start ∧
    Bounds new e.code.length (entry.start + entry.length) := by
  obtain ⟨n, m, start, finish, order⟩ := spans
  obtain ⟨first, place⟩ := toNat_placeOf renders start
  obtain ⟨last, place'⟩ := toNat_placeOf renders finish
  have less : (e.placeOf v.start).toNat ≤ (e.placeOf v.finish).toNat := by
    rw [place, place']
    exact placeIn_mono renders.decodes order
  have length := UInt16.toNat_sub_of_le _ _ (UInt16.le_iff_toNat_le.mpr less)
  have top := (e.placeOf v.finish).toNat_lt
  have sum : e.placeOf v.start + (e.placeOf v.finish - e.placeOf v.start) = e.placeOf v.finish := by
    rw [UInt16.add_comm]
    exact UInt16.sub_add_cancel _ _
  refine ⟨⟨e.placeOf v.start, e.placeOf v.finish - e.placeOf v.start, v.name, v.descriptor,
    v.index⟩, ?_, ?_, placeOf_bounds renders start, ?_⟩
  · refine bind_ok_iff.mpr ⟨_, first, bind_ok_iff.mpr ⟨_, last, ?_⟩⟩
    dsimp only
    rw [if_neg (UInt16.not_lt.mpr (UInt16.le_iff_toNat_le.mpr less))]
    rfl
  · dsimp only
    omega
  · dsimp only
    rw [sum]
    exact placeOf_bounds renders finish

section Orderly
variable (orderly : b.Orderly)
include orderly

theorem region_lies {r : Region} (member : r ∈ b.handlers) : r.encode e =
      .ok ⟨e.placeOf r.start, e.placeOf r.finish, e.placeOf r.handler, r.catchType.getD 0⟩ ∧
    e.placeOf r.start < e.placeOf r.finish ∧ e.placeOf r.start ∈ new.map (·.1) ∧
    Bounds new e.code.length (e.placeOf r.finish) ∧ e.placeOf r.handler ∈ new.map (·.1) := by
  obtain ⟨s, f, h, start, finish, filled, handler, inside⟩ := orderly.sound.regions r member
  have reached : s < b.instructions.length := by
    have bound : f ≤ b.instructions.length := marks_le finish
    omega
  have order := placeOf_lt renders start finish filled reached
  have first := placeOf_heads renders ⟨s, reached, start⟩
  have last := placeOf_heads renders ⟨h, inside, handler⟩
  refine ⟨?_, order, first.2, placeOf_bounds renders finish, last.2⟩
  refine bind_ok_iff.mpr ⟨_, first.1, bind_ok_iff.mpr
    ⟨_, (toNat_placeOf renders finish).1, ?_⟩⟩
  dsimp only
  rw [if_neg (UInt16.not_le.mpr order)]
  exact bind_ok_iff.mpr ⟨_, last.1, rfl⟩

theorem frames_placed :
    (b.frames.getD []).mapM (·.mapPositions e.offset) =
      .ok ((b.frames.getD []).map (Frame.map e.placeOf)) ∧
    ((b.frames.getD []).map (Frame.map e.placeOf)).Pairwise (fun f g => f.position < g.position) ∧
    ((b.frames.getD []).map (Frame.map e.placeOf)).mergeSort (fun f g => f.position ≤ g.position) =
      (b.frames.getD []).map (Frame.map e.placeOf) := by
  have rising : ((b.frames.getD []).map (Frame.map e.placeOf)).Pairwise
      fun f g => f.position < g.position := by
    rw [List.pairwise_map]
    refine orderly.ordered.imp_of_mem fun {f g} member _ ⟨n, m, first, last, order⟩ => ?_
    obtain ⟨n', inside, marks⟩ := orderly.positions f member f.position (by simp [Frame.positions])
    rw [marks_unique orderly.sound.once marks first] at inside
    exact placeOf_lt renders first last order inside
  refine ⟨?_, rising, ?_⟩
  · refine mapM_ok_of_forall fun f member => Frame.mapPositions_ok fun l here => ?_
    exact (placeOf_heads renders (orderly.positions f member l here)).1
  · exact List.mergeSort_of_pairwise
      (rising.imp fun order => decide_eq_true (UInt16.le_of_lt order))

end Orderly
end Rendered

theorem limited_encode {b : Body} (sound : b.Sound) :
    Limited (Assembly.encode b.items) fun _ => True := by
  cases run : Assembly.encode b.items with
  | ok e => trivial
  | error err =>
    rcases Assembly.encode_error (placed_of_sound sound) run with
      ⟨n, rfl⟩ | ⟨op, p, l, d, _, _, rfl⟩
    · trivial
    · trivial

section Known
variable {pool : Pool} (complete : pool.Complete)
include complete

theorem stays_addUtf8 {name : String} (known : pool.knows name = true) :
    (Pool.addUtf8 name).Stays pool fun _ => True := by
  obtain ⟨i, found⟩ := complete _ (List.contains_iff_mem.mp known) nofun
  exact stays_of_ok (Pool.add_of_found found) trivial

theorem stays_table {xs : List β} {entries : Except Error α} {write : α → Except Error Bytes}
    {name : String} (known : ∀ text ∈ tableName name xs, pool.knows text = true)
    (limited : Limited entries fun es => Limited (write es) fun _ => True) : PoolM.Stays (do
      if xs.isEmpty then return []
      let entries ← PoolM.lift entries
      let index ← Pool.addUtf8 name
      return [⟨index, ← PoolM.lift (write entries)⟩] : PoolM (List Attribute)) pool
        fun _ => True := by
  unfold tableName at known
  by_cases empty : xs.isEmpty = true
  · rw [if_pos empty]
    exact stays_pure trivial
  · rw [if_neg empty] at known ⊢
    refine stays_bind (stays_lift limited) fun es _ ⟨_, written⟩ => ?_
    have named := known name (List.mem_singleton.mpr rfl)
    refine stays_bind (stays_addUtf8 complete named) fun i _ _ => ?_
    exact stays_bind (stays_lift written) fun payload _ _ => stays_pure trivial

theorem stays_stackMap {b : Body} (orderly : b.Orderly) {e : Encoded}
    {new : List (UInt16 × Instruction UInt16)} (renders : e.Renders b.items new)
    (known : ∀ text ∈ tableName stackMapTable b.frames.toList, pool.knows text = true) :
    (encodeFrames e b.frames).Stays pool fun _ => True := by
  obtain ⟨each, rising, sorted⟩ := frames_placed renders orderly
  have kinds : ∀ f ∈ (b.frames.getD []).map (Frame.map e.placeOf), Frame.Writable f.kind := by
    intro f member
    obtain ⟨g, inside, rfl⟩ := List.mem_map.mp member
    exact Frame.writable_map.mpr (orderly.writable g inside)
  have written := Frame.limited_writeTable kinds rising
  cases found : b.frames with
  | none => exact stays_pure trivial
  | some frames =>
    rw [found] at known
    rw [found, Option.getD_some] at each sorted written
    have name := known _ (List.mem_singleton.mpr rfl)
    have placed : Limited (frames.mapM (·.mapPositions e.offset)) fun _ => True :=
      limited_of_ok each trivial
    refine stays_bind (stays_lift placed) fun mapped _ ⟨same, _⟩ => ?_
    rw [each] at same
    cases same
    refine stays_bind (stays_addUtf8 complete name) fun i _ _ => ?_
    rw [sorted]
    exact stays_bind (stays_lift written) fun payload _ _ => stays_pure trivial

theorem stays_toCode {b : Body} (orderly : b.Orderly)
    (known : ∀ name ∈ b.tableNames, pool.knows name = true) :
    b.toCode.Stays pool fun _ => True := by
  simp only [tableNames, List.forall_mem_append] at known
  obtain ⟨lines, locals, types, frames⟩ := known
  refine stays_bind (stays_lift (limited_encode orderly.sound)) fun e _ encoded => ?_
  obtain ⟨run, _⟩ := encoded
  obtain ⟨new, renders⟩ := encode_renders run orderly.decodable
  have handlers : Limited (b.handlers.mapM (·.encode e)) fun _ => True :=
    limited_of_ok (mapM_ok_of_forall fun r member => (region_lies renders orderly member).1) trivial
  have starts : ∀ l ∈ b.lines, l.encode e = .ok ⟨e.placeOf l.start, l.line⟩ := by
    intro l member
    exact bind_ok_iff.mpr ⟨_, (placeOf_heads renders (orderly.lines l member)).1, rfl⟩
  have ranges : ∀ {vs : List Variable}, (∀ v ∈ vs, v.Spans b.items) →
      Limited (vs.mapM (·.encode e)) fun es =>
        Limited (VariableEntry.writeTable es) fun _ => True := by
    intro vs spans
    obtain ⟨entries, each⟩ : ∃ entries, vs.mapM (·.encode e) = .ok entries := by
      refine ok_of_forall fun v member => ?_
      obtain ⟨entry, coded, _⟩ := variable_lies renders (spans v member)
      exact ⟨entry, coded⟩
    exact limited_of_ok each (VariableEntry.limited_writeTable entries)
  refine stays_bind (stays_lift handlers) fun _ _ _ => ?_
  refine stays_bind (stays_table complete lines (limited_of_ok (mapM_ok_of_forall starts)
    (LineEntry.limited_writeTable _))) fun _ _ _ => ?_
  refine stays_bind (stays_table complete locals (ranges orderly.locals)) fun _ _ _ => ?_
  refine stays_bind (stays_table complete types (ranges orderly.variableTypes)) fun _ _ _ => ?_
  exact stays_bind (stays_stackMap complete orderly renders frames) fun _ _ _ => stays_pure trivial

end Known

section Encoded
variable {pool : Pool} {b : Body} {e : Encoded} {c : CodeAttribute} (orderly : b.Orderly)
  (encodes : b.Encodes pool e c) {new : List (UInt16 × Instruction UInt16)}
  (renders : e.Renders b.items new)

include orderly renders in
theorem targets_written : ∀ d ∈ new, ∀ o ∈ d.2.targets, o ∈ new.map (·.1) := by
  intro d member o target
  obtain ⟨i, inside, j, mapped, written⟩ := related_of_mem_right renders.instructions member
  have each : ∀ l ∈ i.targets, e.offset l = .ok (e.placeOf l) := fun l here =>
    (placeOf_heads renders (orderly.sound.targets i inside l here)).1
  rw [Instruction.mapTargets_ok each] at mapped
  cases mapped
  rw [written.targets, Instruction.targets_map] at target
  obtain ⟨l, here, rfl⟩ := List.mem_map.mp target
  exact (placeOf_heads renders (orderly.sound.targets i inside l here)).2

include orderly renders in
theorem frames_written {frames : Option (List (Frame UInt16))}
    (encoded : EncodesFrames e b.frames frames) :
    frames = b.frames.map (List.map (Frame.map e.placeOf)) := by
  obtain ⟨each, _, sorted⟩ := frames_placed renders orderly
  cases found : b.frames with
  | none =>
    rw [found] at encoded
    exact encodesFrames_unique encoded .none
  | some given =>
    rw [found] at encoded
    rw [found, Option.getD_some] at each sorted
    rw [encodesFrames_unique encoded (.some each), sorted]
    rfl

include orderly renders in
theorem regions_written {handlers : List Handler}
    (coded : b.handlers.mapM (·.encode e) = .ok handlers) :
    ∀ h ∈ handlers, h.start < h.finish ∧ h.start ∈ new.map (·.1) ∧
      Bounds new e.code.length h.finish ∧ h.handler ∈ new.map (·.1) := by
  intro h member
  obtain ⟨r, here, one⟩ := related_of_mem_right (mapM_ok_iff.mp coded) member
  obtain ⟨again, lies⟩ := region_lies renders orderly here
  rw [one] at again
  cases again
  exact lies

include renders in
theorem variables_written {vs : List Variable} {entries : List VariableEntry}
    (spans : ∀ v ∈ vs, v.Spans b.items) (coded : vs.mapM (·.encode e) = .ok entries) :
    ∀ entry ∈ entries, entry.start.toNat + entry.length.toNat ≤ 65535 ∧
      Bounds new e.code.length entry.start ∧
      Bounds new e.code.length (entry.start + entry.length) := by
  intro entry member
  obtain ⟨v, here, one⟩ := related_of_mem_right (mapM_ok_iff.mp coded) member
  obtain ⟨_, again, lies⟩ := variable_lies renders (spans v here)
  rw [one] at again
  cases again
  exact lies

include orderly renders in
theorem lines_written {entries : List LineEntry}
    (coded : b.lines.mapM (·.encode e) = .ok entries) :
    ∀ entry ∈ entries, entry.start ∈ new.map (·.1) := by
  intro entry member
  obtain ⟨l, here, one⟩ := related_of_mem_right (mapM_ok_iff.mp coded) member
  obtain ⟨placed, begins⟩ := placeOf_heads renders (orderly.lines l here)
  obtain ⟨o, offset, made⟩ := bind_ok_iff.mp one
  rw [placed] at offset
  cases offset
  cases made
  exact begins

include orderly renders in
theorem positions_written {frames : Option (List (Frame UInt16))}
    (encoded : EncodesFrames e b.frames frames) :
    ∀ f ∈ frames.getD [], ∀ o ∈ f.positions, o ∈ new.map (·.1) := by
  have placed : frames.getD [] = (b.frames.getD []).map (Frame.map e.placeOf) := by
    rw [frames_written orderly renders encoded]
    cases b.frames <;> rfl
  intro f member o position
  rw [placed] at member
  obtain ⟨g, here, rfl⟩ := List.mem_map.mp member
  rw [Frame.positions_map] at position
  obtain ⟨l, there, rfl⟩ := List.mem_map.mp position
  exact (placeOf_heads renders (orderly.positions g here l there)).2

include renders in
theorem returns_written : new.countP (·.2.isReturn) = b.returnCount := by
  refine countP_of_related renders.instructions ?_
  rintro i d ⟨j, mapped, written⟩
  rw [written.isReturn]
  exact isReturn_of_mapTargets mapped

include orderly encodes renders

theorem labellable_of_encodes (apart : ∀ a ∈ b.others, a.isTable pool = false) :
    Labellable pool c new (unnamed c new).boundaries (UInt16.ofNat c.code.length) := by
  obtain ⟨lines, locals, types, frames, L, V, T, S, oneLines, oneLocals, oneTypes, oneFrames,
    listed, first, second, third, fourth⟩ := encodes.tables
  have arranged := arranged_of_holds listed first second third fourth apart
  have inside : ∀ {o : UInt16}, o ∈ new.map (·.1) →
      (unnamed c new).boundaries.contains o = true := (unnamed_boundaries c new _).mpr
  have bounds : ∀ {o : UInt16}, Bounds new e.code.length o →
      (unnamed c new).boundaries.contains o = true ∨ o = UInt16.ofNat c.code.length := by
    intro o known
    rw [encodes.code]
    exact known.imp_left inside
  have lies : ∀ {vs : List Variable} {entries : List VariableEntry}, (∀ v ∈ vs, v.Spans b.items) →
      vs.mapM (·.encode e) = .ok entries → ∀ entry ∈ entries,
        entry.Lies (unnamed c new).boundaries (UInt16.ofNat c.code.length) := by
    intro vs entries spans coded entry member
    obtain ⟨bound, start, finish⟩ := variables_written renders spans coded entry member
    exact ⟨bound, bounds start, bounds finish⟩
  constructor
  case targets =>
    intro d member o target
    exact inside (targets_written orderly renders d member o target)
  case handlers =>
    intro h member
    obtain ⟨filled, start, finish, handler⟩ :=
      regions_written orderly renders encodes.handlers h member
    exact ⟨filled, inside start, bounds finish, inside handler⟩
  case single => exact arranged.single (by simp) fourth
  case attributes =>
    intro a member
    constructor
    case frames =>
      intro name
      have parsed := parsed_of_holdsFrames fourth a (arranged.mem_part
        (p := (stackMapTable, S)) (by simp) member name)
      exact ⟨_, parsed, fun f found o position =>
        inside (positions_written orderly renders oneFrames f found o position)⟩
    case lines =>
      intro name
      have parsed := parsed_of_holds first a (arranged.mem_part
        (p := (lineNumberTable, L)) (by simp) member name)
      exact ⟨_, parsed, fun entry found => inside (lines_written orderly renders oneLines entry found)⟩
    case locals =>
      intro name
      exact ⟨_, parsed_of_holds second a (arranged.mem_part
        (p := (localVariableTable, V)) (by simp) member name), lies orderly.locals oneLocals⟩
    case types =>
      intro name
      exact ⟨_, parsed_of_holds third a (arranged.mem_part
        (p := (localVariableTypeTable, T)) (by simp) member name),
        lies orderly.variableTypes oneTypes⟩

end Encoded

theorem admits_of_encodes {pool : Pool} {b : Body} {e : Encoded} {c : CodeAttribute}
    (orderly : b.Orderly) (encodes : b.Encodes pool e c) :
    CodeAttribute.admitsLength c.code.length = true := by
  obtain ⟨new, renders⟩ := encode_renders encodes.encoded orderly.decodable
  obtain ⟨small, _⟩ := listing_of_decode renders.decodes
  have filled : c.code ≠ [] := by
    intro empty
    have none := renders.decodes
    rw [← encodes.code, empty] at none
    cases none
    have := orderly.sound.filled
    rw [← new_length renders] at this
    exact Nat.lt_irrefl 0 this
  rw [← encodes.code] at small
  have := List.length_pos_iff.mpr filled
  simp only [CodeAttribute.admitsLength, Bool.and_eq_true, decide_eq_true_eq]
  omega

/-- A body in order that was encoded is read again, with as many returns, and with a stack map if it
had one. -/
theorem ofCode_of_encodes {pool : Pool} {b : Body} {e : Encoded} {c : CodeAttribute}
    (orderly : b.Orderly) (encodes : b.Encodes pool e c)
    (apart : ∀ a ∈ b.others, a.isTable pool = false) : ∃ b', ofCode c pool = .ok b' ∧
      b'.frames.isSome = b.frames.isSome ∧ b'.returnCount = b.returnCount := by
  obtain ⟨new, renders⟩ := encode_renders encodes.encoded orderly.decodable
  have filled : c.code ≠ [] := by
    intro empty
    have admits := admits_of_encodes orderly encodes
    rw [empty] at admits
    cases admits
  have decodes : decode c.code = .ok new := by rw [encodes.code, renders.decodes]
  obtain ⟨b', t, read, labelled, _⟩ := ofCode_of_labellable filled decodes
    (labellable_of_encodes orderly encodes renders apart)
  obtain ⟨_, _, _, frames, L, V, T, S, _, _, _, framed, listed, first, second, third, fourth⟩ :=
    encodes.tables
  have arranged := arranged_of_holds listed first second third fourth apart
  have stackMap : c.frameEntries pool = frames := arranged.frameEntries_eq (by simp) fourth
  refine ⟨b', read, ?_, ?_⟩
  · rw [labelled.tables.frames, stackMap, frames_written orderly renders framed]
    simp
  · rw [← returns_written renders, returnCount, instructions_labelled labelled, List.countP_map]
    rfl

end Body
end ClassHooks
