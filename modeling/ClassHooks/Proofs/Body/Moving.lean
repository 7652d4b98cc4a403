import ClassHooks.Proofs.Body.Encoding
import ClassHooks.Proofs.Body.Labelled
import ClassHooks.Proofs.Instruction.Rendering

/-!
Encoding what was labelled. If one map takes the offsets to where their labels lie in the new code,
it moves every entry of every table, and nothing else of them changes.
-/
namespace ClassHooks

namespace Encoded

def placeOf (e : Encoded) (l : Label) : UInt16 := UInt16.ofNat ((e.labels[l]?).getD 0)

theorem placeOf_eq {e : Encoded} {l : Label} {o : UInt16} (placed : e.offset l = .ok o) :
    e.placeOf l = o := by
  unfold offset at placed
  split at placed
  · rename_i n found
    cases placed
    rw [placeOf, found]
    rfl
  · cases placed

end Encoded

def Handler.move (f : UInt16 → UInt16) (h : Handler) : Handler :=
  ⟨f h.start, f h.finish, f h.handler, h.catchType⟩

def VariableEntry.move (f : UInt16 → UInt16) (e : VariableEntry) : VariableEntry :=
  ⟨f e.start, f (e.start + e.length) - f e.start, e.name, e.descriptor, e.index⟩

@[simp] theorem Handler.move_id (h : Handler) : h.move id = h := rfl

@[simp] theorem VariableEntry.move_id (e : VariableEntry) : e.move id = e := by
  simp [move, UInt16.add_comm e.start]

theorem VariableEntry.move_finish (f : UInt16 → UInt16) (e : VariableEntry) :
    (e.move f).start + (e.move f).length = f (e.start + e.length) := by
  rw [UInt16.add_comm]
  exact UInt16.sub_add_cancel _ _

theorem CodeAttribute.frames_parsed (pool : Pool) (c : CodeAttribute) :
    (c.frameEntries pool).getD [] = [] ∨
      ∃ payload, Frame.parseTable payload = .ok ((c.frameEntries pool).getD []) := by
  unfold frameEntries
  cases found : (c.attributes.filterMap (Attribute.frameEntries pool)).head? with
  | none => exact .inl rfl
  | some fs =>
    obtain ⟨a, _, here⟩ := List.mem_filterMap.mp (List.mem_of_head? found)
    unfold Attribute.frameEntries at here
    split at here
    · cases here
      cases parsed : Frame.parseTable a.payload with
      | error e => exact .inl rfl
      | ok fs => exact .inr ⟨_, parsed⟩
    · cases here

theorem CodeAttribute.rising_frameEntries {c : CodeAttribute} {pool : Pool} :
    ((c.frameEntries pool).getD []).Pairwise fun f g => f.position < g.position := by
  rcases c.frames_parsed pool with none | ⟨payload, parsed⟩
  · rw [none]
    exact .nil
  · exact Frame.rising_of_parseTable parsed

namespace Body

theorem frames_named {pool : Pool} {t : Labelling} {c : CodeAttribute} {b : Body}
    (tables : Tables pool t c b) :
    ∀ f ∈ (c.frameEntries pool).getD [], ∀ o ∈ f.positions, t.NamesInside o := by
  intro f member
  cases found : c.frameEntries pool with
  | none =>
    rw [found] at member
    cases member
  | some fs =>
    rw [found] at member
    exact tables.framePositions fs found f member

end Body

namespace Labelling

/-- The label of every offset lies where `f` takes the offset, and `f` keeps their order. -/
structure Moves (t : Labelling) (e : Encoded) (f : UInt16 → UInt16) : Prop where
  offset : ∀ o, t.Names o → e.offset (t.labelFor o) = .ok (f o)
  rising : ∀ o o', t.Names o → t.Names o' → o < o' → f o < f o'

namespace Moves
variable {t : Labelling} {e : Encoded} {f : UInt16 → UInt16} (moves : t.Moves e f)
include moves

theorem inside {o : UInt16} (named : t.NamesInside o) : e.offset (t.labelFor o) = .ok (f o) :=
  moves.offset o (names_of_inside named)

theorem placeOf_label {o : UInt16} (named : t.Names o) : e.placeOf (t.labelFor o) = f o :=
  Encoded.placeOf_eq (moves.offset o named)

theorem injective {o o' : UInt16} (named : t.Names o) (named' : t.Names o') (same : f o = f o') :
    o = o' := by
  by_contra differ
  rcases UInt16.lt_or_lt_of_ne differ with less | more
  · exact absurd same (UInt16.ne_of_lt (moves.rising o o' named named' less))
  · exact absurd same.symm (UInt16.ne_of_lt (moves.rising o' o named' named more))

theorem mapTargets_instruction {i : Instruction UInt16}
    (named : ∀ o ∈ i.targets, t.NamesInside o) :
    (i.map t.labelFor).mapTargets e.offset = .ok (i.map f) := by
  have each : ∀ l ∈ (i.map t.labelFor).targets, e.offset l = .ok (e.placeOf l) := by
    intro l target
    rw [Instruction.targets_map] at target
    obtain ⟨o, member, rfl⟩ := List.mem_map.mp target
    rw [moves.placeOf_label (names_of_inside (named o member)), moves.inside (named o member)]
  rw [Instruction.mapTargets_ok each, Instruction.map_map]
  exact congrArg Except.ok (Instruction.map_congr fun o member =>
    moves.placeOf_label (names_of_inside (named o member)))

theorem encode_region {h : Handler} {r : Region} (source : t.RegionOf h r) :
    r.encode e = .ok (h.move f) := by
  have filled := moves.rising h.start h.finish (names_of_inside source.start) source.finish
    source.filled
  rw [source.same]
  refine bind_ok_iff.mpr ⟨_, moves.inside source.start, bind_ok_iff.mpr
    ⟨_, moves.offset _ source.finish, ?_⟩⟩
  dsimp only
  rw [if_neg (UInt16.not_le.mpr filled)]
  refine bind_ok_iff.mpr ⟨_, moves.inside source.handler, ?_⟩
  by_cases all : h.catchType = 0
  · rw [if_pos all, Handler.move, all]
    rfl
  · rw [if_neg all]
    rfl

theorem encode_regions {handlers : List Handler} {regions : List Region}
    (related : List.Forall₂ t.RegionOf handlers regions) :
    regions.mapM (·.encode e) = .ok (handlers.map (Handler.move f)) := by
  rw [mapM_ok_iff, List.forall₂_map_right_iff]
  exact (related.imp fun _ _ source => moves.encode_region source).flip

theorem range_le {v : VariableEntry} {v' : Variable} (source : t.VariableOf v v') :
    f v.start ≤ f (v.start + v.length) := by
  rcases source.order with same | before
  · rw [← same]
    exact UInt16.le_refl _
  · exact UInt16.le_of_lt (moves.rising _ _ source.start source.finish before)

theorem encode_variable {v : VariableEntry} {v' : Variable} (source : t.VariableOf v v') :
    v'.encode e = .ok (v.move f) := by
  have order := UInt16.not_lt.mpr (moves.range_le source)
  rw [source.same]
  refine bind_ok_iff.mpr ⟨_, moves.offset _ source.start, bind_ok_iff.mpr
    ⟨_, moves.offset _ source.finish, ?_⟩⟩
  dsimp only
  rw [if_neg order]
  rfl

theorem encode_variables {entries : List VariableEntry} {vs : List Variable}
    (related : List.Forall₂ t.VariableOf entries vs) :
    vs.mapM (·.encode e) = .ok (entries.map (VariableEntry.move f)) := by
  rw [mapM_ok_iff, List.forall₂_map_right_iff]
  exact (related.imp fun _ _ source => moves.encode_variable source).flip

theorem mapPositions_frame {frame : Frame UInt16}
    (named : ∀ o ∈ frame.positions, t.NamesInside o) :
    (frame.map t.labelFor).mapPositions e.offset = .ok (frame.map f) := by
  have each : ∀ l ∈ (frame.map t.labelFor).positions, e.offset l = .ok (e.placeOf l) := by
    intro l member
    rw [Frame.positions_map] at member
    obtain ⟨o, inside, rfl⟩ := List.mem_map.mp member
    rw [moves.placeOf_label (names_of_inside (named o inside)), moves.inside (named o inside)]
  rw [Frame.mapPositions_ok each, Frame.map_map]
  exact congrArg Except.ok (Frame.map_congr fun o inside =>
    moves.placeOf_label (names_of_inside (named o inside)))

section Tables
variable {pool : Pool} {c : CodeAttribute} {b : Body} (tables : Body.Tables pool t c b)
include tables

theorem encode_lines :
    b.lines.mapM (·.encode e) = .ok ((c.lineEntries pool).map fun l => ⟨f l.start, l.line⟩) := by
  rw [tables.lines, mapM_ok_iff, List.forall₂_map_left_iff, List.forall₂_map_right_iff]
  refine List.forall₂_same.mpr fun l member => ?_
  exact bind_ok_iff.mpr ⟨_, moves.inside (tables.lineStarts l member), rfl⟩

theorem frames_ordered : (((c.frameEntries pool).getD []).map (Frame.map f)).Pairwise
    fun g g' => g.position < g'.position := by
  rw [List.pairwise_map]
  refine CodeAttribute.rising_frameEntries.imp_of_mem fun {g g'} member member' order => ?_
  have named := Body.frames_named tables g member g.position (by simp [Frame.positions])
  have named' := Body.frames_named tables g' member' g'.position (by simp [Frame.positions])
  exact moves.rising _ _ (names_of_inside named) (names_of_inside named') order

theorem encodesFrames : Body.EncodesFrames e b.frames
    ((c.frameEntries pool).map (List.map (Frame.map f))) := by
  have ordered := moves.frames_ordered tables
  have named := Body.frames_named tables
  rw [tables.frames]
  cases found : c.frameEntries pool with
  | none => exact .none
  | some fs =>
    rw [found] at ordered named
    have each : (fs.map (Frame.map t.labelFor)).mapM (·.mapPositions e.offset) =
        .ok (fs.map (Frame.map f)) := by
      rw [mapM_ok_iff, List.forall₂_map_left_iff, List.forall₂_map_right_iff]
      exact List.forall₂_same.mpr fun g member => moves.mapPositions_frame (named g member)
    have sorted : (fs.map (Frame.map f)).mergeSort (fun g g' => g.position ≤ g'.position) =
        fs.map (Frame.map f) :=
      List.mergeSort_of_pairwise (ordered.imp fun order => decide_eq_true (UInt16.le_of_lt order))
    have whole := Body.EncodesFrames.some each
    rwa [sorted] at whole

end Tables
end Moves
end Labelling
end ClassHooks
