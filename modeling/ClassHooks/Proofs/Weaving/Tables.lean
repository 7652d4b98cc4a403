import ClassHooks.Proofs.Weaving.Offsets

/-!
The tables of a woven body follow its instructions: whatever named an instruction of the method
names the offset to which that was moved.
-/
namespace ClassHooks

namespace Weaving
open Item Instruction Attribute

/-- Entries of the exception table that stand for one of the method: they guard the instructions
that it guarded, and of the hooks nothing. -/
structure Guards (w : Interleaving) (decoded new : List (UInt16 × Instruction UInt16))
    (f : UInt16 → UInt16) (h : Handler) (pieces : List Handler) : Prop where
  kept : ∀ q ∈ pieces, q.start < q.finish ∧ q.handler = f h.handler ∧ q.catchType = h.catchType
  covers : ∀ n x, new[n]? = some x →
    ((∃ q ∈ pieces, q.start ≤ x.1 ∧ x.1 < q.finish) ↔
      ∃ k d, decoded[k]? = some d ∧ (h.start ≤ d.1 ∧ d.1 < h.finish) ∧ n = w.place k)

theorem covers_iff {items : List Item} (once : (labels items).Nodup) {start finish : Nat}
    {decoded : List (UInt16 × Instruction UInt16)} (listing : Listing finish start decoded)
    (small : finish ≤ 65535) {r : Region} {s t : Nat} (first : Marks items r.start s)
    (last : Marks items r.finish t) {a b : UInt16} (low : a.toNat = placeIn decoded finish s)
    (high : b.toNat = placeIn decoded finish t) {n : Nat} {d : UInt16 × Instruction UInt16}
    (here : decoded[n]? = some d) : r.Covers items n ↔ a ≤ d.1 ∧ d.1 < b := by
  have inside : n < decoded.length := (List.getElem?_eq_some_iff.mp here).1
  rw [UInt16.le_iff_toNat_le, UInt16.lt_iff_toNat_lt, low, high, ← placeIn_eq_of_getElem here finish,
    placeIn_le_iff listing small inside, ← Nat.not_le, placeIn_le_iff listing small inside,
    Nat.not_le]
  constructor
  · rintro ⟨s', t', first', last', after, before⟩
    rw [marks_unique once first first', marks_unique once last last']
    exact ⟨after, before⟩
  · rintro ⟨after, before⟩
    exact ⟨s, t, first, last, after, before⟩

namespace Recoded
variable {pool : Pool} {t : Labelling} {c : CodeAttribute}
  {decoded new : List (UInt16 × Instruction UInt16)} {b woven : Body} {w : Interleaving}
  {e : Encoded} (r : Recoded pool t c decoded b w woven e new)
include r

theorem covers_encoded {q : Region} {h : Handler} (run : q.encode e = .ok h) {n : Nat}
    {x : UInt16 × Instruction UInt16} (here : new[n]? = some x) :
    q.Covers woven.items n ↔ h.start ≤ x.1 ∧ x.1 < h.finish := by
  obtain ⟨_, first, last, _, _⟩ := Region.encode_ok run
  obtain ⟨_, marks, low⟩ := r.renders.marks_of_offset first
  obtain ⟨_, marks', high⟩ := r.renders.marks_of_offset last
  exact covers_iff r.shape.once r.listing' r.small' marks marks' low high here

theorem covers_source {h : Handler} {region : Region} (source : t.RegionOf h region) {k : Nat}
    {d : UInt16 × Instruction UInt16} (there : decoded[k]? = some d) :
    region.Covers b.items k ↔ h.start ≤ d.1 ∧ d.1 < h.finish := by
  have sound : b.Sound := Body.sound_of_labelled r.labelled r.listing r.small r.filled
  obtain ⟨_, _, low, first⟩ := Body.marks_inside r.labelled r.listing r.small source.start
  obtain ⟨_, _, high, last⟩ := Body.marks_named r.labelled r.listing r.small source.finish
  rw [source.same]
  exact covers_iff sound.once r.listing r.small first last low high there

/-- The pieces of a region, encoded. -/
theorem guards_of_pieces {h : Handler} {region : Region} {pieces : List Region}
    {encoded : List Handler} (source : t.RegionOf h region)
    (replaces : Replaces b w woven.items region pieces)
    (each : List.Forall₂ (fun q h' => Region.encode e q = .ok h') pieces encoded) :
    Guards w decoded new (moved w decoded new e.code.length) h encoded := by
  constructor
  case kept =>
    intro h' member
    obtain ⟨q, inside, run⟩ := related_of_mem_right each member
    obtain ⟨filled, _, _, handler, type⟩ := Region.encode_ok run
    obtain ⟨same, same'⟩ := replaces.kept q inside
    refine ⟨filled, ?_, ?_⟩
    · rw [same, source.same, r.offset_inside source.handler] at handler
      exact (Except.ok.inj handler).symm
    · rw [type, same', source.same]
      dsimp only
      split
      · rename_i all
        exact all.symm
      · rfl
  case covers =>
    intro n x here
    have pieces_iff : (∃ h' ∈ encoded, h'.start ≤ x.1 ∧ x.1 < h'.finish) ↔
        ∃ q ∈ pieces, q.Covers woven.items n := by
      constructor
      · rintro ⟨h', member, inside⟩
        obtain ⟨q, member', run⟩ := related_of_mem_right each member
        exact ⟨q, member', (r.covers_encoded run here).mpr inside⟩
      · rintro ⟨q, member, inside⟩
        obtain ⟨h', member', run⟩ := related_of_mem each member
        exact ⟨h', member', (r.covers_encoded run here).mp inside⟩
    rw [pieces_iff, replaces.covers n]
    constructor
    · rintro ⟨k, inside, covered, place⟩
      rw [r.original_length] at inside
      have there := List.getElem?_eq_getElem inside
      exact ⟨k, _, there, (r.covers_source source there).mp covered, place⟩
    · rintro ⟨k, d, there, inside, place⟩
      refine ⟨k, ?_, (r.covers_source source there).mpr inside, place⟩
      rw [r.original_length]
      exact (List.getElem?_eq_some_iff.mp there).1

theorem finish_moved : UInt16.ofNat (placeIn new e.code.length w.finish) =
    moved w decoded new e.code.length (UInt16.ofNat c.code.length) := by
  rw [moved, numberAt_placeIn r.listing r.small (Nat.le_refl _) (end_toNat r.small),
    ← r.original_length]
  rfl

theorem start_moved : UInt16.ofNat (placeIn new e.code.length w.enter.length) =
    moved w decoded new e.code.length 0 := by
  have first : (0 : UInt16).toNat = placeIn decoded c.code.length 0 :=
    (placeIn_zero r.listing r.small r.filled).symm
  rw [moved, numberAt_placeIn r.listing r.small (Nat.zero_le _) first, w.begin_zero]

theorem encode_handlers {encoded : List Handler}
    (run : woven.handlers.mapM (·.encode e) = .ok encoded) :
    ∃ parts, encoded = parts.flatten ++ [⟨moved w decoded new e.code.length 0,
        moved w decoded new e.code.length (UInt16.ofNat c.code.length),
        moved w decoded new e.code.length (UInt16.ofNat c.code.length), 0⟩] ∧
      List.Forall₂ (Guards w decoded new (moved w decoded new e.code.length)) c.handlers parts := by
  obtain ⟨pieces, last, listed, all, related⟩ := r.shape.handlers
  have each := mapM_ok_iff.mp run
  rw [listed] at each
  obtain ⟨front, back, rfl, first, final⟩ := related_append_inv each
  obtain ⟨parts, rfl, encodes⟩ := related_flatten_inv first
  refine ⟨parts, ?_, ?_⟩
  · cases final with
    | cons written none =>
      cases none
      rename_i h
      obtain ⟨_, start, finish, handler, type⟩ := Region.encode_ok written
      rw [r.renders.offset_of_marks all.start, r.start_moved] at start
      rw [r.renders.offset_of_marks all.finish, r.finish_moved] at finish
      rw [r.renders.offset_of_marks all.handler, r.finish_moved] at handler
      rw [all.catchAll] at type
      obtain ⟨s, f, l, k⟩ := h
      cases start
      cases finish
      cases handler
      cases type
      rfl
  · have both : List.Forall₂ (fun h qs => ∃ region, t.RegionOf h region ∧
        Replaces b w woven.items region qs) c.handlers pieces :=
      related_trans r.labelled.regions related fun _ region _ source replaces =>
        ⟨region, source, replaces⟩
    exact related_trans both encodes fun _ _ _ ⟨_, source, replaces⟩ written =>
      r.guards_of_pieces source replaces written

theorem frame_places : ∀ f ∈ (c.frameEntries pool).getD [],
    f.position ∈ decoded.map (·.1) ∧ f.position < UInt16.ofNat c.code.length := by
  intro f member
  have named := Body.frames_named r.labelled.tables f member f.position (by simp [Frame.positions])
  have known := (r.labelled.boundaries _).mp named.1
  obtain ⟨d, inside, same⟩ := List.mem_map.mp known
  obtain ⟨n, here⟩ := List.mem_iff_getElem?.mp inside
  have bound := (List.getElem?_eq_some_iff.mp here).1
  have order := placeIn_lt r.listing r.small bound bound
  rw [placeIn_eq_of_getElem here] at order
  refine ⟨known, ?_⟩
  rw [← same, UInt16.lt_iff_toNat_lt, (end_toNat r.small)]
  exact order

/-- The frames are in order when they are moved, and the handler is behind them. -/
theorem frames_ordered (kind : FrameKind UInt16) :
    List.Pairwise (fun f g : Frame UInt16 => decide (f.position ≤ g.position) = true)
      (((c.frameEntries pool).getD []).map (Frame.map (moved w decoded new e.code.length)) ++
        [⟨moved w decoded new e.code.length (UInt16.ofNat c.code.length), kind⟩]) := by
  refine List.pairwise_append.mpr ⟨?_, by simp, ?_⟩
  · rw [List.pairwise_map]
    refine CodeAttribute.rising_frameEntries.imp_of_mem fun {f g} member member' order => ?_
    have known := (r.frame_places f member).1
    have known' := (r.frame_places g member').1
    exact decide_eq_true (UInt16.le_of_lt (r.moved_rising (.inl known) (.inl known') order))
  · intro f' member g single
    obtain ⟨f, inside, rfl⟩ := List.mem_map.mp member
    rw [List.mem_singleton.mp single]
    obtain ⟨known, before⟩ := r.frame_places f inside
    exact decide_eq_true (UInt16.le_of_lt (r.moved_rising (.inl known) (.inr rfl) before))

theorem encode_frames {handler : Label} {throwable : UInt16}
    (marks : Marks woven.items handler w.finish) {mapped : List (Frame UInt16)}
    (run : (b.frames.getD [] ++ [handlerFrame handler throwable]).mapM
      (·.mapPositions e.offset) = .ok mapped) :
    mapped.mergeSort (fun f g => decide (f.position ≤ g.position)) =
      ((c.frameEntries pool).getD []).map (Frame.map (moved w decoded new e.code.length)) ++
        [⟨moved w decoded new e.code.length (UInt16.ofNat c.code.length),
          .full [] [.object throwable]⟩] := by
  have named := Body.frames_named r.labelled.tables
  have frames : b.frames.getD [] =
      ((c.frameEntries pool).getD []).map (Frame.map t.labelFor) := by
    rw [r.labelled.tables.frames]
    cases c.frameEntries pool <;> rfl
  have each := mapM_ok_iff.mp run
  rw [frames] at each
  obtain ⟨front, back, rfl, first, final⟩ := related_append_inv each
  have moves : front = ((c.frameEntries pool).getD []).map
      (Frame.map (moved w decoded new e.code.length)) := by
    rw [List.forall₂_map_left_iff] at first
    refine eq_map_of_related (((List.forall₂_and_left _ _).mpr ⟨named, first⟩).imp ?_)
    rintro f f' ⟨inside, written⟩
    rw [r.moves.mapPositions_frame inside] at written
    exact (Except.ok.inj written).symm
  have last : back = [⟨moved w decoded new e.code.length (UInt16.ofNat c.code.length),
      .full [] [.object throwable]⟩] := by
    cases final with
    | cons written none =>
      cases none
      obtain ⟨kind, same, written⟩ := bind_ok_iff.mp written
      cases same
      obtain ⟨place, lies, written⟩ := bind_ok_iff.mp written
      change e.offset handler = .ok place at lies
      rw [r.renders.offset_of_marks marks, r.finish_moved] at lies
      cases lies
      cases written
      rfl
  rw [moves, last]
  -- They are in order already, so sorting leaves them as they are.
  exact List.mergeSort_of_pairwise (r.frames_ordered _)

end Recoded
end Weaving
end ClassHooks
