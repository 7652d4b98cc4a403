import ClassHooks.Proofs.Instruction.Marks
import ClassHooks.Body.Exclusion

/-!
Taking spans out of regions is set difference: an instruction stands in a piece of a region exactly
if it stands in the region and in no span. `place` tells how many instructions stand before a
label.
-/
namespace ClassHooks
namespace CodeSpan

def Holds (place : Label → Nat) (s : CodeSpan) (n : Nat) : Prop :=
  place s.begin ≤ n ∧ n < place s.resume

structure Ordered (place : Label → Nat) (spans : List CodeSpan) : Prop where
  filled : ∀ s ∈ spans, place s.begin < place s.resume
  apart : spans.Pairwise fun a b => place a.resume ≤ place b.begin

def Clear (place : Label → Nat) (spans : List CodeSpan) (n : Nat) : Prop :=
  ∀ s ∈ spans, n ≤ place s.begin ∨ place s.resume ≤ n

theorem ordered_of_cons {place : Label → Nat} {s : CodeSpan} {spans : List CodeSpan}
    (ordered : Ordered place (s :: spans)) : Ordered place spans :=
  ⟨fun s' member => ordered.filled s' (List.mem_cons_of_mem _ member),
    (List.pairwise_cons.mp ordered.apart).2⟩

theorem clear_resume {place : Label → Nat} {s : CodeSpan} {spans : List CodeSpan}
    (ordered : Ordered place (s :: spans)) : Clear place spans (place s.resume) := by
  intro s' member
  exact .inl ((List.pairwise_cons.mp ordered.apart).1 s' member)

end CodeSpan

namespace Region
open CodeSpan

def cut (place : Label → Nat) (r : Region) (cursor : Label) : List CodeSpan → List Region
  | [] => if place cursor < place r.finish then [{ r with start := cursor }] else []
  | s :: rest =>
    if place s.begin < place cursor ∨ place r.finish < place s.resume then cut place r cursor rest
    else if place cursor < place s.begin then
      { r with start := cursor, finish := s.begin } :: cut place r s.resume rest
    else cut place r s.resume rest

/-- What the pieces of a region from `cursor` on have in common. -/
structure Pieces (place : Label → Nat) (r : Region) (cursor : Label) (spans : List CodeSpan)
    (pieces : List Region) : Prop where
  kept : ∀ q ∈ pieces, q.handler = r.handler ∧ q.catchType = r.catchType
  bounds : ∀ q ∈ pieces, (q.start = cursor ∨ ∃ s ∈ spans, q.start = s.resume) ∧
    (q.finish = r.finish ∨ ∃ s ∈ spans, q.finish = s.begin)
  filled : ∀ q ∈ pieces, place q.start < place q.finish
  above : ∀ q ∈ pieces, place cursor ≤ place q.start
  apart : pieces.Pairwise fun a b => place a.finish ≤ place b.start
  covers : ∀ n, (∃ q ∈ pieces, place q.start ≤ n ∧ n < place q.finish) ↔
    (place cursor ≤ n ∧ n < place r.finish) ∧ ∀ s ∈ spans, ¬ s.Holds place n

variable {place : Label → Nat} {r : Region}

theorem pieces_nil (cursor : Label) :
    Pieces place r cursor [] (cut place r cursor []) := by
  unfold cut
  split
  · constructor <;> simp_all
  · rename_i empty
    constructor
    case covers =>
      intro n
      simp only [List.not_mem_nil, false_and, exists_false, false_iff]
      rintro ⟨bounds, _⟩
      omega
    all_goals simp

theorem pieces_past {cursor : Label} {s : CodeSpan} {spans : List CodeSpan}
    {pieces : List Region} (later : Pieces place r cursor spans pieces)
    (off : place s.resume ≤ place cursor ∨ place r.finish ≤ place s.begin) :
    Pieces place r cursor (s :: spans) pieces := by
  refine { later with bounds := ?_, covers := ?_ }
  · intro q member
    obtain ⟨start, finish⟩ := later.bounds q member
    exact ⟨start.imp_right fun ⟨s', inside, same⟩ => ⟨s', List.mem_cons_of_mem _ inside, same⟩,
      finish.imp_right fun ⟨s', inside, same⟩ => ⟨s', List.mem_cons_of_mem _ inside, same⟩⟩
  · intro n
    rw [later.covers n, List.forall_mem_cons]
    constructor
    · rintro ⟨bounds, free⟩
      refine ⟨bounds, fun holds => ?_, free⟩
      unfold Holds at holds
      omega
    · rintro ⟨bounds, _, free⟩
      exact ⟨bounds, free⟩

section Cutting
variable {cursor : Label} {s : CodeSpan} {spans : List CodeSpan} {pieces : List Region}
  (later : Pieces place r s.resume spans pieces) (ordered : Ordered place (s :: spans))
include later

theorem bounds_before : ∀ q ∈ pieces,
    (q.start = cursor ∨ ∃ s' ∈ s :: spans, q.start = s'.resume) ∧
      (q.finish = r.finish ∨ ∃ s' ∈ s :: spans, q.finish = s'.begin) := by
  intro q member
  obtain ⟨start, finish⟩ := later.bounds q member
  constructor
  · rcases start with start | ⟨s', member', start⟩
    · exact .inr ⟨s, by simp, start⟩
    · exact .inr ⟨s', by simp [member'], start⟩
  · exact finish.imp_right fun ⟨s', member', same⟩ => ⟨s', by simp [member'], same⟩

include ordered

theorem pieces_joined (together : place cursor = place s.begin) :
    Pieces place r cursor (s :: spans) pieces := by
  have filled := ordered.filled s (by simp)
  refine { later with bounds := bounds_before later, above := ?_, covers := ?_ }
  · intro q member
    have := later.above q member
    omega
  · intro n
    rw [later.covers n, List.forall_mem_cons]
    unfold Holds
    constructor
    · rintro ⟨bounds, free⟩
      exact ⟨by omega, by omega, free⟩
    · rintro ⟨bounds, off, free⟩
      exact ⟨by omega, free⟩

theorem pieces_gap (inside : place s.resume ≤ place r.finish)
    (gap : place cursor < place s.begin) :
    Pieces place r cursor (s :: spans) ({ r with start := cursor, finish := s.begin } :: pieces) := by
  have filled := ordered.filled s (by simp)
  constructor
  case kept => simpa using later.kept
  case bounds => simpa using bounds_before later
  case filled => simpa using ⟨gap, later.filled⟩
  case above =>
    rw [List.forall_mem_cons]
    exact ⟨Nat.le_refl _, fun q member => by have := later.above q member; omega⟩
  case apart =>
    rw [List.pairwise_cons]
    refine ⟨fun q member => ?_, later.apart⟩
    have bound := later.above q member
    change place s.begin ≤ _
    omega
  case covers =>
    intro n
    simp only [List.mem_cons, exists_eq_or_imp, later.covers n, forall_eq_or_imp, Holds]
    constructor
    · rintro (first | ⟨bounds, free⟩)
      · refine ⟨by omega, by omega, fun s' member => ?_⟩
        have := (List.pairwise_cons.mp ordered.apart).1 s' member
        omega
      · exact ⟨by omega, by omega, free⟩
    · rintro ⟨bounds, off, free⟩
      by_cases first : n < place s.begin
      · exact .inl ⟨bounds.1, first⟩
      · exact .inr ⟨by omega, free⟩

theorem pieces_cut (early : place cursor ≤ place s.begin)
    (inside : place s.resume ≤ place r.finish) :
    Pieces place r cursor (s :: spans)
      (if place cursor < place s.begin then { r with start := cursor, finish := s.begin } :: pieces
        else pieces) := by
  split
  · rename_i gap
    exact pieces_gap later ordered inside gap
  · exact pieces_joined later ordered (by omega)

end Cutting

theorem cut_pieces {spans : List CodeSpan} (ordered : Ordered place spans)
    (ends : Clear place spans (place r.finish)) {cursor : Label}
    (begins : Clear place spans (place cursor)) :
    Pieces place r cursor spans (cut place r cursor spans) := by
  induction spans generalizing cursor with
  | nil => exact pieces_nil cursor
  | cons s rest ih =>
    have later : Ordered place rest := ordered_of_cons ordered
    have filled := ordered.filled s (by simp)
    simp only [Clear, List.forall_mem_cons] at ends begins
    have next := @ih later ends.2
    unfold cut
    split
    · exact pieces_past (next begins.2) (by omega)
    · exact pieces_cut (next (clear_resume ordered)) ordered (by omega) (by omega)

theorem piecesFrom_eq {ranks : Std.TreeMap Label Nat} {spans : List CodeSpan}
    {finish : Nat} (ends : place r.finish = finish)
    (placed : ∀ s ∈ spans, rank ranks s.begin = .ok (place s.begin) ∧
      rank ranks s.resume = .ok (place s.resume)) {cursor : Label}
    (here : rank ranks cursor = .ok (place cursor)) (pieces : List Region) :
    piecesFrom ranks r finish cursor pieces spans =
      .ok (pieces.reverse ++ cut place r cursor spans) := by
  subst ends
  induction spans generalizing cursor pieces with
  | nil =>
    simp only [piecesFrom, here, bind, Except.bind, cut]
    split <;> simp [pure, Except.pure]
  | cons s rest ih =>
    rw [List.forall_mem_cons] at placed
    simp only [piecesFrom, placed.1.1, placed.1.2, here, bind, Except.bind, cut]
    split
    · exact ih placed.2 here pieces
    · split
      · rw [ih placed.2 placed.1.2]
        simp
      · exact ih placed.2 placed.1.2 pieces

theorem outside_eq_cut {ranks : Std.TreeMap Label Nat} {spans : List CodeSpan}
    (placed : ∀ s ∈ spans, rank ranks s.begin = .ok (place s.begin) ∧
      rank ranks s.resume = .ok (place s.resume))
    (start : rank ranks r.start = .ok (place r.start))
    (finish : rank ranks r.finish = .ok (place r.finish)) :
    outside ranks spans r = .ok (cut place r r.start spans) := by
  rw [outside, finish]
  exact piecesFrom_eq rfl placed start []

def Holds (place : Label → Nat) (r : Region) (n : Nat) : Prop :=
  place r.start ≤ n ∧ n < place r.finish

instance (place : Label → Nat) (r : Region) (n : Nat) : Decidable (r.Holds place n) :=
  inferInstanceAs (Decidable (_ ∧ _))

/-- Regions and spans whose labels stand where `place` says: no region ends before it starts, the
spans are filled and in the order of the code, and no region starts or ends inside a span. -/
structure Separable (items : List Item) (place : Label → Nat) (regions : List Region)
    (spans : List CodeSpan) : Prop where
  marked : ∀ r ∈ regions, Item.LastMarks items r.start (place r.start) ∧
    Item.LastMarks items r.finish (place r.finish)
  spanned : ∀ s ∈ spans, Item.LastMarks items s.begin (place s.begin) ∧
    Item.LastMarks items s.resume (place s.resume)
  forward : ∀ r ∈ regions, place r.start ≤ place r.finish
  ordered : Ordered place spans
  clear : ∀ r ∈ regions, Clear place spans (place r.start) ∧ Clear place spans (place r.finish)

/-- What is left of a region without the spans. It is in pieces of the same handler, one behind the
other, and none is empty unless the region is and there are no spans. -/
structure Remainder (items : List Item) (place : Label → Nat) (spans : List CodeSpan) (r : Region)
    (pieces : List Region) : Prop where
  kept : ∀ q ∈ pieces, q.handler = r.handler ∧ q.catchType = r.catchType
  marked : ∀ q ∈ pieces, Item.LastMarks items q.start (place q.start) ∧
    Item.LastMarks items q.finish (place q.finish)
  covers : ∀ n, (∃ q ∈ pieces, q.Holds place n) ↔
    r.Holds place n ∧ ∀ s ∈ spans, ¬ s.Holds place n
  apart : pieces.Pairwise fun a b => place a.finish ≤ place b.start
  filled : spans ≠ [] ∨ place r.start < place r.finish → ∀ q ∈ pieces, place q.start < place q.finish

section Separable
variable {items : List Item} {regions : List Region} {spans : List CodeSpan}
  (separable : Separable items place regions spans)
include separable

theorem remainder_cut (member : r ∈ regions) :
    Remainder items place spans r (cut place r r.start spans) := by
  obtain ⟨begins, ends⟩ := separable.clear r member
  have pieces := cut_pieces separable.ordered ends begins
  refine ⟨pieces.kept, fun q inside => ?_, pieces.covers, pieces.apart, fun _ => pieces.filled⟩
  obtain ⟨start, finish⟩ := pieces.bounds q inside
  constructor
  · rcases start with same | ⟨s, here, same⟩
    · exact same ▸ (separable.marked r member).1
    · exact same ▸ (separable.spanned s here).2
  · rcases finish with same | ⟨s, here, same⟩
    · exact same ▸ (separable.marked r member).2
    · exact same ▸ (separable.spanned s here).1

theorem remainder_whole (none : spans = []) (member : r ∈ regions) :
    Remainder items place spans r [r] := by
  subst none
  constructor <;> simp [separable.marked r member]

theorem exclude_ok : ∃ parts, exclude items regions spans = .ok parts.flatten ∧
    List.Forall₂ (Remainder items place spans) regions parts := by
  by_cases none : spans = []
  · refine ⟨regions.map fun r => [r], ?_, ?_⟩
    · subst none
      rw [← List.flatMap_def, List.flatMap_singleton']
      rfl
    · rw [List.forall₂_map_right_iff]
      exact List.forall₂_same.mpr fun r member => remainder_whole separable none member
  · refine ⟨regions.map fun r => cut place r r.start spans, ?_, ?_⟩
    · unfold exclude
      rw [if_neg (by simpa using none)]
      refine bind_ok_iff.mpr ⟨_, mapM_ok_of_forall fun r member => ?_, rfl⟩
      obtain ⟨start, finish⟩ := separable.marked r member
      exact outside_eq_cut (fun s here => ⟨rank_last_iff.mpr (separable.spanned s here).1,
        rank_last_iff.mpr (separable.spanned s here).2⟩) (rank_last_iff.mpr start)
        (rank_last_iff.mpr finish)
    · rw [List.forall₂_map_right_iff]
      exact List.forall₂_same.mpr fun r member => remainder_cut separable member

end Separable

/-- The first region that an instruction outside the spans stands in has the first piece that it
stands in. -/
theorem first_remainder {items : List Item} {regions : List Region} {spans : List CodeSpan}
    {parts : List (List Region)} (related : List.Forall₂ (Remainder items place spans) regions parts)
    {k n : Nat} (here : regions[k]? = some r) (holds : r.Holds place n)
    (free : ∀ s ∈ spans, ¬ s.Holds place n) (first : ∀ r' ∈ regions.take k, ¬ r'.Holds place n) :
    ∃ early q late, parts[k]? = some (early ++ q :: late) ∧ q.Holds place n ∧
      ∀ q' ∈ (parts.take k).flatten ++ early, ¬ q'.Holds place n := by
  obtain ⟨pieces, there, remainder⟩ := related_getElem? related here
  obtain ⟨q, found⟩ : ∃ q, pieces.find? (fun q => decide (q.Holds place n)) = some q := by
    rw [← Option.isSome_iff_exists, List.find?_isSome]
    simpa using (remainder.covers n).mpr ⟨holds, free⟩
  obtain ⟨inside, early, late, rfl, before⟩ := List.find?_eq_some_iff_append.mp found
  refine ⟨early, q, late, there, by simpa using inside, fun q' member => ?_⟩
  rcases List.mem_append.mp member with done | earlier
  -- A piece covers nothing that its region does not.
  · obtain ⟨pieces', chosen, member'⟩ := List.mem_flatten.mp done
    obtain ⟨r', earlier, remainder'⟩ := related_of_mem_right (List.forall₂_take k related) chosen
    exact fun inside' => first r' earlier ((remainder'.covers n).mp ⟨q', member', inside'⟩).1
  · simpa using before q' earlier

/-- Taking spans out of regions leaves their set difference, in pieces in the place of the region
that they are from. So the first region that an instruction outside the spans stands in is afterwards
a piece of the one that was first before. -/
theorem exclude_difference {items : List Item} {regions : List Region} {spans : List CodeSpan}
    (separable : Separable items place regions spans) :
    ∃ parts, exclude items regions spans = .ok parts.flatten ∧
      List.Forall₂ (Remainder items place spans) regions parts ∧
      ∀ k r n, regions[k]? = some r → r.Holds place n → (∀ s ∈ spans, ¬ s.Holds place n) →
        (∀ r' ∈ regions.take k, ¬ r'.Holds place n) →
          ∃ early q late, parts[k]? = some (early ++ q :: late) ∧ q.Holds place n ∧
            ∀ q' ∈ (parts.take k).flatten ++ early, ¬ q'.Holds place n := by
  obtain ⟨parts, excluded, related⟩ := exclude_ok separable
  exact ⟨parts, excluded, related, fun _ _ _ => first_remainder related⟩

def numberedItems : List Item :=
  [.mark ⟨0⟩, .op ⟨0x00, .nothing⟩, .mark ⟨1⟩, .op ⟨0x00, .nothing⟩, .mark ⟨2⟩,
    .op ⟨0x00, .nothing⟩, .mark ⟨3⟩, .op ⟨Opcode.vreturn, .nothing⟩, .mark ⟨4⟩]

theorem exclude_numberedItems :
    Separable numberedItems (·.number.toNat) [⟨⟨1⟩, ⟨2⟩, ⟨3⟩, some 7⟩, ⟨⟨0⟩, ⟨4⟩, ⟨3⟩, none⟩]
        [⟨⟨1⟩, ⟨2⟩⟩, ⟨⟨2⟩, ⟨3⟩⟩] ∧
      ∃ parts, exclude numberedItems [⟨⟨1⟩, ⟨2⟩, ⟨3⟩, some 7⟩, ⟨⟨0⟩, ⟨4⟩, ⟨3⟩, none⟩]
          [⟨⟨1⟩, ⟨2⟩⟩, ⟨⟨2⟩, ⟨3⟩⟩] = .ok parts.flatten ∧
        List.Forall₂ (Remainder numberedItems (·.number.toNat) [⟨⟨1⟩, ⟨2⟩⟩, ⟨⟨2⟩, ⟨3⟩⟩])
          [⟨⟨1⟩, ⟨2⟩, ⟨3⟩, some 7⟩, ⟨⟨0⟩, ⟨4⟩, ⟨3⟩, none⟩] parts ∧
        ∃ early q late, parts[1]? = some (early ++ q :: late) ∧ q.Holds (·.number.toNat) 3 := by
  have separable : Separable numberedItems (·.number.toNat)
      [⟨⟨1⟩, ⟨2⟩, ⟨3⟩, some 7⟩, ⟨⟨0⟩, ⟨4⟩, ⟨3⟩, none⟩] [⟨⟨1⟩, ⟨2⟩⟩, ⟨⟨2⟩, ⟨3⟩⟩] := by
    refine ⟨?_, ?_, by decide, ⟨by decide, by decide⟩, ?_⟩
    · simp [numberedItems]
    · simp [numberedItems]
    · simp [Clear]
  obtain ⟨parts, excluded, related, first⟩ := exclude_difference separable
  obtain ⟨early, q, late, there, inside, _⟩ := first 1 _ 3 rfl (by decide)
    (by simp [CodeSpan.Holds]) (by decide)
  exact ⟨separable, parts, excluded, related, early, q, late, there, inside⟩

/-- Without spans a region that covers no instruction stays. -/
theorem exclude_keeps_empty :
    Separable [.mark ⟨0⟩, .op ⟨Opcode.vreturn, .nothing⟩] (fun _ => 0) [⟨⟨0⟩, ⟨0⟩, ⟨0⟩, none⟩] [] ∧
      exclude [.mark ⟨0⟩, .op ⟨Opcode.vreturn, .nothing⟩] [⟨⟨0⟩, ⟨0⟩, ⟨0⟩, none⟩] [] =
        .ok [⟨⟨0⟩, ⟨0⟩, ⟨0⟩, none⟩] ∧
      ∀ n, ¬ Holds (fun _ => 0) ⟨⟨0⟩, ⟨0⟩, ⟨0⟩, none⟩ n := by
  refine ⟨⟨by simp, by simp, by simp, ⟨by simp, .nil⟩, ?_⟩, rfl, fun n => ?_⟩
  · simp [Clear]
  · simp [Holds]

end Region
end ClassHooks
