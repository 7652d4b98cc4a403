import ClassHooks.Proofs.Body.Execution
import ClassHooks.Proofs.Body.Labelled

/-!
Where the labels of a decoded body stand: before the instruction whose offset they were given for.
-/
namespace ClassHooks
namespace Body
open Item Instruction

section Marked
variable {labels : Std.TreeMap UInt16 Label} {start finish : Nat}
  {decoded : List (UInt16 × Instruction UInt16)} {f : UInt16 → Label}

theorem markedItems_nil (last : UInt16) :
    markedItems labels last [] = (labels[last]?.map Item.mark).toList := rfl

theorem markedItems_cons (last : UInt16) (d : UInt16 × Instruction Label)
    (rest : List (UInt16 × Instruction Label)) :
    markedItems labels last (d :: rest) =
      (labels[d.1]?.map Item.mark).toList ++ .op d.2 :: markedItems labels last rest := by
  simp only [markedItems, List.flatMap_cons, List.append_assoc]
  cases labels[d.1]? with
  | none => rfl
  | some l => rfl

theorem marks_optional {o : UInt16} {l : Label} {n : Nat} {rest : List Item} :
    Marks ((labels[o]?.map Item.mark).toList ++ rest) l n ↔
      (labels[o]? = some l ∧ n = 0) ∨ Marks rest l n := by
  cases labels[o]? with
  | none => simp
  | some l' => simp

theorem code_markedItems (last : UInt16) (ds : List (UInt16 × Instruction Label)) :
    code (markedItems labels last ds) = ds.map (·.2) := by
  induction ds with
  | nil =>
    rw [markedItems_nil]
    cases labels[last]? <;> rfl
  | cons d rest ih =>
    rw [markedItems_cons, code_append, code_op, ih]
    cases labels[d.1]? <;> rfl

theorem marks_markedItems (listing : Listing finish start decoded) (small : finish ≤ 65535)
    {l : Label} {n : Nat} :
    Marks (markedItems labels (UInt16.ofNat finish) (decoded.map fun d => (d.1, d.2.map f))) l n ↔
      ∃ o : UInt16, labels[o]? = some l ∧ n ≤ decoded.length ∧
        o.toNat = placeIn decoded finish n := by
  induction listing generalizing n with
  | @nil start bound =>
    have last : (UInt16.ofNat finish).toNat = finish :=
      UInt16.toNat_ofNat_of_lt' (by change finish < 65536; omega)
    rw [List.map_nil, markedItems_nil, ← List.append_nil (Option.toList _), marks_optional]
    simp only [marks_nil_iff, or_false, List.length_nil, Nat.le_zero]
    constructor
    · rintro ⟨found, rfl⟩
      exact ⟨_, found, rfl, last⟩
    · rintro ⟨o, found, rfl, same⟩
      have : o = UInt16.ofNat finish := UInt16.toNat_inj.mp (same.trans last.symm)
      exact ⟨this ▸ found, rfl⟩
  | @cons start next i rest decent grows later ih =>
    have bound := start_le_of_listing later
    have first : (UInt16.ofNat start).toNat = start :=
      UInt16.toNat_ofNat_of_lt' (by change start < 65536; omega)
    rw [List.map_cons, markedItems_cons, marks_optional]
    simp only [marks_op_iff, ih]
    constructor
    · rintro (⟨found, rfl⟩ | ⟨m, ⟨o, found, inside, place⟩, rfl⟩)
      · exact ⟨_, found, Nat.zero_le _, rfl⟩
      · exact ⟨o, found, Nat.succ_le_succ inside, place⟩
    · rintro ⟨o, found, inside, place⟩
      cases n with
      | zero =>
        have : o = UInt16.ofNat start := UInt16.toNat_inj.mp place
        exact .inl ⟨this ▸ found, rfl⟩
      | succ n => exact .inr ⟨n, ⟨o, found, Nat.le_of_succ_le_succ inside, place⟩, rfl⟩

theorem labels_markedItems_once (listing : Listing finish start decoded) (small : finish ≤ 65535)
    (single : ∀ (o o' : UInt16) (l : Label), labels[o]? = some l → labels[o']? = some l → o = o') :
    (Item.labels (markedItems labels (UInt16.ofNat finish)
      (decoded.map fun d => (d.1, d.2.map f)))).Nodup := by
  induction listing with
  | nil bound =>
    rw [List.map_nil, markedItems_nil]
    cases labels[UInt16.ofNat finish]? <;> simp
  | @cons start next i rest decent grows later ih =>
    have bound := start_le_of_listing later
    have first : (UInt16.ofNat start).toNat = start :=
      UInt16.toNat_ofNat_of_lt' (by change start < 65536; omega)
    rw [List.map_cons, markedItems_cons, labels_append, labels_op]
    cases found : labels[UInt16.ofNat start]? with
    | none => exact ih
    | some l =>
      refine List.nodup_cons.mpr ⟨fun again => ?_, ih⟩
      obtain ⟨n, marks⟩ := marked_iff_mem.mpr again
      obtain ⟨o, found', _, place⟩ := (marks_markedItems later small).mp marks
      obtain rfl := single _ _ _ found found'
      have behind := start_le_placeIn later small n
      omega

end Marked

/-- Every label stands once and below the next new one, and the regions guard instructions that are
there. -/
structure Numbered (b : Body) : Prop where
  filled : 0 < b.instructions.length
  once : (Item.labels b.items).Nodup
  old : ∀ l ∈ Item.labels b.items, l.number.toNat < b.nextLabel.toNat
  regions : ∀ r ∈ b.handlers, ∃ s f h, Item.Marks b.items r.start s ∧
    Item.Marks b.items r.finish f ∧ s < f ∧ Item.Marks b.items r.handler h ∧
    h < b.instructions.length

/-- Every label stands once, and what names an instruction names one that is there. -/
structure Sound (b : Body) : Prop where
  filled : 0 < b.instructions.length
  once : (Item.labels b.items).Nodup
  old : ∀ l ∈ Item.labels b.items, l.number.toNat < b.nextLabel.toNat
  fits : ∀ i ∈ b.instructions, i.Fits
  targets : ∀ i ∈ b.instructions, ∀ l ∈ i.targets,
    ∃ m < b.instructions.length, Item.Marks b.items l m
  regions : ∀ r ∈ b.handlers, ∃ s f h, Item.Marks b.items r.start s ∧
    Item.Marks b.items r.finish f ∧ s < f ∧ Item.Marks b.items r.handler h ∧
    h < b.instructions.length

theorem Sound.numbered {b : Body} (sound : b.Sound) : b.Numbered :=
  ⟨sound.filled, sound.once, sound.old, sound.regions⟩

section Labelled
variable {pool : Pool} {t : Labelling} {c : CodeAttribute}
  {decoded : List (UInt16 × Instruction UInt16)} {b : Body}
  (labelled : Labelled pool t c decoded b) (listing : Listing c.code.length 0 decoded)
  (small : c.code.length ≤ 65535)
include labelled

theorem bounds_of_names {o : UInt16} (named : t.Names o) : Bounds decoded c.code.length o := by
  rw [Bounds, ← labelled.codeLength]
  exact named.1.imp_left (labelled.boundaries o).mp

theorem instructions_labelled : b.instructions = decoded.map fun d => d.2.map t.labelFor := by
  change code b.items = _
  rw [labelled.items, code_markedItems, List.map_map]
  rfl

include listing small

theorem marks_labelled {l : Label} {n : Nat} : Marks b.items l n ↔
    ∃ o : UInt16, t.labels[o]? = some l ∧ n ≤ decoded.length ∧
      o.toNat = placeIn decoded c.code.length n := by
  rw [labelled.items, labelled.codeLength]
  exact marks_markedItems listing small

theorem marks_inside {o : UInt16} (named : t.NamesInside o) :
    ∃ n < decoded.length, o.toNat = placeIn decoded c.code.length n ∧
      Marks b.items (t.labelFor o) n := by
  obtain ⟨d, member, rfl⟩ := List.mem_map.mp ((labelled.boundaries o).mp named.1)
  obtain ⟨n, inside, here⟩ := List.mem_iff_getElem.mp member
  have place : d.1.toNat = placeIn decoded c.code.length n :=
    (placeIn_eq_of_getElem (List.getElem?_eq_some_iff.mpr ⟨inside, here⟩) _).symm
  exact ⟨n, inside, place, (marks_labelled labelled listing small).mpr
    ⟨d.1, named.2, Nat.le_of_lt inside, place⟩⟩

theorem marks_named {o : UInt16} (named : t.Names o) :
    ∃ n ≤ decoded.length, o.toNat = placeIn decoded c.code.length n ∧
      Marks b.items (t.labelFor o) n := by
  rcases named.1 with inside | last
  · obtain ⟨n, before, place, marks⟩ := marks_inside labelled listing small ⟨inside, named.2⟩
    exact ⟨n, Nat.le_of_lt before, place, marks⟩
  · have place : o.toNat = placeIn decoded c.code.length decoded.length := by
      rw [last, labelled.codeLength, end_toNat small]
    exact ⟨decoded.length, Nat.le_refl _, place, (marks_labelled labelled listing small).mpr
      ⟨o, named.2, Nat.le_refl _, place⟩⟩

theorem marks_lt {o o' : UInt16} (named : t.Names o) (named' : t.Names o') (order : o < o') :
    ∃ n m, Marks b.items (t.labelFor o) n ∧ Marks b.items (t.labelFor o') m ∧ n < m := by
  obtain ⟨n, bound, place, marks⟩ := marks_named labelled listing small named
  obtain ⟨m, bound', place', marks'⟩ := marks_named labelled listing small named'
  refine ⟨n, m, marks, marks', ?_⟩
  rw [UInt16.lt_iff_toNat_lt] at order
  by_contra more
  rcases Nat.lt_or_eq_of_le (Nat.le_of_not_lt more) with less | rfl
  · have := placeIn_lt listing small less (by omega)
    omega
  · omega

theorem sound_of_labelled (filled : decoded ≠ []) : b.Sound := by
  have instructions := instructions_labelled labelled
  have count : b.instructions.length = decoded.length := by rw [instructions, List.length_map]
  have origin : ∀ i ∈ b.instructions, ∃ d ∈ decoded, i = d.2.map t.labelFor := by
    intro i member
    rw [instructions] at member
    obtain ⟨d, inside, rfl⟩ := List.mem_map.mp member
    exact ⟨d, inside, rfl⟩
  constructor
  case filled =>
    rw [count]
    exact List.length_pos_iff.mpr filled
  case once =>
    rw [labelled.items, labelled.codeLength]
    exact labels_markedItems_once listing small labelled.sound.single
  case old =>
    intro l member
    obtain ⟨n, marks⟩ := marked_iff_mem.mpr member
    obtain ⟨o, found, _, _⟩ := (marks_labelled labelled listing small).mp marks
    rw [labelled.nextLabel, Labelling.toNat_size_labels]
    exact labelled.sound.below o l found
  case fits =>
    intro i member
    obtain ⟨d, inside, rfl⟩ := origin i member
    obtain ⟨shape, assigned, fits⟩ := (decent_of_listing listing inside).fits
    exact ⟨shape, assigned, (Operand.fits_map _ _ _).trans fits⟩
  case targets =>
    intro i member l target
    obtain ⟨d, inside, rfl⟩ := origin i member
    rw [targets_map] at target
    obtain ⟨o, here, rfl⟩ := List.mem_map.mp target
    obtain ⟨n, before, _, marks⟩ := marks_inside labelled listing small
      (labelled.targets d inside o here)
    exact ⟨n, count ▸ before, marks⟩
  case regions =>
    intro r member
    obtain ⟨h, _, region⟩ := related_of_mem_right labelled.regions member
    obtain ⟨s, f, start, finish, order⟩ := marks_lt labelled listing small
      (Labelling.names_of_inside region.start) region.finish region.filled
    obtain ⟨n, inside, _, handler⟩ := marks_inside labelled listing small region.handler
    rw [region.same]
    exact ⟨s, f, n, start, finish, order, handler, count ▸ inside⟩

end Labelled

theorem few_of_ofCode {c : CodeAttribute} {pool : Pool} {b : Body}
    (made : ofCode c pool = .ok b) :
    b.nextLabel.toNat ≤ 65536 ∧ b.instructions.length ≤ 65535 := by
  obtain ⟨decoded, t, _, decodes, labelled⟩ := labelled_of_ofCode made
  obtain ⟨small, listing, _⟩ := listing_of_decode decodes
  constructor
  · rw [labelled.nextLabel, Labelling.toNat_size_labels]
    exact Labelling.size_labels_le t.labels
  · have count := length_le_of_listing listing
    rw [instructions_labelled labelled, List.length_map]
    omega

theorem sound_of_ofCode {c : CodeAttribute} {pool : Pool} {b : Body}
    (made : ofCode c pool = .ok b) : b.Sound := by
  obtain ⟨decoded, t, filled, decodes, labelled⟩ := labelled_of_ofCode made
  obtain ⟨small, listing, more⟩ := listing_of_decode decodes
  exact sound_of_labelled labelled listing small (more filled)

end Body
end ClassHooks
