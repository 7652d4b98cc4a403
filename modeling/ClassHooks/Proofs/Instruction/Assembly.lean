import ClassHooks.Proofs.Instruction.Placement

/-!
What an assembly accepts, and the code that it makes of it: the bytes of the instructions one behind
the other, which decode to the instructions again.
-/
namespace ClassHooks
namespace Assembly
open Item

/-- Items that an assembly takes: no label twice, and every operand fits its opcode. -/
structure Acceptable (items : List Item) : Prop where
  once : (labels items).Nodup
  fits : ∀ i ∈ code items, i.Fits

theorem fits_of_emit {a a' : Assembly} {i : Instruction Label} (run : a.emit i = .ok a') :
    i.Fits ∧ a'.items = a.items.push (.op i) ∧ a'.marked = a.marked := by
  unfold emit at run
  split at run
  · cases run
  · rename_i shape assigned
    split at run
    · rename_i fits
      cases run
      exact ⟨⟨shape, assigned, fits⟩, rfl, rfl⟩
    · cases run

theorem fresh_of_mark {a a' : Assembly} {l : Label} (run : a.mark l = .ok a') :
    a.marked.contains l = false ∧ a'.items = a.items.push (.mark l) ∧
      a'.marked = a.marked.insert l := by
  obtain ⟨items, marked⟩ := a
  simp only [mark] at run
  split at run
  · cases run
  · rename_i fresh
    cases run
    exact ⟨by simpa only [Bool.not_eq_true] using fresh, rfl, rfl⟩

theorem fresh_after_mark {a a' : Assembly} {l : Label} {ls : List Label}
    (run : a.add (.mark l) = .ok a') (apart : l ∉ ls)
    (fresh : ∀ l' ∈ ls, a.marked.contains l' = false) :
    ∀ l' ∈ ls, a'.marked.contains l' = false := by
  intro l' member
  rw [(fresh_of_mark run).2.2, Std.TreeSet.contains_insert, fresh l' member, Bool.or_false,
    beq_eq_false_iff_ne, ne_eq, Std.compare_eq_iff_eq]
  rintro rfl
  exact apart member

theorem accepted_from {items : List Item} {a a' : Assembly}
    (run : items.foldlM add a = .ok a') :
    a'.items.toList = a.items.toList ++ items ∧ Acceptable items ∧
      ∀ l ∈ labels items, a.marked.contains l = false := by
  induction items generalizing a with
  | nil =>
    cases run
    exact ⟨by simp, ⟨by simp, by simp⟩, by simp⟩
  | cons item items ih =>
    rw [List.foldlM_cons] at run
    obtain ⟨next, first, rest⟩ := bind_ok_iff.mp run
    obtain ⟨listed, ⟨once, fits⟩, fresh⟩ := ih rest
    cases item with
    | mark l =>
      obtain ⟨new, pushed, marked⟩ := fresh_of_mark first
      simp only [marked, Std.TreeSet.contains_insert, Bool.or_eq_false_iff, beq_eq_false_iff_ne,
        ne_eq, Std.compare_eq_iff_eq] at fresh
      refine ⟨by simp [listed, pushed], ⟨?_, fits⟩, ?_⟩
      · rw [labels_mark, List.nodup_cons]
        exact ⟨fun again => (fresh l again).1 rfl, once⟩
      · simp only [labels_mark, List.mem_cons, forall_eq_or_imp]
        exact ⟨new, fun l' hl => (fresh l' hl).2⟩
    | op i =>
      obtain ⟨here, pushed, marked⟩ := fits_of_emit first
      rw [marked] at fresh
      refine ⟨by simp [listed, pushed], ⟨once, ?_⟩, fresh⟩
      simp only [code_op, List.mem_cons, forall_eq_or_imp]
      exact ⟨here, fits⟩

theorem accepted {items : List Item} {a : Assembly} (run : items.foldlM add empty = .ok a) :
    a.items.toList = items ∧ Acceptable items := by
  obtain ⟨listed, acceptable, _⟩ := accepted_from run
  exact ⟨by simpa [empty] using listed, acceptable⟩

end Assembly

structure Item.Placed (items : List Item) : Prop where
  acceptable : Assembly.Acceptable items
  marked : ∀ i ∈ code items, ∀ l ∈ i.targets, l ∈ labels items

namespace Layout

def placeOf (layout : Layout) (l : Label) : Nat := (layout.labels[l]?).getD 0

def textOf (place : Label → Nat) (p : Nat × Slot) : Bytes :=
  match p.2.item with
  | .mark _ => []
  | .op i => (i.distances place p.1).bytes p.1 p.2.long

def decodedOf (place : Label → Nat) (p : Nat × Slot) : Option (UInt16 × Instruction UInt16) :=
  match p.2.item with
  | .mark _ => none
  | .op i => some (UInt16.ofNat p.1, (i.written p.2.long).offsets place)

theorem textOf_length (place : Label → Nat) (p : Nat × Slot) :
    (textOf place p).length = p.2.size p.1 := by
  obtain ⟨p, item, long⟩ := p
  cases item with
  | mark l => rfl
  | op i =>
    simp only [textOf, Slot.size, Instruction.distances, Instruction.bytes_length,
      Instruction.encodedSize_map]

theorem text_length (place : Label → Nat) (p : Nat) (slots : List Slot) :
    p + ((Slot.starts p slots).flatMap (textOf place)).length = Slot.finish p slots := by
  induction slots generalizing p with
  | nil => rfl
  | cons s rest ih =>
    rw [Slot.starts, List.flatMap_cons, List.length_append, textOf_length, ← Nat.add_assoc, ih]
    rfl

theorem distance_of_field {layout : Layout} {p : Nat} {i : Instruction Label} {long : Bool}
    {l : Label} {d : Int} (run : layout.fieldDistance p i long l = .ok d) :
    layout.distance p l = .ok d := by
  obtain ⟨d', found, run⟩ := bind_ok_iff.mp run
  dsimp only at run
  split at run
  · cases run
  · split at run
    · cases run
    · cases run
      exact found

theorem slotBytes_ok {layout : Layout} {p : Nat × Slot} {bytes : Bytes}
    (run : layout.slotBytes p.1 p.2 = .ok bytes) :
    bytes = textOf layout.placeOf p ∧
      ∀ i, p.2.item = .op i → ∀ l ∈ i.targets, ∃ q, layout.labels[l]? = some q := by
  obtain ⟨p, item, long⟩ := p
  cases item with
  | mark l =>
    cases run
    exact ⟨rfl, fun i same => by cases same⟩
  | op i =>
    obtain ⟨mapped, each, made⟩ := bind_ok_iff.mp run
    cases made
    have defined : ∀ l ∈ i.targets, ∃ q, layout.labels[l]? = some q := by
      intro l hl
      obtain ⟨d, ok⟩ := Instruction.target_ok_of_mapTargets each l hl
      replace ok := distance_of_field ok
      unfold distance at ok
      split at ok
      · rename_i q found
        exact ⟨q, found⟩
      · cases ok
    refine ⟨?_, fun i' same => by cases same; exact defined⟩
    have same := Instruction.eq_map_of_mapTargets (g := fun l => (layout.placeOf l : Int) - p)
      (fun l hl d ok => by
        obtain ⟨q, found⟩ := defined l hl
        replace ok := distance_of_field ok
        simp only [distance, found, Except.ok.injEq] at ok
        simp [placeOf, found, ← ok]) each
    simp only [textOf, Instruction.distances, same]

theorem code_ok {layout : Layout} {bytes : Bytes} (run : layout.code = .ok bytes) :
    bytes = layout.placed.flatMap (textOf layout.placeOf) ∧
      ∀ p ∈ layout.placed, ∀ i, p.2.item = .op i →
        ∀ l ∈ i.targets, ∃ q, layout.labels[l]? = some q := by
  obtain ⟨parts, each, made⟩ := bind_ok_iff.mp run
  cases made
  have related := (mapM_ok_iff.mp each).imp fun _ _ step => slotBytes_ok step
  constructor
  · have same : layout.placed.map (textOf layout.placeOf) = parts := by
      rw [← List.forall₂_eq_eq_eq, List.forall₂_map_left_iff]
      exact related.imp fun _ _ step => step.1.symm
    rw [← same, List.flatMap_def]
  · intro p member
    obtain ⟨_, _, step⟩ := related_of_mem related member
    exact step.2

end Layout

namespace Instruction
open Layout

theorem encodings_text {size : Nat} {place : Label → Nat} (slots : List Slot) (p : Nat)
    (ready : ∀ q i long, (q, ⟨.op i, long⟩) ∈ Slot.starts p slots →
      Placeable place size q long i) :
    ∃ parts, Encodings size p ((Slot.starts p slots).filterMap (decodedOf place)) parts ∧
      parts.flatten = (Slot.starts p slots).flatMap (textOf place) := by
  induction slots generalizing p with
  | nil => exact ⟨[], .nil, rfl⟩
  | cons s rest ih =>
    obtain ⟨item, long⟩ := s
    cases item with
    | mark l => exact ih p fun q i long member => ready q i long (List.mem_cons_of_mem _ member)
    | op i =>
      have here := ready p i long (List.mem_cons_self ..)
      have length : ((i.distances place p).bytes p long).length = i.encodedSize p long :=
        textOf_length place (p, ⟨.op i, long⟩)
      obtain ⟨parts, later, text⟩ := ih (p + i.encodedSize p long)
        fun q j long' member => ready q j long' (List.mem_cons_of_mem _ member)
      have small : p < 65536 := by
        have := here.room
        have := here.small
        omega
      refine ⟨(i.distances place p).bytes p long :: parts, ?_, congrArg (_ ++ ·) text⟩
      refine .cons (UInt16.toNat_ofNat_of_lt' small) (encoding_written here) ?_
      rwa [length]

end Instruction
end ClassHooks
