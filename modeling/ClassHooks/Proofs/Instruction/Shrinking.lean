import ClassHooks.Proofs.Instruction.Acceptance
import ClassHooks.Proofs.Instruction.Spelling

/-!
A code array beside its narrow layout. A prefix that is not needed is left out there, so what is
behind it moves to the front; a switch, which is aligned, moves by a multiple of four. Two
instructions come to lie at most three bytes farther apart, and no farther if none of the switches
between them moves.
-/
namespace ClassHooks
namespace Instruction
open Slot

def IsPadded (code : Bytes) (d : UInt16 × Instruction UInt16) : Prop :=
  d.2.HasRedundantPrefix (code.drop d.1.toNat)

/-- No jump of two bytes may come out of reach: its target is near enough, or no switch that could
move stands between the two. -/
def KeepsReach (code : Bytes) (decoded : List (UInt16 × Instruction UInt16)) : Prop :=
  ∀ d ∈ decoded, ∀ o, d.2.operand = .branch o → d.2.opcode.isLongJump = false →
    (-32765 ≤ (o.toNat : Int) - d.1.toNat ∧ (o.toNat : Int) - d.1.toNat ≤ 32764) ∨
    ∀ s ∈ decoded, s.2.isSwitch = true → min d.1.toNat o.toNat ≤ s.1.toNat →
      s.1.toNat < max d.1.toNat o.toNat → ∀ r ∈ decoded, r.1 < s.1 → ¬ IsPadded code r

theorem placeIn_begin {code : Bytes} {decoded : List (UInt16 × Instruction UInt16)}
    (decodes : decode code = .ok decoded) : placeIn decoded code.length 0 = 0 := by
  have small := (listing_of_decode decodes).1
  have first := placeIn_first (spelling_of_decode decodes) (by omega)
  rwa [Nat.zero_add] at first

theorem placeIn_mono {code : Bytes} {decoded : List (UInt16 × Instruction UInt16)}
    (decodes : decode code = .ok decoded) {n m : Nat} (order : n ≤ m) :
    placeIn decoded code.length n ≤ placeIn decoded code.length m := by
  obtain ⟨small, listing, _⟩ := listing_of_decode decodes
  by_cases inside : m < decoded.length
  · exact (placeIn_le_iff listing small inside).mpr order
  · rw [placeIn_of_le (Nat.le_of_not_lt inside)]
    exact placeIn_le_finish listing small n

section Layout
variable {code : Bytes} {decoded : List (UInt16 × Instruction UInt16)} {items : List Item}
  {g : UInt16 → Label} (decodes : decode code = .ok decoded)
  (same : Item.code items = decoded.map fun d => d.2.map g)
include decodes same

theorem narrow_step {n : Nat} {d : UInt16 × Instruction UInt16} (here : decoded[n]? = some d) :
    ∃ size, placeIn decoded code.length (n + 1) = placeIn decoded code.length n + size ∧
      placeAfter 0 (narrow items) (n + 1) = placeAfter 0 (narrow items) n +
        d.2.encodedSize (placeAfter 0 (narrow items) n) false ∧
      d.2.encodedSize (placeIn decoded code.length n) false ≤ size ∧
      (¬ IsPadded code d → size = d.2.encodedSize (placeIn decoded code.length n) false) := by
  obtain ⟨bs, rest, split, spelled, next⟩ := spelled_at decodes here
  have there : (Item.code items)[n]? = some (d.2.map g) := by
    rw [same, List.getElem?_map, here]
    rfl
  have follows := placeAfter_succ 0 (op_narrow there)
  rw [encodedSize_map] at follows
  rw [placeIn_eq_of_getElem here]
  refine ⟨bs.length, next, follows, spelled.least, fun needed => spelled.exact rest ?_⟩
  rwa [IsPadded, split] at needed

theorem narrow_stretches {n : Nat} (inside : n < decoded.length) :
    Stretches (placeAfter 0 (narrow items) n) (placeIn decoded code.length n)
      (placeAfter 0 (narrow items) (n + 1)) (placeIn decoded code.length (n + 1)) := by
  obtain ⟨size, old, new, least, _⟩ := narrow_step decodes same (List.getElem?_eq_getElem inside)
  obtain ⟨more, rfl⟩ := Nat.exists_eq_add_of_le least
  rw [← Nat.add_assoc] at old
  cases switch : (decoded[n].2).isSwitch with
  | true =>
    obtain ⟨tail, ends⟩ := end_of_switch switch
    rw [ends] at old new
    exact .aligned new old
  | false =>
    rw [encodedSize_of_plain switch false _ (placeIn decoded code.length n)] at new
    exact .plain new old

theorem narrow_le {n : Nat} (bound : n ≤ decoded.length) :
    placeAfter 0 (narrow items) n ≤ placeIn decoded code.length n := by
  refine Stretches.le (fun _ => narrow_stretches decodes same) bound ?_
  rw [placeAfter_zero]
  exact Nat.zero_le _

theorem narrow_near {n m : Nat} (order : n ≤ m) (bound : m ≤ decoded.length) :
    placeAfter 0 (narrow items) m + placeIn decoded code.length n ≤
      placeIn decoded code.length m + placeAfter 0 (narrow items) n + 3 := by
  have before := narrow_le decodes same (Nat.le_trans order bound)
  have := Stretches.floor (fun _ => narrow_stretches decodes same)
    ((placeIn decoded code.length n - placeAfter 0 (narrow items) n) / 4) order bound (by omega)
  omega

theorem narrow_steady {n m : Nat} (order : n ≤ m) (bound : m ≤ decoded.length)
    (steady : ∀ k d, n ≤ k → k < m → decoded[k]? = some d → d.2.isSwitch = true →
      placeIn decoded code.length k = placeAfter 0 (narrow items) k) :
    placeAfter 0 (narrow items) m + placeIn decoded code.length n ≤
      placeIn decoded code.length m + placeAfter 0 (narrow items) n := by
  refine Stretches.apart order fun k low high => ?_
  have here := List.getElem?_eq_getElem (Nat.lt_of_lt_of_le high bound)
  obtain ⟨size, old, new, least, _⟩ := narrow_step decodes same here
  rw [old, new]
  by_cases switch : (decoded[k].2).isSwitch = true
  · rw [← steady k _ low high here switch]
    omega
  · rw [encodedSize_of_plain (Bool.not_eq_true _ ▸ switch) false _
      (placeIn decoded code.length k)]
    omega

theorem narrow_same {n : Nat} (bound : n ≤ decoded.length)
    (needed : ∀ k d, k < n → decoded[k]? = some d → ¬ IsPadded code d) :
    placeIn decoded code.length n = placeAfter 0 (narrow items) n := by
  induction n with
  | zero => rw [placeIn_begin decodes, placeAfter_zero]
  | succ n ih =>
    have before := ih (Nat.le_of_succ_le bound) fun k d low => needed k d (by omega)
    have here := List.getElem?_eq_getElem bound
    obtain ⟨size, old, new, _, exact⟩ := narrow_step decodes same here
    rw [old, new, exact (needed n _ (Nat.lt_succ_self n) here), before]

omit decodes in
theorem narrow_mono {n m : Nat} (order : n ≤ m) (bound : m ≤ decoded.length) :
    placeAfter 0 (narrow items) n ≤ placeAfter 0 (narrow items) m := by
  rcases Nat.lt_or_eq_of_le order with before | rfl
  · refine Nat.le_of_lt (placeAfter_lt 0 _ before ?_)
    rw [items_narrow, same, List.length_map]
    omega
  · exact Nat.le_refl _

/-- Between two places no switch moves, if no prefix that is not needed stands before one. -/
theorem steady_between {n m : Nat} (bound : m ≤ decoded.length)
    (still : ∀ s ∈ decoded, s.2.isSwitch = true → placeIn decoded code.length n ≤ s.1.toNat →
      s.1.toNat < placeIn decoded code.length m → ∀ r ∈ decoded, r.1 < s.1 → ¬ IsPadded code r)
    {k : Nat} {s : UInt16 × Instruction UInt16} (low : n ≤ k) (high : k < m)
    (here : decoded[k]? = some s) (switch : s.2.isSwitch = true) :
    placeIn decoded code.length k = placeAfter 0 (narrow items) k := by
  obtain ⟨small, listing, _⟩ := listing_of_decode decodes
  have inside : k < decoded.length := by omega
  have place := placeIn_eq_of_getElem here code.length
  have behind := (placeIn_le_iff listing small inside).mpr low
  have ahead := placeIn_lt listing small high inside
  refine narrow_same decodes same (Nat.le_of_lt inside) fun j r before there => ?_
  have earlier := placeIn_lt listing small before (by omega)
  rw [place] at behind ahead earlier
  rw [placeIn_eq_of_getElem there] at earlier
  exact still s (List.mem_of_getElem? here) switch behind ahead r (List.mem_of_getElem? there)
    (UInt16.lt_iff_toNat_lt.mpr earlier)

theorem narrow_within (limit : Nat) {n m : Nat} (order : n ≤ m) (bound : m ≤ decoded.length)
    (reached : placeIn decoded code.length m ≤ placeIn decoded code.length n + limit)
    (kept : placeIn decoded code.length m + 3 ≤ placeIn decoded code.length n + limit ∨
      ∀ s ∈ decoded, s.2.isSwitch = true → placeIn decoded code.length n ≤ s.1.toNat →
        s.1.toNat < placeIn decoded code.length m → ∀ r ∈ decoded, r.1 < s.1 → ¬ IsPadded code r) :
    placeAfter 0 (narrow items) m ≤ placeAfter 0 (narrow items) n + limit := by
  rcases kept with near | still
  · have := narrow_near decodes same order bound
    omega
  · have := narrow_steady decodes same order bound fun _ _ =>
      steady_between decodes same bound still
    omega

/-- In the narrow layout the jumps of two bytes reach their targets. -/
theorem reach_narrow (keeps : KeepsReach code decoded) {n m : Nat} {d : UInt16 × Instruction UInt16}
    (here : decoded[n]? = some d) {o : UInt16} (branch : d.2.operand = .branch o)
    (short : d.2.opcode.isLongJump = false) (bound : m ≤ decoded.length)
    (target : o.toNat = placeIn decoded code.length m) :
    fitsShort ((placeAfter 0 (narrow items) m : Int) - placeAfter 0 (narrow items) n) = true := by
  have inside : n ≤ decoded.length := Nat.le_of_lt (List.getElem?_eq_some_iff.mp here).1
  obtain ⟨bs, rest, _, spelled, _⟩ := spelled_at decodes here
  have reached := spelled.reach o branch short
  have kept := keeps d (List.mem_of_getElem? here) o branch short
  rw [target, ← placeIn_eq_of_getElem here code.length] at kept reached
  simp only [fitsShort, Bool.and_eq_true, decide_eq_true_eq] at reached ⊢
  rcases Nat.le_total n m with order | order
  · have rising := narrow_mono same order bound
    have old := placeIn_mono decodes order
    rw [Nat.min_eq_left old, Nat.max_eq_right old] at kept
    have := narrow_within decodes same 32767 order bound (by omega)
      (kept.imp_left fun near => by omega)
    omega
  · have rising := narrow_mono same order inside
    have old := placeIn_mono decodes order
    rw [Nat.min_eq_right old, Nat.max_eq_left old] at kept
    have := narrow_within decodes same 32768 order inside (by omega)
      (kept.imp_left fun near => by omega)
    omega

end Layout

section Canonical
variable {code : Bytes} {g : UInt16 → Label} {place : Label → Nat}

/-- The narrow layout of canonical code, from any instruction on, is spelled as the code is. -/
theorem text_of_spelling (small : code.length ≤ 65535) {xs : List Item} {before bytes : Bytes}
    {decoded : List (UInt16 × Instruction UInt16)} (whole : code = before ++ bytes)
    (spelling : Spelling before.length decoded bytes)
    (same : Item.code xs = decoded.map fun d => d.2.map g)
    (placed : ∀ d ∈ decoded, ∀ o ∈ d.2.targets, place (g o) = o.toNat)
    (canonical : ∀ d ∈ decoded, d.2.Canonical d.1.toNat (code.drop d.1.toNat)) :
    (starts before.length (narrow xs)).flatMap (Layout.textOf place) = bytes := by
  induction xs generalizing before bytes decoded with
  | nil =>
    cases spelling with
    | nil => rfl
    | cons => cases same
  | cons item rest ih =>
    cases item with
    | mark l => exact ih whole spelling same placed canonical
    | op j =>
      cases spelling with
      | nil => cases same
      | @cons _ i bs more later spelled spelling =>
        rw [Item.code_op, List.map_cons, List.cons.injEq] at same
        obtain ⟨rfl, same⟩ := same
        have far : before.length < 65536 := by
          rw [whole, List.length_append] at small
          omega
        have first := canonical _ (List.mem_cons_self ..)
        rw [UInt16.toNat_ofNat_of_lt' far, whole, List.drop_left] at first
        -- Canonical code has no more bytes here than the layout reserves, so the rest begins at one place.
        have needed := spelled.exact more first.needed
        have text : Layout.textOf place (before.length, ⟨.op (i.map g), false⟩) = bs := by
          rw [spelled.bytes more first]
          refine congrArg (fun i => Instruction.bytes i before.length false) ?_
          rw [distances, map_map, away]
          exact map_congr fun o target => by rw [placed _ (List.mem_cons_self ..) o target]
        have next := ih (show code = (before ++ bs) ++ more by rw [whole, List.append_assoc])
          (by rwa [List.length_append]) same
          (fun d member => placed d (List.mem_cons_of_mem _ member))
          (fun d member => canonical d (List.mem_cons_of_mem _ member))
        rw [List.length_append, needed, ← encodedSize_map g] at next
        rw [narrow, List.map_cons, starts, List.flatMap_cons, text]
        exact congrArg (bs ++ ·) next

theorem text_of_canonical {decoded : List (UInt16 × Instruction UInt16)}
    (decodes : decode code = .ok decoded) {xs : List Item}
    (same : Item.code xs = decoded.map fun d => d.2.map g)
    (placed : ∀ d ∈ decoded, ∀ o ∈ d.2.targets, place (g o) = o.toNat)
    (canonical : ∀ d ∈ decoded, d.2.Canonical d.1.toNat (code.drop d.1.toNat)) :
    (starts 0 (narrow xs)).flatMap (Layout.textOf place) = code :=
  text_of_spelling (listing_of_decode decodes).1 (show code = [] ++ code from rfl)
    (spelling_of_decode decodes) same placed canonical

end Canonical
end Instruction
end ClassHooks
