import ClassHooks.Proofs.Instruction.Grammar

/-!
What decoding gives, whatever the bytes are: instructions whose operands fit, at rising offsets
inside the code.
-/
namespace ClassHooks
namespace Instruction

structure Decent (i : Instruction τ) : Prop where
  fits : i.Fits
  rising : i.operand.KeysRise
  narrow : ∀ index, i = ⟨Opcode.ldc, .constant index⟩ → index ≤ 255

theorem decent_of_encoding {size p : Nat} {i : Instruction UInt16} {bs : Bytes}
    (encoding : Encoding size p i bs) : i.Decent := by
  cases encoding with
  | @wideSlot op wide index =>
    have slot := (Opcode.takesWideSlot_iff_shape op).mp wide
    exact ⟨⟨.slot, slot, rfl⟩, trivial, fun index same => by cases same⟩
  | wideIncrement index delta =>
    exact ⟨⟨.increment, rfl, rfl⟩, trivial, fun index same => by cases same⟩
  | constant8 shape index =>
    refine ⟨⟨_, shape, rfl⟩, trivial, fun index' same => ?_⟩
    cases same
    rw [UInt16.le_iff_toNat_le, UInt8.toNat_toUInt16]
    exact Nat.le_of_lt_succ index.toNat_lt
  | constant16 shape index =>
    refine ⟨⟨_, shape, rfl⟩, trivial, fun index' same => ?_⟩
    have known := (Opcode.eq_ldc_iff_shape _).mp (congrArg Instruction.opcode same)
    rw [shape] at known
    cases known
  | tableSwitch shape _ _ ordered count _ =>
    refine ⟨⟨_, shape, ?_⟩, trivial, fun index same => by cases same⟩
    simp only [Operand.fits, Bool.and_eq_true, decide_eq_true_eq, beq_iff_eq]
    exact ⟨ordered, count.symm⟩
  | lookupSwitch shape _ _ _ rising _ =>
    exact ⟨⟨_, shape, rfl⟩, rising, fun index same => by cases same⟩
  | _ shape => exact ⟨⟨_, shape, rfl⟩, trivial, fun index same => by cases same⟩

def placeIn (decoded : List (UInt16 × Instruction UInt16)) (length n : Nat) : Nat :=
  (decoded[n]?.map fun d => d.1.toNat).getD length

/-- Decent instructions at rising offsets, the first at `start`, the last before `finish`. -/
inductive Listing (finish : Nat) : Nat → List (UInt16 × Instruction UInt16) → Prop where
  | nil {start : Nat} (bound : start ≤ finish) : Listing finish start []
  | cons {start next : Nat} {i : Instruction UInt16} {rest : List (UInt16 × Instruction UInt16)}
      (decent : i.Decent) (grows : start < next) (later : Listing finish next rest) :
      Listing finish start ((UInt16.ofNat start, i) :: rest)

theorem listing_of_encodings {size p : Nat} {decoded : List (UInt16 × Instruction UInt16)}
    {parts : List Bytes} (encodings : Encodings size p decoded parts) :
    Listing (p + parts.flatten.length) p decoded := by
  induction encodings with
  | nil => exact .nil (Nat.le_add_right ..)
  | @cons p o i bs rest parts place here later ih =>
    have filled := encoding_length_pos here
    rw [List.flatten_cons, List.length_append, ← Nat.add_assoc, ← UInt16.ofNat_toNat (x := o), place]
    exact .cons (decent_of_encoding here) (by omega) ih

theorem listing_of_decode {code : Bytes} {decoded : List (UInt16 × Instruction UInt16)}
    (run : decode code = .ok decoded) :
    code.length ≤ 65535 ∧ Listing code.length 0 decoded ∧ (code ≠ [] → decoded ≠ []) := by
  obtain ⟨parts, encodings, whole⟩ := encodings_of_decode run
  have listing := listing_of_encodings encodings
  rw [whole, Nat.zero_add] at listing
  refine ⟨small_of_decode run, listing, ?_⟩
  rintro filled rfl
  cases encodings
  exact filled whole.symm

section Places
variable {start finish : Nat} {decoded : List (UInt16 × Instruction UInt16)}

theorem placeIn_eq_of_getElem {n : Nat} {d : UInt16 × Instruction UInt16}
    (here : decoded[n]? = some d) (length : Nat) : placeIn decoded length n = d.1.toNat := by
  rw [placeIn, here]
  rfl

theorem placeIn_of_le {n : Nat} (past : decoded.length ≤ n) (length : Nat) :
    placeIn decoded length n = length := by
  rw [placeIn, List.getElem?_eq_none past]
  rfl

theorem start_le_of_listing (listing : Listing finish start decoded) : start ≤ finish := by
  induction listing with
  | nil bound => exact bound
  | cons _ grows _ ih => omega

theorem length_le_of_listing (listing : Listing finish start decoded) :
    start + decoded.length ≤ finish := by
  induction listing with
  | nil bound => exact bound
  | cons _ grows _ ih =>
    rw [List.length_cons]
    omega

theorem decent_of_listing (listing : Listing finish start decoded)
    {d : UInt16 × Instruction UInt16} (member : d ∈ decoded) : d.2.Decent := by
  induction listing with
  | nil => cases member
  | cons decent _ _ ih =>
    rcases List.mem_cons.mp member with rfl | later
    · exact decent
    · exact ih later

theorem placeIn_zero (listing : Listing finish start decoded) (small : finish ≤ 65535)
    (filled : decoded ≠ []) : placeIn decoded finish 0 = start := by
  have bound := start_le_of_listing listing
  cases listing with
  | nil => exact absurd rfl filled
  | cons _ _ _ => exact UInt16.toNat_ofNat_of_lt' (by change start < 65536; omega)

theorem start_le_placeIn (listing : Listing finish start decoded) (small : finish ≤ 65535)
    (n : Nat) : start ≤ placeIn decoded finish n := by
  induction listing generalizing n with
  | nil bound => exact bound
  | @cons start next i rest decent grows later ih =>
    cases n with
    | zero => exact Nat.le_of_eq (placeIn_zero (.cons decent grows later) small (by simp)).symm
    | succ n =>
      have further : next ≤ placeIn rest finish n := ih n
      change start ≤ placeIn rest finish n
      omega

theorem placeIn_lt (listing : Listing finish start decoded) (small : finish ≤ 65535) {n m : Nat}
    (order : n < m) (inside : n < decoded.length) :
    placeIn decoded finish n < placeIn decoded finish m := by
  induction listing generalizing n m with
  | nil => cases inside
  | @cons start next i rest decent grows later ih =>
    cases m with
    | zero => omega
    | succ m =>
      change _ < placeIn rest finish m
      cases n with
      | zero =>
        rw [placeIn_zero (.cons decent grows later) small (by simp)]
        have further := start_le_placeIn later small m
        omega
      | succ n => exact ih (by omega) (Nat.lt_of_succ_lt_succ inside)

theorem placeIn_le_finish (listing : Listing finish start decoded) (small : finish ≤ 65535)
    (n : Nat) : placeIn decoded finish n ≤ finish := by
  by_cases inside : n < decoded.length
  · have order := placeIn_lt listing small inside inside
    rw [placeIn_of_le (Nat.le_refl _)] at order
    exact Nat.le_of_lt order
  · exact Nat.le_of_eq (placeIn_of_le (Nat.le_of_not_lt inside) finish)

theorem placeIn_le_iff (listing : Listing finish start decoded) (small : finish ≤ 65535)
    {n m : Nat} (inside : n < decoded.length) :
    placeIn decoded finish m ≤ placeIn decoded finish n ↔ m ≤ n := by
  constructor
  · intro order
    by_contra late
    have := placeIn_lt listing small (Nat.lt_of_not_le late) inside
    omega
  · intro order
    rcases Nat.lt_or_eq_of_le order with before | rfl
    · exact Nat.le_of_lt (placeIn_lt listing small before (by omega))
    · exact Nat.le_refl _

def numberAt (decoded : List (UInt16 × Instruction UInt16)) (o : UInt16) : Nat :=
  decoded.countP fun d => d.1 < o

theorem start_le_of_mem (listing : Listing finish start decoded) (small : finish ≤ 65535)
    {d : UInt16 × Instruction UInt16} (member : d ∈ decoded) : start ≤ d.1.toNat := by
  obtain ⟨n, here⟩ := List.mem_iff_getElem?.mp member
  rw [← placeIn_eq_of_getElem here finish]
  exact start_le_placeIn listing small n

theorem numberAt_placeIn (listing : Listing finish start decoded) (small : finish ≤ 65535) {n : Nat}
    {o : UInt16} (bound : n ≤ decoded.length) (place : o.toNat = placeIn decoded finish n) :
    numberAt decoded o = n := by
  induction listing generalizing n with
  | nil => exact (Nat.le_zero.mp bound).symm
  | @cons start next i rest decent grows later ih =>
    have top := start_le_of_listing later
    have first : (UInt16.ofNat start).toNat = start :=
      UInt16.toNat_ofNat_of_lt' (by change start < 65536; omega)
    have order : ∀ d : UInt16 × Instruction UInt16,
        decide (d.1 < o) = true ↔ d.1.toNat < o.toNat := by
      intro d
      rw [decide_eq_true_iff, UInt16.lt_iff_toNat_lt]
    cases n with
    | zero =>
      rw [placeIn_zero (.cons decent grows later) small (by simp)] at place
      refine List.countP_eq_zero.mpr fun d member => ?_
      have behind := start_le_of_mem (.cons decent grows later) small member
      rw [order]
      omega
    | succ n =>
      have behind := start_le_placeIn later small n
      change o.toNat = placeIn rest finish n at place
      have here : decide ((UInt16.ofNat start, i).1 < o) = true := by
        rw [order, first]
        omega
      rw [numberAt, List.countP_cons, if_pos here]
      exact congrArg (· + 1) (ih (Nat.le_of_succ_le_succ bound) place)

def Bounds (decoded : List (UInt16 × Instruction UInt16)) (finish : Nat) (o : UInt16) : Prop :=
  o ∈ decoded.map (·.1) ∨ o = UInt16.ofNat finish

theorem end_toNat (small : finish ≤ 65535) :
    (UInt16.ofNat finish).toNat = placeIn decoded finish decoded.length := by
  rw [placeIn_of_le (Nat.le_refl _)]
  exact UInt16.toNat_ofNat_of_lt' (by change finish < 65536; omega)

theorem place_of_bounds (small : finish ≤ 65535) {o : UInt16} (known : Bounds decoded finish o) :
    ∃ n ≤ decoded.length, o.toNat = placeIn decoded finish n := by
  rcases known with inside | rfl
  · obtain ⟨d, member, rfl⟩ := List.mem_map.mp inside
    obtain ⟨n, here⟩ := List.mem_iff_getElem?.mp member
    exact ⟨n, Nat.le_of_lt (List.getElem?_eq_some_iff.mp here).1,
      (placeIn_eq_of_getElem here _).symm⟩
  · exact ⟨decoded.length, Nat.le_refl _, end_toNat small⟩

end Places

/-- Where an offset comes to lie if instruction number `n` becomes instruction number `k n`. -/
def carry (k : Nat → Nat) (decoded new : List (UInt16 × Instruction UInt16)) (length : Nat)
    (o : UInt16) : UInt16 := UInt16.ofNat (placeIn new length (k (numberAt decoded o)))

section Carrying
variable {start finish start' finish' : Nat} {decoded new : List (UInt16 × Instruction UInt16)}
  {k : Nat → Nat} (listing : Listing finish start decoded) (small : finish ≤ 65535)
  (listing' : Listing finish' start' new) (small' : finish' ≤ 65535)
include listing small listing' small'

theorem carry_toNat {n : Nat} {o : UInt16} (bound : n ≤ decoded.length)
    (place : o.toNat = placeIn decoded finish n) :
    (carry k decoded new finish' o).toNat = placeIn new finish' (k n) := by
  have room := placeIn_le_finish listing' small' (k n)
  rw [carry, numberAt_placeIn listing small bound place]
  exact UInt16.toNat_ofNat_of_lt' (by change _ < 65536; omega)

theorem carry_rising (rises : ∀ n m, n < m → m ≤ decoded.length → k n < k m)
    (inside : ∀ n < decoded.length, k n < new.length) {o o' : UInt16}
    (known : Bounds decoded finish o) (known' : Bounds decoded finish o') (order : o < o') :
    carry k decoded new finish' o < carry k decoded new finish' o' := by
  obtain ⟨n, bound, place⟩ := place_of_bounds small known
  obtain ⟨m, bound', place'⟩ := place_of_bounds small known'
  rw [UInt16.lt_iff_toNat_lt] at order ⊢
  rw [carry_toNat listing small listing' small' bound place,
    carry_toNat listing small listing' small' bound' place']
  have before : n < m := by
    by_contra late
    rcases Nat.lt_or_eq_of_le (Nat.le_of_not_lt late) with less | rfl
    · have := placeIn_lt listing small less (by omega)
      omega
    · omega
  exact placeIn_lt listing' small' (rises n m before bound') (inside n (by omega))

end Carrying
end Instruction
end ClassHooks
