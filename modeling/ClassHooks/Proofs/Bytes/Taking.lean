import ClassHooks.Proofs.Bytes.Reading

/-!
Which bytes a reader has taken, told from what it gives. `TakesAt` is the way back from `ReadsAt`: it
fixes no bytes but says of those that were there how they spell the value.
-/
namespace ClassHooks
namespace Bytes

theorem foldl_digits (bs : Bytes) (start : Nat) :
    bs.foldl (fun n b => 256 * n + b.toNat) start = start * 256 ^ bs.length + toNat bs := by
  induction bs generalizing start with
  | nil => simp [toNat]
  | cons b bs ih =>
    have whole : toNat (b :: bs) = (256 * 0 + b.toNat) * 256 ^ bs.length + toNat bs := ih _
    rw [List.foldl_cons, ih, whole, List.length_cons, Nat.pow_succ]
    ring

theorem toNat_cons (b : UInt8) (bs : Bytes) :
    toNat (b :: bs) = b.toNat * 256 ^ bs.length + toNat bs := by
  rw [toNat, List.foldl_cons, foldl_digits, Nat.mul_zero, Nat.zero_add]

theorem toNat_lt (bs : Bytes) : toNat bs < 256 ^ bs.length := by
  induction bs with
  | nil => decide
  | cons b bs ih =>
    have digit : (b.toNat + 1) * 256 ^ bs.length ≤ 256 * 256 ^ bs.length :=
      Nat.mul_le_mul_right _ b.toNat_lt
    rw [toNat_cons, List.length_cons, Nat.pow_succ, Nat.mul_comm (256 ^ bs.length)]
    rw [Nat.add_mul, Nat.one_mul] at digit
    omega

theorem toNat_injective {as bs : Bytes} (length : as.length = bs.length)
    (same : toNat as = toNat bs) : as = bs := by
  induction as generalizing bs with
  | nil => exact (List.eq_nil_of_length_eq_zero length.symm).symm
  | cons a as ih =>
    cases bs with
    | nil => cases length
    | cons b bs =>
      have shorter : as.length = bs.length := Nat.succ.inj length
      have positive : 0 < 256 ^ bs.length := Nat.pow_pos (by decide)
      have below := toNat_lt as
      have below' := toNat_lt bs
      rw [toNat_cons, toNat_cons, shorter] at same
      rw [shorter] at below
      have digit : a.toNat = b.toNat := by
        have one : (a.toNat * 256 ^ bs.length + toNat as) / 256 ^ bs.length = a.toNat := by
          rw [Nat.mul_comm, Nat.mul_add_div positive, Nat.div_eq_of_lt below, Nat.add_zero]
        have two : (b.toNat * 256 ^ bs.length + toNat bs) / 256 ^ bs.length = b.toNat := by
          rw [Nat.mul_comm, Nat.mul_add_div positive, Nat.div_eq_of_lt below', Nat.add_zero]
        rw [← one, same, two]
      rw [digit] at same
      rw [UInt8.toNat_inj.mp digit, ih shorter (Nat.add_left_cancel same)]

theorem ofNat_toNat (bs : Bytes) : ofNat bs.length (toNat bs) = bs :=
  toNat_injective (ofNat_length _ _) (toNat_ofNat (toNat_lt bs))

end Bytes

namespace Reader

/-- Whatever the reader gives at position `p`, it has taken bytes of which `W` holds. -/
def TakesAt (r : Reader α) (p : Nat) (W : α → Bytes → Prop) : Prop :=
  ∀ rest a c', r ⟨p, rest⟩ = .ok a c' →
    ∃ taken, rest = taken ++ c'.rest ∧ c'.position = p + taken.length ∧ W a taken

section Rules
variable {r : Reader α} {f : α → Reader β} {p : Nat} {W : β → Bytes → Prop}

theorem takes_mono {V V' : α → Bytes → Prop} (takes : TakesAt r p V)
    (follows : ∀ a bs, V a bs → V' a bs) : TakesAt r p V' := by
  intro rest a c' run
  obtain ⟨taken, split, far, holds⟩ := takes rest a c' run
  exact ⟨taken, split, far, follows a taken holds⟩

theorem takes_pure {b : β} (holds : W b []) : TakesAt (pure b) p W := by
  intro rest b' c' run
  cases run
  exact ⟨[], rfl, rfl, holds⟩

theorem takes_throw (e : Error) : TakesAt (throw e : Reader β) p W := by
  intro rest b c' run
  cases run

theorem takes_bind {V : α → Bytes → Prop} (first : TakesAt r p V)
    (next : ∀ a bs, V a bs → TakesAt (f a) (p + bs.length) fun b more => W b (bs ++ more)) :
    TakesAt (r >>= f) p W := by
  intro rest b c' run
  obtain ⟨a, ⟨p', rest'⟩, one, two⟩ := state_bind_ok_iff.mp run
  obtain ⟨taken, rfl, far, holds⟩ := first rest a _ one
  subst far
  obtain ⟨more, split, far', holds'⟩ := next a taken holds rest' b c' two
  refine ⟨taken ++ more, ?_, ?_, holds'⟩
  · rw [List.append_assoc, ← split]
  · rw [far', List.length_append, Nat.add_assoc]

theorem takes_field {w : α → Bytes} (first : TakesAt r p fun a bs => bs = w a)
    (next : ∀ a, TakesAt (f a) (p + (w a).length) fun b more => W b (w a ++ more)) :
    TakesAt (r >>= f) p W := by
  refine takes_bind first ?_
  rintro a _ rfl
  exact next a

theorem takes_map {g : α → β} (takes : TakesAt r p fun a bs => W (g a) bs) :
    TakesAt (r >>= fun a => pure (g a)) p W := by
  refine takes_bind takes fun a bs holds => takes_pure ?_
  rwa [List.append_nil]

theorem takes_silent {V : α → Prop} (silent : ∀ rest a c', r ⟨p, rest⟩ = .ok a c' →
    c' = ⟨p, rest⟩ ∧ V a) (next : ∀ a, V a → TakesAt (f a) p W) : TakesAt (r >>= f) p W := by
  intro rest b c' run
  obtain ⟨a, middle, one, two⟩ := state_bind_ok_iff.mp run
  obtain ⟨rfl, holds⟩ := silent rest a middle one
  exact next a holds rest b c' two

theorem takes_position {f : Nat → Reader β} (next : TakesAt (f p) p W) :
    TakesAt (position >>= f) p W := next

theorem takes_holds {n : Nat} {f : Bool → Reader β} (next : ∀ enough, TakesAt (f enough) p W) :
    TakesAt (holds n >>= f) p W :=
  takes_silent (V := fun _ => True) (fun _ _ _ run => by cases run; exact ⟨rfl, trivial⟩)
    fun enough _ => next enough

theorem takes_guard {c : Prop} [Decidable c] {e : Error} {f : PUnit → Reader β}
    (next : ¬c → TakesAt (f ()) p W) : TakesAt (if c then throw e >>= f else f ()) p W := by
  split
  · intro rest b c' run
    cases run
  · rename_i passed
    exact next passed

theorem takes_lift {result : Except Error α} {f : α → Reader β}
    (next : ∀ a, result = .ok a → TakesAt (f a) p W) : TakesAt (lift result >>= f) p W := by
  refine takes_silent (V := fun a => result = .ok a) (fun rest a c' run => ?_) next
  cases result with
  | error e => cases run
  | ok a' =>
    cases run
    exact ⟨rfl, rfl⟩

end Rules

section Numbers
variable {p : Nat}

theorem takes_u8 : TakesAt u8 p fun b bs => bs = [b] := by
  intro rest b c' run
  unfold u8 at run
  cases rest with
  | nil => cases run
  | cons b rest =>
    cases run
    exact ⟨[b], rfl, rfl, rfl⟩

theorem takes_bytes (n : Nat) : TakesAt (bytes n) p fun a bs => bs = a ∧ a.length = n := by
  intro rest a c' run
  simp only [bytes] at run
  split at run
  · rename_i length
    cases run
    refine ⟨rest.take n, (List.take_append_drop n rest).symm, ?_, rfl, length⟩
    rw [length]
  · cases run

theorem takes_skip (n : Nat) : TakesAt (skip n) p fun _ bs => bs.length = n := by
  intro rest a c' run
  simp only [skip] at run
  split at run
  · rename_i enough
    cases run
    have length : (rest.take n).length = n := beq_iff_eq.mp enough
    exact ⟨rest.take n, (List.take_append_drop n rest).symm, by rw [length], length⟩
  · cases run

theorem takes_align (n : Nat) : TakesAt (align n) p fun _ bs => bs.length = (n - p % n) % n :=
  takes_position (takes_skip _)

theorem takes_word (width : Nat) :
    TakesAt (word width) p fun n bs => bs = Bytes.ofNat width n ∧ n < 256 ^ width := by
  intro rest n c' run
  unfold word at run
  split at run
  · rename_i digits middle read
    cases run
    obtain ⟨taken, split, far, rfl, rfl⟩ := takes_bytes width rest digits c' read
    exact ⟨taken, split, far, (Bytes.ofNat_toNat taken).symm, Bytes.toNat_lt taken⟩
  · cases run

theorem takes_u16 : TakesAt u16 p fun n bs => bs = Bytes.u16 n := by
  intro rest n c' run
  unfold u16 at run
  split at run
  · rename_i k middle read
    cases run
    obtain ⟨taken, split, far, rfl, small⟩ := takes_word 2 rest k c' read
    refine ⟨_, split, far, ?_⟩
    exact (congrArg (Bytes.ofNat 2) (UInt16.toNat_ofNat_of_lt' small)).symm
  · cases run

theorem takes_u32 : TakesAt u32 p fun n bs => bs = Bytes.u32 n := by
  intro rest n c' run
  unfold u32 at run
  split at run
  · rename_i k middle read
    cases run
    obtain ⟨taken, split, far, rfl, small⟩ := takes_word 4 rest k c' read
    refine ⟨_, split, far, ?_⟩
    exact (congrArg (Bytes.ofNat 4) (UInt32.toNat_ofNat_of_lt' small)).symm
  · cases run

theorem takes_u64 : TakesAt u64 p fun n bs => bs = Bytes.u64 n := by
  intro rest n c' run
  unfold u64 at run
  split at run
  · rename_i k middle read
    cases run
    obtain ⟨taken, split, far, rfl, small⟩ := takes_word 8 rest k c' read
    refine ⟨_, split, far, ?_⟩
    exact (congrArg (Bytes.ofNat 8) (UInt64.toNat_ofNat_of_lt' small)).symm
  · cases run

theorem takes_i8 : TakesAt i8 p fun n bs => bs = Bytes.i8 n :=
  takes_map (takes_mono takes_u8 fun _ _ same => same)

theorem takes_i16 : TakesAt i16 p fun n bs => bs = Bytes.i16 n :=
  takes_map (takes_mono takes_u16 fun _ _ same => same)

theorem takes_i32 : TakesAt i32 p fun n bs => bs = Bytes.i32 n :=
  takes_map (takes_mono takes_u32 fun _ _ same => same)

theorem takes_i64 : TakesAt i64 p fun n bs => bs = Bytes.i64 n :=
  takes_map (takes_mono takes_u64 fun _ _ same => same)

end Numbers

section Lists
variable {item : Reader α} {V : α → Bytes → Prop}

theorem takes_repeated_go (each : ∀ p, TakesAt item p V) (n : Nat) (read : List α) (p : Nat) :
    TakesAt (repeated.go item n read) p fun as bs => ∃ more parts, as = read.reverse ++ more ∧
      more.length = n ∧ List.Forall₂ V more parts ∧ bs = parts.flatten := by
  induction n generalizing read p with
  | zero => exact takes_pure ⟨[], [], by simp, rfl, .nil, rfl⟩
  | succ n ih =>
    refine takes_bind (each p) fun a bs here => ?_
    refine takes_mono (ih (a :: read) _) ?_
    rintro as _ ⟨more, parts, rfl, length, related, rfl⟩
    exact ⟨a :: more, bs :: parts, by simp, by simp [length], .cons here related, rfl⟩

theorem takes_repeated (each : ∀ p, TakesAt item p V) (n p : Nat) :
    TakesAt (repeated item n) p fun as bs =>
      as.length = n ∧ ∃ parts, List.Forall₂ V as parts ∧ bs = parts.flatten := by
  refine takes_mono (takes_repeated_go each n [] p) ?_
  rintro as bs ⟨more, parts, rfl, length, related, same⟩
  exact ⟨length, parts, related, same⟩

theorem takes_table (each : ∀ p, TakesAt item p V) (p : Nat) :
    TakesAt (table item) p (Bytes.Tabled V) := by
  refine takes_field takes_u16 fun n => ?_
  refine takes_mono (takes_repeated each n.toNat _) ?_
  rintro as _ ⟨length, parts, related, rfl⟩
  exact ⟨length ▸ n.toNat_lt, parts, related, by rw [length]; rfl⟩

end Lists

def Finishes (r : Reader α) : Prop := ∀ c a c', r c = .ok a c' → c'.rest = []

theorem finishes_bind {r : Reader α} {f : α → Reader β} (next : ∀ a, Finishes (f a)) :
    Finishes (r >>= f) := by
  intro c b c' run
  obtain ⟨a, middle, _, two⟩ := state_bind_ok_iff.mp run
  exact next a middle b c' two

theorem finishes_guard {c : Prop} [Decidable c] {e : Error} {f : PUnit → Reader α}
    (next : Finishes (f ())) : Finishes (if c then throw e >>= f else f ()) := by
  split
  · intro cursor a cursor' run
    cases run
  · exact next

section AtEnd
variable {a : α} {e : Nat → Error}

theorem finishes_atEnd : Finishes (atEnd >>= fun done =>
    if (!done) = true then remaining >>= fun n => throw (e n) >>= fun (_ : PUnit) => pure a
    else pure a) := by
  rintro ⟨p, rest⟩ a' c' run
  cases rest with
  | nil =>
    cases run
    rfl
  | cons b rest => cases run

theorem takes_atEnd {p : Nat} {W : α → Bytes → Prop} (holds : W a []) :
    TakesAt (atEnd >>= fun done =>
      if (!done) = true then remaining >>= fun n => throw (e n) >>= fun (_ : PUnit) => pure a
      else pure a) p W := by
  refine takes_silent (V := fun _ => True)
    (fun _ _ _ run => by cases run; exact ⟨rfl, trivial⟩) fun done _ => ?_
  cases done with
  | false =>
    intro rest a' c' run
    cases run
  | true => exact takes_pure holds

end AtEnd

theorem taken_of_run {r : Reader α} {W : α → Bytes → Prop} (takes : TakesAt r 0 W)
    (finishes : Finishes r) {bytes : Bytes} {a : α} (run : r.run bytes = .ok a) : W a bytes := by
  unfold Reader.run at run
  split at run
  · rename_i read
    cases run
    obtain ⟨taken, split, _, holds⟩ := takes bytes a _ read
    rw [finishes _ _ _ read, List.append_nil] at split
    rwa [split]
  · cases run

end Reader
end ClassHooks
