import ClassHooks.Proofs.Success
import ClassHooks.Bytes.Writer
import Mathlib.Tactic.Ring

/-!
Readers on bytes that were written for them. `ReadsAt` fixes the place where the bytes stand, since
padding depends on it, and leaves the bytes behind them open.
-/
namespace ClassHooks
namespace Reader

/-- At position `p` the reader takes exactly `bytes` and gives `a`. -/
def ReadsAt (r : Reader α) (p : Nat) (bytes : Bytes) (a : α) : Prop :=
  ∀ rest, r ⟨p, bytes ++ rest⟩ = .ok a ⟨p + bytes.length, rest⟩

theorem reads_pure (a : α) (p : Nat) : ReadsAt (pure a) p [] a := fun _ => rfl

theorem reads_bind {r : Reader α} {f : α → Reader β} {p : Nat} {first second : Bytes}
    (one : ReadsAt r p first a) (two : ReadsAt (f a) (p + first.length) second b) :
    ReadsAt (r >>= f) p (first ++ second) b := by
  intro rest
  change EStateM.bind r f _ = _
  rw [EStateM.bind, List.append_assoc, one]
  simp only [two rest, List.length_append, Nat.add_assoc]

theorem reads_map {r : Reader α} {p : Nat} {bytes : Bytes} (g : α → β)
    (read : ReadsAt r p bytes a) : ReadsAt (r >>= fun a => pure (g a)) p bytes (g a) := by
  have whole := reads_bind (f := fun a => pure (g a)) read (reads_pure (g a) _)
  rwa [List.append_nil] at whole

theorem reads_u8 (b : UInt8) (p : Nat) : ReadsAt u8 p [b] b := fun _ => rfl

theorem reads_cons {f : UInt8 → Reader β} {p : Nat} {b : UInt8} {rest : Bytes}
    (next : ReadsAt (f b) (p + 1) rest c) : ReadsAt (u8 >>= f) p (b :: rest) c :=
  reads_bind (reads_u8 b p) next

theorem reads_position {f : Nat → Reader β} {p : Nat} {bytes : Bytes}
    (next : ReadsAt (f p) p bytes b) : ReadsAt (position >>= f) p bytes b :=
  reads_bind (show ReadsAt position p [] p from fun _ => rfl) next

theorem reads_lift {result : Except Error α} (ok : result = .ok a) (p : Nat) :
    ReadsAt (lift result) p [] a := by
  subst ok
  exact fun _ => rfl

theorem reads_bytes (bs : Bytes) (p : Nat) : ReadsAt (bytes bs.length) p bs bs := by
  intro rest
  simp [bytes]

theorem holds_append (p : Nat) (bs rest : Bytes) {n : Nat} (enough : n ≤ bs.length) :
    (Cursor.mk p (bs ++ rest)).holds n = true := by
  simp only [Cursor.holds, List.length_take, List.length_append, beq_iff_eq]
  omega

theorem reads_skip (bs : Bytes) (p : Nat) : ReadsAt (skip bs.length) p bs () := by
  intro rest
  simp [skip, holds_append]

theorem reads_align {n p : Nat} {bs : Bytes} (gap : bs.length = (n - p % n) % n) :
    ReadsAt (align n) p bs () := by
  apply reads_position
  rw [← gap]
  exact reads_skip bs p

theorem reads_holds {f : Bool → Reader β} {n p : Nat} {bs : Bytes} (enough : n ≤ bs.length)
    (next : ReadsAt (f true) p bs b) : ReadsAt (holds n >>= f) p bs b := by
  intro rest
  have there := holds_append p bs rest enough
  change EStateM.bind (holds n) f _ = _
  simp only [EStateM.bind, holds, there]
  exact next rest

end Reader

namespace Bytes

@[simp] theorem ofNat_length (width n : Nat) : (ofNat width n).length = width := by
  induction width with
  | zero => rfl
  | succ width ih => simp [ofNat, ih]

theorem foldl_ofNat (width n start : Nat) :
    (ofNat width n).foldl (fun n b => 256 * n + b.toNat) start =
      start * 256 ^ width + n % 256 ^ width := by
  induction width generalizing start with
  | zero => simp [ofNat, Nat.mod_one]
  | succ width ih =>
    have digit : (UInt8.ofNat (n / Nat.pow 256 width)).toNat = n / 256 ^ width % 256 := by simp
    rw [ofNat, List.foldl_cons, ih, digit, Nat.pow_succ, Nat.mod_mul]
    ring

theorem toNat_ofNat {width n : Nat} (small : n < 256 ^ width) : toNat (ofNat width n) = n := by
  rw [toNat, foldl_ofNat, Nat.mod_eq_of_lt small]
  simp

@[simp] theorem u16_length (n : UInt16) : (u16 n).length = 2 := ofNat_length 2 _

@[simp] theorem u32_length (n : UInt32) : (u32 n).length = 4 := ofNat_length 4 _

@[simp] theorem i8_length (n : Int8) : (i8 n).length = 1 := rfl

@[simp] theorem i16_length (n : Int16) : (i16 n).length = 2 := u16_length _

@[simp] theorem i32_length (n : Int32) : (i32 n).length = 4 := u32_length _

def Tabled (W : α → Bytes → Prop) (xs : List α) (bs : Bytes) : Prop :=
  xs.length < 65536 ∧
    ∃ parts, List.Forall₂ W xs parts ∧ bs = ofNat 2 xs.length ++ parts.flatten

end Bytes

namespace Reader

theorem reads_word {width n : Nat} (small : n < 256 ^ width) (p : Nat) :
    ReadsAt (word width) p (Bytes.ofNat width n) n := by
  intro rest
  have taken := reads_bytes (Bytes.ofNat width n) p rest
  rw [Bytes.ofNat_length] at taken
  simp only [word, taken, Bytes.toNat_ofNat small, Bytes.ofNat_length]

theorem reads_u16 (n : UInt16) (p : Nat) : ReadsAt u16 p (Bytes.u16 n) n := by
  intro rest
  have small : n.toNat < 256 ^ 2 := n.toNat_lt
  have read := reads_word small p rest
  simp only [u16, Bytes.u16, read, UInt16.ofNat_toNat]

theorem reads_u32 (n : UInt32) (p : Nat) : ReadsAt u32 p (Bytes.u32 n) n := by
  intro rest
  have small : n.toNat < 256 ^ 4 := n.toNat_lt
  have read := reads_word small p rest
  simp only [u32, Bytes.u32, read, UInt32.ofNat_toNat]

theorem reads_u64 (n : UInt64) (p : Nat) : ReadsAt u64 p (Bytes.u64 n) n := by
  intro rest
  have small : n.toNat < 256 ^ 8 := n.toNat_lt
  have read := reads_word small p rest
  simp only [u64, Bytes.u64, read, UInt64.ofNat_toNat]

theorem reads_count {n : Nat} (small : n < 65536) (p : Nat) :
    ReadsAt u16 p (Bytes.ofNat 2 n) (UInt16.ofNat n) := by
  have count := reads_u16 (UInt16.ofNat n) p
  rwa [Bytes.u16, UInt16.toNat_ofNat_of_lt' small] at count

theorem reads_length {n : Nat} (small : n < 4294967296) (p : Nat) :
    ReadsAt u32 p (Bytes.ofNat 4 n) (UInt32.ofNat n) := by
  have length := reads_u32 (UInt32.ofNat n) p
  rwa [Bytes.u32, UInt32.toNat_ofNat_of_lt' small] at length

theorem reads_i8 (n : Int8) (p : Nat) : ReadsAt i8 p (Bytes.i8 n) n :=
  reads_map UInt8.toInt8 (reads_u8 n.toUInt8 p)

theorem reads_i16 (n : Int16) (p : Nat) : ReadsAt i16 p (Bytes.i16 n) n :=
  reads_map UInt16.toInt16 (reads_u16 n.toUInt16 p)

theorem reads_i32 (n : Int32) (p : Nat) : ReadsAt i32 p (Bytes.i32 n) n :=
  reads_map UInt32.toInt32 (reads_u32 n.toUInt32 p)

theorem reads_i64 (n : Int64) (p : Nat) : ReadsAt i64 p (Bytes.i64 n) n :=
  reads_map UInt64.toInt64 (reads_u64 n.toUInt64 p)

theorem reads_repeated_go {item : Reader α} {xs : List α} {parts : List Bytes}
    (each : List.Forall₂ (fun x bs => ∀ p, ReadsAt item p bs x) xs parts) (p : Nat)
    (read : List α) :
    ReadsAt (repeated.go item xs.length read) p parts.flatten (read.reverse ++ xs) := by
  induction each generalizing p read with
  | nil =>
    rw [List.append_nil]
    exact reads_pure _ p
  | @cons x bs xs parts first _ ih =>
    have rest := ih (p + bs.length) (x :: read)
    rw [List.reverse_cons, List.append_assoc, List.singleton_append] at rest
    exact reads_bind (first p) rest

theorem reads_repeated_parts {item : Reader α} {xs : List α} {parts : List Bytes}
    (each : List.Forall₂ (fun x bs => ∀ p, ReadsAt item p bs x) xs parts) (p : Nat) :
    ReadsAt (repeated item xs.length) p parts.flatten xs := reads_repeated_go each p []

theorem reads_repeated {item : Reader α} {write : β → Bytes} {value : β → α} (xs : List β)
    (each : ∀ x ∈ xs, ∀ p, ReadsAt item p (write x) (value x)) (p : Nat) :
    ReadsAt (repeated item xs.length) p (xs.flatMap write) (xs.map value) := by
  have related : List.Forall₂ (fun a bs => ∀ p, ReadsAt item p bs a) (xs.map value)
      (xs.map write) := by
    rw [List.forall₂_map_left_iff, List.forall₂_map_right_iff]
    exact List.forall₂_same.mpr each
  have whole := reads_repeated_parts related p
  rwa [List.length_map, ← List.flatMap_def] at whole

theorem reads_all {item : Reader α} {write : α → Bytes} (xs : List α)
    (each : ∀ x ∈ xs, ∀ p, ReadsAt item p (write x) x) (p : Nat) :
    ReadsAt (repeated item xs.length) p (xs.flatMap write) xs := by
  have items : ReadsAt (repeated item xs.length) p (xs.flatMap write) (xs.map id) :=
    reads_repeated xs each p
  rwa [List.map_id] at items

theorem reads_tabled {item : Reader α} {W : α → Bytes → Prop} {xs : List α} {bs : Bytes}
    (tabled : Bytes.Tabled W xs bs) (each : ∀ x bs, x ∈ xs → W x bs → ∀ p, ReadsAt item p bs x)
    (p : Nat) : ReadsAt (table item) p bs xs := by
  obtain ⟨small, parts, related, rfl⟩ := tabled
  refine reads_bind (reads_count small p) ?_
  rw [UInt16.toNat_ofNat_of_lt' small]
  refine reads_repeated_parts ?_ _
  rw [List.forall₂_iff_get] at related ⊢
  exact ⟨related.1, fun i h h' => each _ _ (List.get_mem _ _) (related.2 i h h')⟩

theorem reads_table {item : Reader α} {write : α → Bytes} (xs : List α)
    (each : ∀ x ∈ xs, ∀ p, ReadsAt item p (write x) x) (small : xs.length < 65536) (p : Nat) :
    ReadsAt (table item) p (Bytes.ofNat 2 xs.length ++ xs.flatMap write) xs := by
  refine reads_bind (reads_count small p) ?_
  rw [UInt16.toNat_ofNat_of_lt' small]
  exact reads_all xs each _

def EndsAt (r : Reader α) (p : Nat) (bytes : Bytes) (a : α) : Prop :=
  ∃ c', r ⟨p, bytes⟩ = .ok a c'

theorem ends_bind {r : Reader α} {f : α → Reader β} {p : Nat} {first second : Bytes}
    (one : ReadsAt r p first a) (two : EndsAt (f a) (p + first.length) second b) :
    EndsAt (r >>= f) p (first ++ second) b := by
  obtain ⟨c', second⟩ := two
  exact ⟨c', state_bind_ok_iff.mpr ⟨a, _, one _, second⟩⟩

theorem ends_guard {c : Prop} [Decidable c] {e : Error} {f : PUnit → Reader α} {p : Nat}
    {bytes : Bytes} (passes : ¬c) (next : EndsAt (f ()) p bytes a) :
    EndsAt (if c then throw e >>= f else f ()) p bytes a := by
  rwa [if_neg passes]

theorem ends_atEnd {e : Nat → Error} (p : Nat) (a : α) : EndsAt (atEnd >>= fun done =>
    if (!done) = true then remaining >>= fun n => throw (e n) >>= fun (_ : PUnit) => pure a
    else pure a) p [] a := ⟨⟨p, []⟩, rfl⟩

theorem run_of_ends {r : Reader α} {bytes : Bytes} (ends : EndsAt r 0 bytes a) :
    r.run bytes = .ok a := by
  obtain ⟨c', whole⟩ := ends
  rw [run, Cursor.start, whole]

theorem run_of_reads {r : Reader α} {bytes : Bytes} (read : ReadsAt r 0 bytes a) :
    r.run bytes = .ok a := by
  have whole := read []
  rw [List.append_nil] at whole
  rw [run, Cursor.start, whole]

end Reader

theorem Bytes.countField_ok_iff {what : Counted} {n : Nat} {bytes : Bytes} :
    countField what n = .ok bytes ↔ n < 65536 ∧ bytes = ofNat 2 n := by
  unfold countField
  split
  · rename_i small
    simp [small, eq_comm]
  · rename_i large
    simp [large]

theorem Bytes.lengthField_ok_iff {what : Measured} {n : Nat} {bytes : Bytes} :
    lengthField what n = .ok bytes ↔ n < 4294967296 ∧ bytes = ofNat 4 n := by
  unfold lengthField
  split
  · rename_i small
    simp [small, eq_comm]
  · rename_i large
    simp [large]

end ClassHooks
