import ClassHooks.Proofs.Success
import ClassHooks.Bytes.Cursor

/-!
What readers give, whatever the bytes are, and how far they go on at least.
-/
namespace ClassHooks.Reader

/-- What the reader gives has the property; it stays within the bytes and goes on by at least
`n`. -/
def Gives (r : Reader α) (n : Nat) (P : α → Prop) : Prop :=
  ∀ c a c', r c = .ok a c' → c'.size = c.size ∧ c.position + n ≤ c'.position ∧ P a

variable {P : α → Prop} {Q : β → Prop} {n m : Nat}

theorem gives_pure {a : α} (holds : P a) : Gives (pure a) 0 P := by
  intro c a' c' run
  cases run
  exact ⟨rfl, Nat.le_refl _, holds⟩

theorem gives_throw (e : Error) : Gives (throw e : Reader α) n P := by
  intro c a c' run
  cases run

theorem gives_weaken {r : Reader α} {P' : α → Prop} (gives : Gives r n P) (less : m ≤ n)
    (follows : ∀ a, P a → P' a) : Gives r m P' := by
  intro c a c' run
  obtain ⟨size, far, holds⟩ := gives c a c' run
  exact ⟨size, by omega, follows a holds⟩

theorem gives_bind {r : Reader α} {f : α → Reader β} (first : Gives r n P)
    (next : ∀ a, P a → Gives (f a) m Q) : Gives (r >>= f) (n + m) Q := by
  intro c b c' run
  obtain ⟨a, middle, one, two⟩ := state_bind_ok_iff.mp run
  obtain ⟨size, far, holds⟩ := first c a middle one
  obtain ⟨size', far', holds'⟩ := next a holds middle b c' two
  exact ⟨size'.trans size, by omega, holds'⟩

theorem gives_after {r : Reader α} {f : α → Reader β} (first : Gives r 0 P)
    (next : ∀ a, P a → Gives (f a) m Q) : Gives (r >>= f) m Q := by
  have whole := gives_bind first next
  rwa [Nat.zero_add] at whole

theorem gives_u8 : Gives u8 1 fun _ => True := by
  rintro ⟨p, rest⟩ b c' run
  unfold u8 at run
  cases rest with
  | nil => cases run
  | cons b rest =>
    cases run
    exact ⟨by simp [Cursor.size]; omega, Nat.le_refl _, trivial⟩

theorem gives_bytes (k : Nat) : Gives (bytes k) k fun _ => True := by
  rintro ⟨p, rest⟩ bs c' run
  simp only [bytes] at run
  split at run
  · rename_i enough
    cases run
    rw [List.length_take] at enough
    refine ⟨?_, Nat.le_refl _, trivial⟩
    simp only [Cursor.size, List.length_drop]
    omega
  · cases run

theorem gives_word (width : Nat) : Gives (word width) width fun _ => True := by
  intro c n c' run
  unfold word at run
  cases read : bytes width c with
  | error e middle =>
    rw [read] at run
    cases run
  | ok bs middle =>
    rw [read] at run
    cases run
    exact gives_bytes width c bs _ read

theorem gives_u16 : Gives u16 2 fun _ => True := by
  intro c n c' run
  unfold u16 at run
  cases read : word 2 c with
  | error e middle =>
    rw [read] at run
    cases run
  | ok k middle =>
    rw [read] at run
    cases run
    exact gives_word 2 c k _ read

theorem gives_repeated_go {item : Reader α} (each : Gives item 0 P) (count : Nat)
    (read : List α) (before : ∀ a ∈ read, P a) :
    Gives (repeated.go item count read) 0 fun as =>
      as.length = read.length + count ∧ ∀ a ∈ as, P a := by
  induction count generalizing read with
  | zero =>
    refine gives_pure ⟨by simp, fun a member => before a ?_⟩
    exact List.mem_reverse.mp member
  | succ count ih =>
    refine gives_after each fun a holds => ?_
    refine gives_weaken (ih (a :: read) ?_) (Nat.le_refl _) fun as ⟨length, all⟩ => ⟨?_, all⟩
    · exact List.forall_mem_cons.mpr ⟨holds, before⟩
    · rw [length, List.length_cons]
      omega

theorem gives_repeated {item : Reader α} (each : Gives item 0 P) (count : Nat) :
    Gives (repeated item count) 0 fun as => as.length = count ∧ ∀ a ∈ as, P a := by
  have all := gives_repeated_go each count [] fun a member => (List.not_mem_nil member).elim
  rw [List.length_nil, Nat.zero_add] at all
  exact all

theorem gives_table {item : Reader α} (each : Gives item 0 P) :
    Gives (table item) 0 fun as => as.length < 65536 ∧ ∀ a ∈ as, P a := by
  refine gives_after (gives_weaken gives_u16 (Nat.zero_le _) fun _ holds => holds) fun n _ => ?_
  exact gives_weaken (gives_repeated each n.toNat) (Nat.le_refl _) fun as ⟨length, all⟩ =>
    ⟨length ▸ n.toNat_lt, all⟩

theorem gives_atEnd {a : α} {e : Nat → Error} (holds : P a) : Gives (atEnd >>= fun done =>
    if (!done) = true then remaining >>= fun n => throw (e n) >>= fun (_ : PUnit) => pure a
    else pure a) 0 P := by
  rintro ⟨p, rest⟩ a' c' run
  cases rest with
  | nil =>
    cases run
    exact ⟨rfl, Nat.le_refl _, holds⟩
  | cons b rest => cases run

theorem holds_of_run {r : Reader α} (gives : Gives r n P) {bytes : Bytes} {a : α}
    (run : r.run bytes = .ok a) : P a := by
  unfold Reader.run at run
  split at run
  · rename_i read
    cases run
    exact (gives _ _ _ read).2.2
  · cases run

end ClassHooks.Reader
