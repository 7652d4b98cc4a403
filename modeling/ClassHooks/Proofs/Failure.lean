import ClassHooks.Proofs.Success
import ClassHooks.Bytes.Cursor

/-!
Which errors a computation can fail with, whatever the state is in which it starts. A reader of the
package fails for the form of the bytes only.
-/
namespace ClassHooks

def Error.IsMalformed : Error → Prop
  | .malformed _ => True
  | .outOfBounds => True
  | _ => False

/-- All errors that the computation fails with are of the kind given. -/
def FailsOnly (kind : ε → Prop) (x : EStateM ε σ α) : Prop :=
  ∀ s e s', x s = .error e s' → kind e

section Rules
variable {ε σ α β : Type} {kind : ε → Prop} {x y : EStateM ε σ α}

theorem failsOnly_pure (a : α) : FailsOnly kind (pure a : EStateM ε σ α) := by
  intro s e s' run
  cases run

theorem failsOnly_throw {e : ε} (holds : kind e) : FailsOnly kind (throw e : EStateM ε σ α) := by
  intro s e' s' run
  cases run
  exact holds

theorem failsOnly_bind {f : α → EStateM ε σ β} (first : FailsOnly kind x)
    (next : ∀ a, FailsOnly kind (f a)) : FailsOnly kind (x >>= f) := by
  intro s e s' run
  rcases state_bind_error_iff.mp run with early | late
  · exact first s e s' early
  · obtain ⟨a, t, _, rest⟩ := late
    exact next a t e s' rest

theorem failsOnly_map {g : α → β} (first : FailsOnly kind x) :
    FailsOnly kind (x >>= fun a => pure (g a)) :=
  failsOnly_bind first fun a => failsOnly_pure (g a)

theorem failsOnly_ite {c : Prop} [Decidable c] (yes : FailsOnly kind x) (no : FailsOnly kind y) :
    FailsOnly kind (if c then x else y) := by
  split
  · exact yes
  · exact no

theorem failsOnly_guard {c : Prop} [Decidable c] {e : ε} {f : PUnit → EStateM ε σ α}
    (holds : kind e) (next : FailsOnly kind (f ())) :
    FailsOnly kind (if c then throw e >>= f else f ()) := by
  apply failsOnly_ite
  · intro s e' s' run
    cases run
    exact holds
  · exact next

theorem mapM_error {f : α → EStateM ε σ β} {xs : List α} {s s' : σ} {e : ε}
    (run : xs.mapM f s = .error e s') : ∃ before x after ys t, xs = before ++ x :: after ∧
      before.mapM f s = .ok ys t ∧ f x t = .error e s' := by
  induction xs generalizing s with
  | nil => cases run
  | cons x xs ih =>
    rw [List.mapM_cons] at run
    rcases state_bind_error_iff.mp run with early | ⟨y, t, first, run⟩
    · exact ⟨[], x, xs, [], s, rfl, rfl, early⟩
    rcases state_bind_error_iff.mp run with late | ⟨_, _, _, done⟩
    · obtain ⟨before, x', after, ys, t', rfl, passed, failed⟩ := ih late
      refine ⟨x :: before, x', after, y :: ys, t', rfl, ?_, failed⟩
      rw [List.mapM_cons, state_bind_of_ok first, state_bind_of_ok passed]
      rfl
    · cases done

end Rules

namespace Reader

abbrev Refuses (r : Reader α) : Prop := FailsOnly Error.IsMalformed r

theorem refuses_position : Refuses position := by
  intro c e c' run
  cases run

theorem refuses_atEnd : Refuses atEnd := by
  intro c e c' run
  cases run

theorem refuses_remaining : Refuses remaining := by
  intro c e c' run
  cases run

theorem refuses_u8 : Refuses u8 := by
  intro c e c' run
  unfold u8 at run
  split at run
  · cases run
  · cases run
    trivial

theorem refuses_bytes (n : Nat) : Refuses (bytes n) := by
  intro c e c' run
  simp only [bytes] at run
  split at run
  · cases run
  · cases run
    trivial

theorem refuses_word (width : Nat) : Refuses (word width) := by
  intro c e c' run
  unfold word at run
  split at run
  · cases run
  · rename_i failed
    cases run
    exact refuses_bytes width c _ _ failed

theorem refuses_number (width : Nat) (make : Nat → α) : Refuses fun c =>
    match word width c with
    | .ok n c => .ok (make n) c
    | .error e c => .error e c := by
  intro c e c' run
  dsimp only at run
  split at run
  · cases run
  · rename_i failed
    cases run
    exact refuses_word width c _ _ failed

theorem refuses_u16 : Refuses u16 := refuses_number 2 UInt16.ofNat

theorem refuses_u32 : Refuses u32 := refuses_number 4 UInt32.ofNat

theorem refuses_u64 : Refuses u64 := refuses_number 8 UInt64.ofNat

theorem refuses_i32 : Refuses i32 := failsOnly_map refuses_u32

theorem refuses_i64 : Refuses i64 := failsOnly_map refuses_u64

section Lists
variable {item : Reader α}

theorem refuses_repeated_go (each : Refuses item) (n : Nat) (read : List α) :
    Refuses (repeated.go item n read) := by
  induction n generalizing read with
  | zero => exact failsOnly_pure _
  | succ n ih => exact failsOnly_bind each fun a => ih (a :: read)

theorem refuses_repeated (each : Refuses item) (n : Nat) : Refuses (repeated item n) :=
  refuses_repeated_go each n []

theorem refuses_table (each : Refuses item) : Refuses (table item) :=
  failsOnly_bind refuses_u16 fun n => refuses_repeated each n.toNat

end Lists

theorem malformed_of_run {r : Reader α} (refuses : Refuses r) {bytes : Bytes} {e : Error}
    (run : r.run bytes = .error e) : e.IsMalformed := by
  unfold Reader.run at run
  split at run
  · cases run
  · rename_i failed
    cases run
    exact refuses _ _ _ failed

end Reader
end ClassHooks
