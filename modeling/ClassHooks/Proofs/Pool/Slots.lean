import ClassHooks.Proofs.Pool.Growth

/-!
How many slots additions to a pool take. An addition that does not succeed has filled the pool.
-/
namespace ClassHooks

/-- The computation has a result with the property and takes at most `n` slots, or it stops for want
of one. -/
def Proceeds (size : σ → Nat) (n : Nat) (x : EStateM ε σ α) (s : σ) (P : α → σ → Prop) : Prop :=
  match x s with
  | .ok a t => P a t ∧ size t ≤ size s + n
  | .error _ t => size t = 65535 ∧ 65535 < size s + n

section Proceeding
variable {ε σ α β : Type} {size : σ → Nat} {n m : Nat} {s : σ} {P Q : α → σ → Prop}

theorem proceeds_of_ok {x : EStateM ε σ α} {a : α} {t : σ} (run : x s = .ok a t)
    (holds : P a t) (few : size t ≤ size s + n) : Proceeds size n x s P := by
  unfold Proceeds
  rw [run]
  exact ⟨holds, few⟩

theorem proceeds_bind {x : EStateM ε σ α} {f : α → EStateM ε σ β} {R : β → σ → Prop}
    (first : Proceeds size n x s P) (next : ∀ a t, P a t → Proceeds size m (f a) t R) :
    Proceeds size (n + m) (x >>= f) s R := by
  unfold Proceeds at first ⊢
  cases run : x s with
  | error e t =>
    rw [run] at first
    rw [state_bind_of_error run]
    exact ⟨first.1, by omega⟩
  | ok a t =>
    rw [run] at first
    rw [state_bind_of_ok run]
    have rest := next a t first.1
    unfold Proceeds at rest
    cases last : f a t with
    | error e u =>
      rw [last] at rest
      exact ⟨rest.1, by omega⟩
    | ok b u =>
      rw [last] at rest
      exact ⟨rest.1, by omega⟩

theorem proceeds_mono {x : EStateM ε σ α} (run : Proceeds size n x s P) (few : n ≤ m)
    (weaker : ∀ a t, P a t → Q a t) : Proceeds size m x s Q := by
  unfold Proceeds at run ⊢
  cases done : x s with
  | error e t =>
    rw [done] at run
    exact ⟨run.1, by omega⟩
  | ok a t =>
    rw [done] at run
    exact ⟨weaker a t run.1, by omega⟩

end Proceeding

namespace Pool
variable {p : Pool}

theorem proceeds_add (sound : p.Sound) {c : Constant} (narrow : c.isWide = false) :
    Proceeds size 1 (add c) p fun _ q => q.Sound := by
  have slots : c.slots = 1 := by
    unfold Constant.slots
    rw [narrow]
    rfl
  unfold Proceeds
  cases run : add c p with
  | ok i q =>
    have beyond := (add_ok sound run).1
    refine ⟨beyond.sound, ?_⟩
    unfold add at run
    split at run
    · cases run
      omega
    · split at run
      · cases run
        have grown : (p.append c).size = p.size + c.slots := size_append c
        omega
      · cases run
  | error e q =>
    have small := sound.small
    obtain rfl := add_error run
    unfold add at run
    split at run
    · cases run
    · split at run
      · cases run
      · rename_i full
        dsimp only
        omega

theorem proceeds_addUtf8 (sound : p.Sound) (text : String) :
    Proceeds size 1 (addUtf8 text) p fun _ q => q.Sound :=
  proceeds_add sound rfl

theorem proceeds_addString (sound : p.Sound) (text : String) :
    Proceeds size 2 (addString text) p fun _ q => q.Sound :=
  proceeds_bind (proceeds_addUtf8 sound text) fun _ _ sound => proceeds_add sound rfl

theorem proceeds_addClass (sound : p.Sound) (name : String) :
    Proceeds size 2 (addClass name) p fun _ q => q.Sound :=
  proceeds_bind (proceeds_addUtf8 sound name) fun _ _ sound => proceeds_add sound rfl

theorem proceeds_addNameAndType (sound : p.Sound) (name descriptor : String) :
    Proceeds size 3 (addNameAndType name descriptor) p fun _ q => q.Sound :=
  proceeds_bind (proceeds_addUtf8 sound name) fun _ _ sound =>
    proceeds_bind (proceeds_addUtf8 sound descriptor) fun _ _ sound => proceeds_add sound rfl

theorem proceeds_addMethodRef (sound : p.Sound) (owner name descriptor : String) :
    Proceeds size 6 (addMethodRef owner name descriptor) p fun _ q => q.Sound :=
  proceeds_bind (proceeds_addClass sound owner) fun _ _ sound =>
    proceeds_bind (proceeds_addNameAndType sound name descriptor) fun _ _ sound =>
      proceeds_add sound rfl

end Pool
end ClassHooks
