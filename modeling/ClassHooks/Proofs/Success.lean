import ClassHooks.Error
import Mathlib.Data.List.Forall2

/-!
Computations that may fail: what the success of a whole says of its parts.
-/
namespace ClassHooks

theorem bind_ok_iff {x : Except ε α} {f : α → Except ε β} {b : β} :
    (x >>= f) = .ok b ↔ ∃ a, x = .ok a ∧ f a = .ok b := by
  cases x with
  | error e => simp [bind, Except.bind]
  | ok a => simp [bind, Except.bind]

theorem bind_error_iff {x : Except ε α} {f : α → Except ε β} {e : ε} :
    (x >>= f) = .error e ↔ x = .error e ∨ ∃ a, x = .ok a ∧ f a = .error e := by
  cases x with
  | error e' => simp [bind, Except.bind]
  | ok a => simp [bind, Except.bind]

theorem pure_ok_iff {a b : α} : (pure a : Except ε α) = .ok b ↔ a = b := by
  change Except.ok a = Except.ok b ↔ _
  simp

theorem ok_of_isSome {x : Except ε α} (some : x.toOption.isSome = true) : ∃ a, x = .ok a := by
  cases x with
  | error e => cases some
  | ok a => exact ⟨a, rfl⟩

theorem map_ok_iff {x : Except ε α} {f : α → β} {b : β} :
    (f <$> x) = .ok b ↔ ∃ a, x = .ok a ∧ f a = b := by
  cases x with
  | error e => simp [Functor.map, Except.map]
  | ok a => simp [Functor.map, Except.map]

theorem mapError_ok_iff {x : Except ε α} {f : ε → ρ} {a : α} :
    x.mapError f = .ok a ↔ x = .ok a := by
  cases x with
  | error e => simp [Except.mapError]
  | ok a' => simp [Except.mapError]

theorem counted_ok_iff {ofNat : Nat → α} {size count : Nat} {a : α} :
    counted ofNat size count = .ok a ↔ count < size ∧ ofNat count = a := by
  unfold counted
  split <;> simp [*]

theorem counted_error_iff {ofNat : Nat → α} {size count : Nat} {e : Error} :
    counted ofNat size count = .error e ↔ size ≤ count ∧ e = .overflow := by
  unfold counted
  split
  · rename_i room
    simp [Nat.not_le.mpr room]
  · rename_i full
    simp [Nat.not_lt.mp full, eq_comm]

theorem mapM_ok_iff {f : α → Except ε β} {xs : List α} {ys : List β} :
    xs.mapM f = .ok ys ↔ List.Forall₂ (fun x y => f x = .ok y) xs ys := by
  induction xs generalizing ys with
  | nil => cases ys <;> simp [pure, Except.pure]
  | cons x xs ih =>
    rw [List.mapM_cons]
    constructor
    · intro run
      obtain ⟨y, first, run⟩ := bind_ok_iff.mp run
      obtain ⟨rest, others, whole⟩ := bind_ok_iff.mp run
      cases whole
      exact .cons first (ih.mp others)
    · intro related
      cases related with
      | cons first others =>
        exact bind_ok_iff.mpr ⟨_, first, bind_ok_iff.mpr ⟨_, ih.mpr others, rfl⟩⟩

theorem mapM_ok_of_forall {f : α → Except ε β} {g : α → β} {xs : List α}
    (each : ∀ x ∈ xs, f x = .ok (g x)) : xs.mapM f = .ok (xs.map g) := by
  rw [mapM_ok_iff, List.forall₂_map_right_iff]
  exact List.forall₂_same.mpr each

theorem error_of_mapM {f : α → Except ε β} {xs : List α} {e : ε} (run : xs.mapM f = .error e) :
    ∃ x ∈ xs, f x = .error e := by
  induction xs with
  | nil => cases run
  | cons x xs ih =>
    rw [List.mapM_cons] at run
    rcases bind_error_iff.mp run with first | ⟨y, _, run⟩
    · exact ⟨x, by simp, first⟩
    · rcases bind_error_iff.mp run with later | ⟨ys, _, done⟩
      · obtain ⟨x', member, here⟩ := ih later
        exact ⟨x', by simp [member], here⟩
      · cases done

theorem ok_of_forall {f : α → Except ε β} {xs : List α} (each : ∀ x ∈ xs, ∃ y, f x = .ok y) :
    ∃ ys, xs.mapM f = .ok ys := by
  cases run : xs.mapM f with
  | ok ys => exact ⟨ys, rfl⟩
  | error e =>
    obtain ⟨x, member, failed⟩ := error_of_mapM run
    obtain ⟨y, ok⟩ := each x member
    rw [failed] at ok
    cases ok

theorem related_of_mem {R : α → β → Prop} {xs : List α} {ys : List β}
    (related : List.Forall₂ R xs ys) {x : α} (member : x ∈ xs) : ∃ y ∈ ys, R x y := by
  induction related with
  | nil => simp at member
  | cons first others ih =>
    rcases List.mem_cons.mp member with rfl | member
    · exact ⟨_, by simp, first⟩
    · obtain ⟨y, inside, here⟩ := ih member
      exact ⟨y, by simp [inside], here⟩

theorem related_of_mem_right {R : α → β → Prop} {xs : List α} {ys : List β}
    (related : List.Forall₂ R xs ys) {y : β} (member : y ∈ ys) : ∃ x ∈ xs, R x y :=
  related_of_mem related.flip member

theorem related_getElem? {R : α → β → Prop} {xs : List α} {ys : List β}
    (related : List.Forall₂ R xs ys) {n : Nat} {x : α} (here : xs[n]? = some x) :
    ∃ y, ys[n]? = some y ∧ R x y := by
  induction related generalizing n with
  | nil => cases here
  | cons first _ ih =>
    cases n with
    | zero =>
      cases here
      exact ⟨_, rfl, first⟩
    | succ n => exact ih here

theorem mapM_ok_of_related {R : β → γ → Prop} {f : α → Except ε β} {xs : List α} {zs : List γ}
    (each : List.Forall₂ (fun x z => ∃ y, f x = .ok y ∧ R y z) xs zs) :
    ∃ ys, xs.mapM f = .ok ys ∧ List.Forall₂ R ys zs := by
  induction each with
  | nil => exact ⟨[], rfl, .nil⟩
  | cons first _ ih =>
    obtain ⟨y, here, relates⟩ := first
    obtain ⟨ys, others, related⟩ := ih
    exact ⟨y :: ys, mapM_ok_iff.mpr (.cons here (mapM_ok_iff.mp others)), .cons relates related⟩

theorem related_flatMap {R : α → β → Prop} {S : γ → δ → Prop} {f : α → List γ} {g : β → List δ}
    {xs : List α} {ys : List β} (related : List.Forall₂ R xs ys)
    (each : ∀ x y, R x y → List.Forall₂ S (f x) (g y)) :
    List.Forall₂ S (xs.flatMap f) (ys.flatMap g) := by
  induction related with
  | nil => exact .nil
  | cons first _ ih =>
    rw [List.flatMap_cons, List.flatMap_cons]
    exact List.rel_append (each _ _ first) ih

theorem related_append_inv {R : α → β → Prop} {xs ys : List α} {zs : List β}
    (related : List.Forall₂ R (xs ++ ys) zs) :
    ∃ us vs, zs = us ++ vs ∧ List.Forall₂ R xs us ∧ List.Forall₂ R ys vs :=
  ⟨zs.take xs.length, zs.drop xs.length, (List.take_append_drop _ _).symm,
    (List.forall₂_take_append _ _ _ related.flip).flip,
    (List.forall₂_drop_append _ _ _ related.flip).flip⟩

theorem related_flatten_inv {R : α → β → Prop} {xss : List (List α)} {ys : List β}
    (related : List.Forall₂ R xss.flatten ys) :
    ∃ yss, ys = yss.flatten ∧ List.Forall₂ (List.Forall₂ R) xss yss := by
  induction xss generalizing ys with
  | nil =>
    cases related
    exact ⟨[], rfl, .nil⟩
  | cons xs xss ih =>
    rw [List.flatten_cons] at related
    obtain ⟨us, vs, rfl, first, rest⟩ := related_append_inv related
    obtain ⟨yss, rfl, others⟩ := ih rest
    exact ⟨us :: yss, rfl, .cons first others⟩

theorem related_trans {R : α → β → Prop} {S : β → γ → Prop} {T : α → γ → Prop}
    {xs : List α} {ys : List β} {zs : List γ} (one : List.Forall₂ R xs ys)
    (two : List.Forall₂ S ys zs) (both : ∀ x y z, R x y → S y z → T x z) :
    List.Forall₂ T xs zs := by
  induction one generalizing zs with
  | nil =>
    cases two
    exact .nil
  | cons first _ ih =>
    cases two with
    | cons second others => exact .cons (both _ _ _ first second) (ih others)

theorem eq_map_of_related {f : α → β} {xs : List α} {ys : List β}
    (related : List.Forall₂ (fun x y => y = f x) xs ys) : ys = xs.map f := by
  rw [← List.forall₂_eq_eq_eq, List.forall₂_map_right_iff]
  exact related.flip

theorem related_of_eq_map {f : α → β} {xs : List α} {ys : List β} (same : ys = xs.map f) :
    List.Forall₂ (fun x y => y = f x) xs ys := by
  rw [same, List.forall₂_map_right_iff]
  exact List.forall₂_same.mpr fun _ _ => rfl

theorem countP_of_related {R : α → β → Prop} {p : α → Bool} {q : β → Bool} {xs : List α}
    {ys : List β} (related : List.Forall₂ R xs ys) (same : ∀ x y, R x y → q y = p x) :
    ys.countP q = xs.countP p := by
  induction related with
  | nil => rfl
  | cons first _ ih => rw [List.countP_cons, List.countP_cons, ih, same _ _ first]

theorem pairwise_of_related {R : α → β → Prop} {P : α → α → Prop} {Q : β → β → Prop}
    {xs : List α} {ys : List β} (related : List.Forall₂ R xs ys) (ordered : xs.Pairwise P)
    (carry : ∀ x x' y y', R x y → R x' y' → P x x' → Q y y') : ys.Pairwise Q := by
  induction related with
  | nil => exact .nil
  | cons first others ih =>
    rw [List.pairwise_cons] at ordered ⊢
    refine ⟨fun y' member => ?_, ih ordered.2⟩
    obtain ⟨x', inside, here⟩ := related_of_mem_right others member
    exact carry _ _ _ _ first here (ordered.1 x' inside)

theorem ok_of_mapM_ok {f : α → Except ε β} {xs : List α} {ys : List β}
    (whole : xs.mapM f = .ok ys) {x : α} (member : x ∈ xs) : ∃ y ∈ ys, f x = .ok y :=
  related_of_mem (mapM_ok_iff.mp whole) member

def succeeds (x : EStateM ε σ α) (s : σ) : Bool :=
  match x s with
  | .ok _ _ => true
  | .error _ _ => false

section State
variable {ε σ α β : Type} {s s' : σ} {b : β}

theorem state_bind_ok_iff {x : EStateM ε σ α} {f : α → EStateM ε σ β} :
    (x >>= f) s = .ok b s' ↔ ∃ a t, x s = .ok a t ∧ f a t = .ok b s' := by
  change EStateM.bind x f s = _ ↔ _
  unfold EStateM.bind
  cases x s with
  | error e t => simp
  | ok a t => simp

theorem state_bind_error_iff {x : EStateM ε σ α} {f : α → EStateM ε σ β} {e : ε} :
    (x >>= f) s = .error e s' ↔
      x s = .error e s' ∨ ∃ a t, x s = .ok a t ∧ f a t = .error e s' := by
  change EStateM.bind x f s = _ ↔ _
  unfold EStateM.bind
  cases x s with
  | error e t => simp
  | ok a t => simp

theorem forM_cons_ok_iff {f : α → EStateM ε σ PUnit} {x : α} {xs : List α} {done : PUnit} :
    (x :: xs).forM f s = .ok done s' ↔ ∃ t, f x s = .ok .unit t ∧ xs.forM f t = .ok done s' := by
  change (f x >>= fun _ => xs.forM f) s = _ ↔ _
  rw [state_bind_ok_iff]
  constructor
  · rintro ⟨_, t, first, rest⟩
    exact ⟨t, first, rest⟩
  · rintro ⟨t, first, rest⟩
    exact ⟨_, t, first, rest⟩

theorem forM_append_ok_iff {f : α → EStateM ε σ PUnit} {xs ys : List α} {done : PUnit} :
    (xs ++ ys).forM f s = .ok done s' ↔
      ∃ t, xs.forM f s = .ok .unit t ∧ ys.forM f t = .ok done s' := by
  induction xs generalizing s with
  | nil =>
    constructor
    · intro run
      exact ⟨s, rfl, run⟩
    · rintro ⟨t, none, run⟩
      cases none
      exact run
  | cons x xs ih =>
    rw [List.cons_append, forM_cons_ok_iff]
    simp only [ih, forM_cons_ok_iff]
    constructor
    · rintro ⟨t, first, u, middle, rest⟩
      exact ⟨u, ⟨t, first, middle⟩, rest⟩
    · rintro ⟨u, ⟨t, first, middle⟩, rest⟩
      exact ⟨t, first, u, middle, rest⟩

theorem state_bind_of_ok {x : EStateM ε σ α} {f : α → EStateM ε σ β} {a : α} (run : x s = .ok a s') :
    (x >>= f) s = f a s' := by
  change EStateM.bind x f s = _
  unfold EStateM.bind
  rw [run]

theorem state_get_bind {f : σ → EStateM ε σ β} : (get >>= f) s = f s s := rfl

theorem state_modify_bind {change : σ → σ} {f : PUnit → EStateM ε σ β} :
    (modify change >>= f) s = f .unit (change s) := rfl

theorem state_bind_of_error {x : EStateM ε σ α} {f : α → EStateM ε σ β} {e : ε}
    (run : x s = .error e s') : (x >>= f) s = .error e s' := by
  change EStateM.bind x f s = _
  unfold EStateM.bind
  rw [run]

theorem state_ite_bind_of_ok {c : Prop} [Decidable c] {x y : EStateM ε σ α}
    {f : α → EStateM ε σ β} {a : α} (run : (if c then x else y) s = .ok a s') :
    (if c then x >>= f else y >>= f) s = f a s' := by
  split at run
  · rename_i yes
    rw [if_pos yes]
    exact state_bind_of_ok run
  · rename_i no
    rw [if_neg no]
    exact state_bind_of_ok run

theorem ok_of_succeeds {x : EStateM ε σ α} (ok : succeeds x s = true) :
    ∃ a s', x s = .ok a s' := by
  unfold succeeds at ok
  cases run : x s with
  | ok a s' => exact ⟨a, s', rfl⟩
  | error e s' =>
    rw [run] at ok
    cases ok

theorem state_pure_ok_iff {a : β} :
    (pure a : EStateM ε σ β) s = .ok b s' ↔ a = b ∧ s = s' := by
  change EStateM.Result.ok a s = EStateM.Result.ok b s' ↔ _
  simp

theorem state_ite_bind_ok_iff {c : Prop} [Decidable c] {x y : EStateM ε σ α}
    {f : α → EStateM ε σ β} :
    (if c then x >>= f else y >>= f) s = .ok b s' ↔
      ∃ a t, (if c then x else y) s = .ok a t ∧ f a t = .ok b s' := by
  split <;> exact state_bind_ok_iff

theorem state_when_bind_of_ok {c : Prop} [Decidable c] {x : EStateM ε σ Unit}
    {f : Unit → EStateM ε σ β} {t : σ} (run : (if c then x else pure ()) s = .ok () t) :
    (if c then x >>= f else f ()) s = f () t := by
  split at run
  · rename_i holds
    rw [if_pos holds, state_bind_of_ok run]
  · rename_i fails
    rw [if_neg fails]
    cases run
    rfl

theorem state_when_bind_ok_iff {c : Prop} [Decidable c] {x : EStateM ε σ Unit}
    {f : Unit → EStateM ε σ β} : (if c then x >>= f else f ()) s = .ok b s' ↔
      ∃ t, (if c then x else pure ()) s = .ok () t ∧ f () t = .ok b s' := by
  split
  · rw [state_bind_ok_iff]
    constructor
    · rintro ⟨_, t, first, rest⟩
      exact ⟨t, first, rest⟩
    · rintro ⟨t, first, rest⟩
      exact ⟨_, t, first, rest⟩
  · constructor
    · intro run
      exact ⟨s, rfl, run⟩
    · rintro ⟨t, none, rest⟩
      cases none
      exact rest

/-- The property holds after the computation if it held before it, also when it fails. -/
def Keeps (I : σ → Prop) (x : EStateM ε σ α) : Prop :=
  ∀ s, I s → match x s with
    | .ok _ s' => I s'
    | .error _ s' => I s'

variable {I : σ → Prop}

theorem keeps_pure (a : α) : Keeps I (pure a : EStateM ε σ α) := fun _ holds => holds

theorem keeps_throw (e : ε) : Keeps I (throw e : EStateM ε σ α) := fun _ holds => holds

theorem keeps_bind {x : EStateM ε σ α} {f : α → EStateM ε σ β} (first : Keeps I x)
    (next : ∀ a, Keeps I (f a)) : Keeps I (x >>= f) := by
  intro s holds
  have middle := first s holds
  change match EStateM.bind x f s with | .ok _ s' => I s' | .error _ s' => I s'
  unfold EStateM.bind
  cases run : x s with
  | ok a s' =>
    rw [run] at middle
    exact next a s' middle
  | error e s' =>
    rw [run] at middle
    exact middle

theorem keeps_forM {f : α → EStateM ε σ PUnit} (each : ∀ a, Keeps I (f a)) (xs : List α) :
    Keeps I (xs.forM f) := by
  induction xs with
  | nil => exact keeps_pure _
  | cons x xs ih => exact keeps_bind (each x) fun _ => ih

theorem holds_of_keeps {x : EStateM ε σ α} {a : α} (keeps : Keeps I x) (holds : I s)
    (run : x s = .ok a s') : I s' := by
  have after := keeps s holds
  rw [run] at after
  exact after

end State
end ClassHooks
