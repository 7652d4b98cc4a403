import ClassHooks.Proofs.Pool.Growth

/-!
Computations on a pool, made once more. What was added is found later, and what found no room then
finds none later, so that a second run in a later pool answers as the first did and adds nothing.
-/
namespace ClassHooks

namespace Pool

/-- What comes of the first pool later: constants are found where they were, and a constant for
which there was no room is missing for ever. -/
structure Later (p q : Pool) : Prop where
  found : ∀ (c : Constant) (i : UInt16), p.lookup[c]? = some i → q.lookup[c]? = some i
  size : p.size ≤ q.size
  missing : ∀ c : Constant, p.lookup[c]? = none → 65535 < p.size + c.slots → q.lookup[c]? = none

theorem later_refl (p : Pool) : p.Later p :=
  ⟨fun _ _ here => here, Nat.le_refl _, fun _ here _ => here⟩

theorem later_trans {p q r : Pool} (one : p.Later q) (two : q.Later r) : p.Later r where
  found c i here := two.found c i (one.found c i here)
  size := Nat.le_trans one.size two.size
  missing c absent full :=
    two.missing c (one.missing c absent full) (by have := one.size; omega)

theorem later_append {p : Pool} {c : Constant} (room : p.size + c.slots ≤ 65535) :
    p.Later (p.append c) := by
  refine ⟨fun c' i here => ?_, by rw [size_append]; omega, fun c' absent full => ?_⟩
  · rw [lookup_append, Std.TreeMap.getElem?_insertIfNew, if_neg, here]
    rintro ⟨same, new⟩
    obtain rfl := Std.compare_eq_iff_eq.mp same
    exact new (Std.TreeMap.mem_iff_isSome_getElem?.mpr (by simp [here]))
  · rw [lookup_append, Std.TreeMap.getElem?_insertIfNew, if_neg, absent]
    rintro ⟨same, -⟩
    obtain rfl := Std.compare_eq_iff_eq.mp same
    omega

theorem add_of_found {p : Pool} {c : Constant} {i : UInt16} (found : p.lookup[c]? = some i) :
    add c p = .ok i p := by
  rw [add, found]

theorem add_of_room {p : Pool} {c : Constant} (absent : p.lookup[c]? = none)
    (room : p.size + c.slots ≤ 65535) : add c p = .ok (UInt16.ofNat p.size) (p.append c) := by
  rw [add, absent]
  exact if_pos room

theorem add_of_full {p : Pool} {c : Constant} (absent : p.lookup[c]? = none)
    (full : 65535 < p.size + c.slots) : add c p = .error (.malformed .poolFull) p := by
  rw [add, absent]
  exact if_neg (Nat.not_le_of_lt full)

/-- The three ways in which an addition goes. -/
theorem add_cases (c : Constant) (p : Pool) :
    (∃ i, p.lookup[c]? = some i) ∨ (p.lookup[c]? = none ∧ p.size + c.slots ≤ 65535) ∨
      (p.lookup[c]? = none ∧ 65535 < p.size + c.slots) := by
  cases p.lookup[c]? with
  | some i => exact .inl ⟨i, rfl⟩
  | none => exact .inr ((Nat.lt_or_ge 65535 _).symm.imp (⟨rfl, ·⟩) (⟨rfl, ·⟩))

theorem keeps_later {origin : Pool} (c : Constant) : Keeps origin.Later (add c) := by
  intro p later
  rcases add_cases c p with ⟨i, found⟩ | ⟨absent, room⟩ | ⟨absent, full⟩
  · rw [add_of_found found]
    exact later
  · rw [add_of_room absent room]
    exact later_trans later (later_append room)
  · rw [add_of_full absent full]
    exact later

end Pool

/-- From this state on, a computation on states with a pool only adds to the pool, and in every later
pool it ends as it did, with nothing added. -/
def RepeatsAt (view : σ → Pool) (put : Pool → σ → σ) (x : EStateM ε σ α) (s : σ) : Prop :=
  match x s with
  | .ok a s' => (view s).Later (view s') ∧
      ∀ q, (view s').Later q → x (put q s) = .ok a (put q s')
  | .error e s' => (view s).Later (view s') ∧
      ∀ q, (view s').Later q → x (put q s) = .error e (put q s')

def Repeats (view : σ → Pool) (put : Pool → σ → σ) (x : EStateM ε σ α) : Prop :=
  ∀ s, RepeatsAt view put x s

def PoolM.Repeats (x : PoolM α) : Prop := ClassHooks.Repeats id (fun q _ => q) x

section Repeats
variable {σ ε α β : Type} {view : σ → Pool} {put : Pool → σ → σ}

theorem repeats_ok {x : EStateM ε σ α} (repeats : Repeats view put x) {s s' : σ} {a : α}
    (run : x s = .ok a s') : (view s).Later (view s') ∧
      ∀ q, (view s').Later q → x (put q s) = .ok a (put q s') := by
  have both := repeats s
  unfold RepeatsAt at both
  rw [run] at both
  exact both

theorem repeats_error {x : EStateM ε σ α} (repeats : Repeats view put x) {s s' : σ} {e : ε}
    (run : x s = .error e s') : (view s).Later (view s') ∧
      ∀ q, (view s').Later q → x (put q s) = .error e (put q s') := by
  have both := repeats s
  unfold RepeatsAt at both
  rw [run] at both
  exact both

theorem repeatsAt_of_ok {x : EStateM ε σ α} {s t : σ} {a : α} (run : x s = .ok a t)
    (grown : (view s).Later (view t))
    (again : ∀ q, (view t).Later q → x (put q s) = .ok a (put q t)) : RepeatsAt view put x s := by
  unfold RepeatsAt
  rw [run]
  exact ⟨grown, again⟩

theorem repeatsAt_of_error {x : EStateM ε σ α} {s t : σ} {e : ε} (run : x s = .error e t)
    (grown : (view s).Later (view t))
    (again : ∀ q, (view t).Later q → x (put q s) = .error e (put q t)) :
    RepeatsAt view put x s := by
  unfold RepeatsAt
  rw [run]
  exact ⟨grown, again⟩

theorem repeats_pure (a : α) : Repeats view put (pure a : EStateM ε σ α) :=
  fun _ => ⟨Pool.later_refl _, fun _ _ => rfl⟩

theorem repeats_throw (e : ε) : Repeats view put (throw e : EStateM ε σ α) :=
  fun _ => ⟨Pool.later_refl _, fun _ _ => rfl⟩

/-- A computation that goes on as another from a state behind. -/
theorem repeatsAt_step {x y : EStateM ε σ α} {s t : σ} (here : x s = y t)
    (grown : (view s).Later (view t))
    (again : ∀ q, (view t).Later q → x (put q s) = y (put q t)) (rest : RepeatsAt view put y t) :
    RepeatsAt view put x s := by
  unfold RepeatsAt at rest ⊢
  rw [here]
  cases run : y t with
  | ok a u =>
    rw [run] at rest
    refine ⟨Pool.later_trans grown rest.1, ?_⟩
    intro q later
    rw [again q (Pool.later_trans rest.1 later)]
    exact rest.2 q later
  | error e u =>
    rw [run] at rest
    refine ⟨Pool.later_trans grown rest.1, ?_⟩
    intro q later
    rw [again q (Pool.later_trans rest.1 later)]
    exact rest.2 q later

theorem repeats_bind {x : EStateM ε σ α} {f : α → EStateM ε σ β} (first : Repeats view put x)
    (next : ∀ a, Repeats view put (f a)) : Repeats view put (x >>= f) := by
  intro s
  have here := first s
  unfold RepeatsAt at here
  cases run : x s with
  | ok a t =>
    rw [run] at here
    refine repeatsAt_step (state_bind_of_ok run) here.1 ?_ (next a t)
    intro q later
    exact state_bind_of_ok (here.2 q later)
  | error e t =>
    rw [run] at here
    refine repeatsAt_of_error (state_bind_of_error run) here.1 ?_
    intro q later
    exact state_bind_of_error (here.2 q later)

end Repeats

namespace Pool

theorem repeats_add (c : Constant) : PoolM.Repeats (add c) := by
  intro p
  rcases add_cases c p with ⟨i, found⟩ | ⟨absent, room⟩ | ⟨absent, full⟩
  · refine repeatsAt_of_ok (add_of_found found) (later_refl p) ?_
    intro q later
    exact add_of_found (later.found c i found)
  · have here : (p.append c).lookup[c]? = some (UInt16.ofNat p.size) := by
      rw [lookup_append, Std.TreeMap.getElem?_insertIfNew, if_pos]
      · rfl
      · refine ⟨Std.compare_eq_iff_eq.mpr rfl, fun old => ?_⟩
        rw [Std.TreeMap.mem_iff_isSome_getElem?, absent] at old
        cases old
    refine repeatsAt_of_ok (add_of_room absent room) (later_append room) ?_
    intro q later
    exact add_of_found (later.found c _ here)
  · refine repeatsAt_of_error (add_of_full absent full) (later_refl p) ?_
    intro q later
    have grown : p.size ≤ q.size := later.size
    exact add_of_full (later.missing c absent full) (by omega)

theorem repeats_addUtf8 (text : String) : PoolM.Repeats (addUtf8 text) := repeats_add _

theorem repeats_addClass (name : String) : PoolM.Repeats (addClass name) :=
  repeats_bind (repeats_addUtf8 name) fun _ => repeats_add _

theorem repeats_addString (text : String) : PoolM.Repeats (addString text) :=
  repeats_bind (repeats_addUtf8 text) fun _ => repeats_add _

theorem repeats_addInteger (value : Int32) : PoolM.Repeats (addInteger value) := repeats_add _

theorem repeats_addNameAndType (name descriptor : String) :
    PoolM.Repeats (addNameAndType name descriptor) :=
  repeats_bind (repeats_addUtf8 name) fun _ =>
    repeats_bind (repeats_addUtf8 descriptor) fun _ => repeats_add _

theorem repeats_addMethodRef (owner name descriptor : String) :
    PoolM.Repeats (addMethodRef owner name descriptor) :=
  repeats_bind (repeats_addClass owner) fun _ =>
    repeats_bind (repeats_addNameAndType name descriptor) fun _ => repeats_add _

theorem repeats_addFieldRef (owner name descriptor : String) :
    PoolM.Repeats (addFieldRef owner name descriptor) :=
  repeats_bind (repeats_addClass owner) fun _ =>
    repeats_bind (repeats_addNameAndType name descriptor) fun _ => repeats_add _

end Pool
end ClassHooks
