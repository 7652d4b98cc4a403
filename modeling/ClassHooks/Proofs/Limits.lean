import ClassHooks.Proofs.Body.Encoding
import ClassHooks.ClassFile

/-!
Failures that come of sizes alone: a count or a length that its field cannot hold, code that is too
long or in which a branch does not reach, and a stack that is too deep. Writing fails for nothing
else.
-/
namespace ClassHooks

def Error.IsLimit : Error → Prop
  | .malformed (.tooMany _ _) => True
  | .malformed (.tooLong _ _) => True
  | .malformed (.methodTooLong _) => True
  | .invalidBranch (.outOfReach _ _ _ _) => True
  | .notSupported (.operandStack _ _ _ _) => True
  | .inMethod _ _ source => source.IsLimit
  | _ => False

/-- The computation has a result with the property, or fails for a limit. -/
def Limited (x : Except Error α) (Q : α → Prop) : Prop :=
  match x with
  | .ok a => Q a
  | .error e => e.IsLimit

section Limited
variable {α β : Type} {x : Except Error α} {Q : α → Prop}

theorem limited_of_ok {a : α} (run : x = .ok a) (holds : Q a) : Limited x Q := by
  rw [run]
  exact holds

theorem limited_weaken {R : α → Prop} (limited : Limited x Q) (weaker : ∀ a, Q a → R a) :
    Limited x R := by
  cases x with
  | ok a => exact weaker a limited
  | error e => exact limited

theorem limited_bind {f : α → Except Error β} {R : β → Prop} (first : Limited x Q)
    (next : ∀ a, x = .ok a → Q a → Limited (f a) R) : Limited (x >>= f) R := by
  cases x with
  | ok a => exact next a rfl first
  | error e => exact first

theorem limited_mapM {f : α → Except Error β} {xs : List α}
    (each : ∀ a ∈ xs, Limited (f a) fun _ => True) : Limited (xs.mapM f) fun _ => True := by
  cases run : xs.mapM f with
  | ok ys => trivial
  | error e =>
    obtain ⟨a, member, failed⟩ := error_of_mapM run
    have limited := each a member
    rw [failed] at limited
    exact limited

end Limited

section Writing

theorem limited_count (what : Counted) (n : Nat) :
    Limited (Bytes.countField what n) fun _ => True := by
  unfold Bytes.countField
  split <;> trivial

theorem limited_length (what : Measured) (n : Nat) :
    Limited (Bytes.lengthField what n) fun _ => True := by
  unfold Bytes.lengthField
  split <;> trivial

theorem Attribute.limited_write (a : Attribute) : Limited a.write fun _ => True :=
  limited_bind (limited_length _ _) fun _ _ _ => trivial

theorem Attribute.limited_writeAll (as : List Attribute) : Limited (writeAll as) fun _ => True :=
  limited_bind (limited_count _ _) fun _ _ _ =>
    limited_bind (limited_mapM fun a _ => a.limited_write) fun _ _ _ => trivial

theorem Member.limited_write (m : Member) : Limited m.write fun _ => True :=
  limited_bind (Attribute.limited_writeAll _) fun _ _ _ => trivial

theorem Constant.limited_write (c : Constant) : Limited c.write fun _ => True := by
  cases c with
  | utf8 bytes => exact limited_bind (limited_count _ _) fun _ _ _ => trivial
  | _ => trivial

theorem Pool.limited_write (p : Pool) : Limited p.write fun _ => True :=
  limited_bind (limited_count _ _) fun _ _ _ =>
    limited_bind (limited_mapM fun c _ => c.limited_write) fun _ _ _ => trivial

theorem ClassFile.limited_write (c : ClassFile) : Limited c.write fun _ => True :=
  limited_bind c.pool.limited_write fun _ _ _ => limited_bind (limited_count _ _) fun _ _ _ =>
    limited_bind (limited_count _ _) fun _ _ _ =>
      limited_bind (limited_mapM fun m _ => m.limited_write) fun _ _ _ =>
        limited_bind (limited_count _ _) fun _ _ _ =>
          limited_bind (limited_mapM fun m _ => m.limited_write) fun _ _ _ =>
            limited_bind (Attribute.limited_writeAll _) fun _ _ _ => trivial

theorem CodeAttribute.limited_write {c : CodeAttribute}
    (admits : admitsLength c.code.length = true) : Limited c.write fun _ => True := by
  unfold CodeAttribute.write
  rw [admits]
  exact limited_bind (limited_length _ _) fun _ _ _ => limited_bind (limited_count _ _) fun _ _ _ =>
    limited_bind (Attribute.limited_writeAll _) fun _ _ _ => trivial

theorem LineEntry.limited_writeTable (entries : List LineEntry) :
    Limited (writeTable entries) fun _ => True :=
  limited_bind (limited_count _ _) fun _ _ _ => trivial

theorem VariableEntry.limited_writeTable (entries : List VariableEntry) :
    Limited (writeTable entries) fun _ => True :=
  limited_bind (limited_count _ _) fun _ _ _ => trivial

theorem Frame.limited_writeTable {frames : List (Frame UInt16)}
    (writable : ∀ f ∈ frames, Writable f.kind)
    (rising : frames.Pairwise fun f g => f.position < g.position) :
    Limited (writeTable frames) fun _ => True := by
  by_cases few : frames.length < 65536
  · obtain ⟨payload, written⟩ := writes few writable rising
    exact limited_of_ok written trivial
  · unfold writeTable Bytes.countField
    rw [if_neg few]
    trivial

end Writing

/-- In this pool the computation fails for a limit, or has a result with the property and leaves the
pool as it is. -/
def PoolM.Stays (x : PoolM α) (pool : Pool) (Q : α → Prop) : Prop :=
  match x pool with
  | .ok a q => q = pool ∧ Q a
  | .error e _ => e.IsLimit

section Stays
variable {α β : Type} {x : PoolM α} {pool : Pool} {Q : α → Prop}

theorem stays_of_ok {a : α} (run : x pool = .ok a pool) (holds : Q a) : x.Stays pool Q := by
  unfold PoolM.Stays
  rw [run]
  exact ⟨rfl, holds⟩

theorem stays_of_error {e : Error} {q : Pool} (run : x pool = .error e q) (limit : e.IsLimit) :
    x.Stays pool Q := by
  unfold PoolM.Stays
  rw [run]
  exact limit

theorem stays_ok (stays : x.Stays pool Q) {a : α} {q : Pool} (run : x pool = .ok a q) :
    q = pool ∧ Q a := by
  unfold PoolM.Stays at stays
  rw [run] at stays
  exact stays

theorem stays_weaken {R : α → Prop} (stays : x.Stays pool Q) (weaker : ∀ a, Q a → R a) :
    x.Stays pool R := by
  unfold PoolM.Stays at stays ⊢
  cases run : x pool with
  | ok a q =>
    rw [run] at stays
    exact ⟨stays.1, weaker a stays.2⟩
  | error e q =>
    rw [run] at stays
    exact stays

theorem stays_pure {a : α} (holds : Q a) : PoolM.Stays (pure a) pool Q := ⟨rfl, holds⟩

theorem stays_get : PoolM.Stays get pool (pool = ·) := ⟨rfl, rfl⟩

theorem stays_lift {result : Except Error α} (limited : Limited result Q) :
    (PoolM.lift result).Stays pool fun a => result = .ok a ∧ Q a := by
  cases result with
  | ok a => exact ⟨rfl, rfl, limited⟩
  | error e => exact limited

theorem stays_bind {f : α → PoolM β} {R : β → Prop} (first : x.Stays pool Q)
    (next : ∀ a, x pool = .ok a pool → Q a → (f a).Stays pool R) :
    PoolM.Stays (x >>= f) pool R := by
  unfold PoolM.Stays at first
  cases run : x pool with
  | ok a q =>
    rw [run] at first
    obtain ⟨rfl, holds⟩ := first
    have rest := next a run holds
    unfold PoolM.Stays at rest ⊢
    rw [state_bind_of_ok run]
    exact rest
  | error e q =>
    rw [run] at first
    exact stays_of_error (state_bind_of_error run) first

end Stays
end ClassHooks
