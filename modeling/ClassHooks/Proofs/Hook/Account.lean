import ClassHooks.Proofs.Hook.Tracking
import ClassHooks.Proofs.Pool.Resolving

/-!
The emitter keeps its account: whatever operations are performed, the kinds that it has on its stack
are those of the values that the hook has put there, and its depths are their slots.
-/
namespace ClassHooks

/-- The account of an emitter is right so far. -/
structure Emission.Tracked (final : Pool) (site : Site) (s : Emission) : Prop where
  sound : s.pool.Sound
  event : s.emitter.event = site.event
  base : s.emitter.base = site.base
  depth : s.emitter.depth.toNat = slotsOf id s.emitter.stack
  tracks : Tracks final site.base s.emitter.instructions.toList s.emitter.stack
    s.emitter.maxDepth.toNat

/-- Kinds are taken off the stack of the emitter, the first of them first. -/
structure Emission.Popped (s s' : Emission) (taken : List ValueKind) : Prop where
  pool : s'.pool = s.pool
  event : s'.emitter.event = s.emitter.event
  base : s'.emitter.base = s.emitter.base
  instructions : s'.emitter.instructions = s.emitter.instructions
  peak : s'.emitter.maxDepth = s.emitter.maxDepth
  stack : s.emitter.stack = taken ++ s'.emitter.stack
  depth : s.emitter.depth.toNat = slotsOf id s.emitter.stack →
    s'.emitter.depth.toNat = slotsOf id s'.emitter.stack

structure Emission.Pushed (s s' : Emission) (given : List ValueKind) : Prop where
  pool : s'.pool = s.pool
  event : s'.emitter.event = s.emitter.event
  base : s'.emitter.base = s.emitter.base
  instructions : s'.emitter.instructions = s.emitter.instructions
  stack : s'.emitter.stack = given ++ s.emitter.stack
  depths : s.emitter.depth.toNat = slotsOf id s.emitter.stack →
    slotsOf id s.emitter.stack ≤ s.emitter.maxDepth.toNat →
    s'.emitter.depth.toNat = slotsOf id s'.emitter.stack ∧
      s'.emitter.maxDepth.toNat = max s.emitter.maxDepth.toNat (slotsOf id s'.emitter.stack)

namespace EmitM
open Emission

theorem slotsOf_cons (k : ValueKind) (ks : List ValueKind) :
    slotsOf id (k :: ks) = k.slots + slotsOf id ks := by
  simp [slotsOf]

theorem popped_nothing (s : Emission) : Popped s s [] :=
  ⟨rfl, rfl, rfl, rfl, rfl, rfl, fun known => known⟩

theorem pushed_nothing (s : Emission) : Pushed s s [] := by
  refine ⟨rfl, rfl, rfl, rfl, rfl, fun known high => ⟨known, ?_⟩⟩
  omega

theorem slots_toNat (k : ValueKind) : (UInt16.ofNat k.slots).toNat = k.slots := by
  cases k <;> rfl

theorem popped_of_pop {k : ValueKind} {s s' : Emission} (run : pop k s = .ok () s') :
    Popped s s' [k] := by
  obtain ⟨pool, policy, event, base, stack, depth, peak, is⟩ := s
  obtain ⟨taken, t, dropped, run⟩ := state_bind_ok_iff.mp run
  cases dropped
  cases stack with
  | nil => cases run
  | cons own rest =>
    simp only [Emitter.top, List.head?_cons, List.tail_cons] at run
    by_cases same : own = k
    · subst same
      rw [if_pos rfl] at run
      cases run
      refine ⟨rfl, rfl, rfl, rfl, rfl, rfl, ?_⟩
      intro known
      change depth.toNat = slotsOf id (own :: rest) at known
      change (depth - UInt16.ofNat own.slots).toNat = slotsOf id rest
      rw [slotsOf_cons] at known
      rw [UInt16.toNat_sub_of_le, slots_toNat]
      · omega
      · rw [UInt16.le_iff_toNat_le, slots_toNat]
        omega
    · rw [if_neg same] at run
      cases run

theorem popped_append {s t u : Emission} {first second : List ValueKind} (one : Popped s t first)
    (two : Popped t u second) : Popped s u (first ++ second) where
  pool := two.pool.trans one.pool
  event := two.event.trans one.event
  base := two.base.trans one.base
  instructions := two.instructions.trans one.instructions
  peak := two.peak.trans one.peak
  stack := by rw [one.stack, two.stack, List.append_assoc]
  depth known := two.depth (one.depth known)

theorem popped_of_forM {ks : List ValueKind} {s s' : Emission} (run : ks.forM pop s = .ok () s') :
    Popped s s' ks := by
  induction ks generalizing s with
  | nil =>
    cases run
    exact popped_nothing _
  | cons k ks ih =>
    obtain ⟨_, t, first, rest⟩ := state_bind_ok_iff.mp run
    exact popped_append (popped_of_pop first) (ih rest)

theorem pushed_of_push {k : ValueKind} {s s' : Emission} (run : push k s = .ok () s') :
    Pushed s s' [k] := by
  obtain ⟨room, rfl⟩ := push_ok_iff.mp run
  refine ⟨rfl, rfl, rfl, rfl, rfl, ?_⟩
  intro known high
  have sum : (s.emitter.raised k).depth.toNat = slotsOf id (s.emitter.raised k).stack := by
    change (UInt16.ofNat _).toNat = slotsOf id (k :: s.emitter.stack)
    rw [UInt16.toNat_ofNat_of_lt' (Nat.lt_succ_of_le room), slotsOf_cons, known, Nat.add_comm]
  refine ⟨sum, ?_⟩
  rw [← sum]
  exact toNat_max _ _

theorem pushed_append {s t u : Emission} {first second : List ValueKind} (one : Pushed s t first)
    (two : Pushed t u second) : Pushed s u (second ++ first) := by
  refine ⟨two.pool.trans one.pool, two.event.trans one.event, two.base.trans one.base,
    two.instructions.trans one.instructions, ?_, ?_⟩
  · rw [two.stack, one.stack, List.append_assoc]
  · intro known high
    have grown : slotsOf id u.emitter.stack = slotsOf id second + slotsOf id t.emitter.stack := by
      rw [two.stack, slotsOf_append]
    obtain ⟨known₁, peak₁⟩ := one.depths known high
    obtain ⟨known₂, peak₂⟩ := two.depths known₁ (by omega)
    exact ⟨known₂, by omega⟩

theorem pushed_of_forM {ks : List ValueKind} {s s' : Emission}
    (run : ks.forM push s = .ok () s') : Pushed s s' ks.reverse := by
  induction ks generalizing s with
  | nil =>
    cases run
    exact pushed_nothing _
  | cons k ks ih =>
    obtain ⟨_, t, first, rest⟩ := state_bind_ok_iff.mp run
    rw [List.reverse_cons]
    exact pushed_append (pushed_of_push first) (ih rest)

theorem constant_ok {use : ConstantUse} {operation : PoolM UInt16} {s t : Emission} {index : UInt16}
    (run : constant use operation s = .ok index t) :
    ∃ q, operation s.pool = .ok index q ∧ t = ⟨q, s.emitter⟩ := by
  unfold constant at run
  cases added : operation s.pool with
  | ok i q =>
    simp only [added] at run
    cases run
    exact ⟨q, rfl, rfl⟩
  | error e q =>
    simp only [added] at run
    cases run

end EmitM

section Emitting
variable {final : Pool} {site : Site} {s t : Emission} {i : Instruction Label}

theorem low_of_tracks {base : Option ValueKind} {is : List (Instruction Label)}
    {own : List ValueKind} {peak : Nat} (tracks : Tracks final base is own peak) :
    slotsOf id own ≤ peak := by
  cases tracks with
  | start => exact Nat.le_refl 0
  | next => omega

theorem tracked_start {pool : Pool} (sound : pool.Sound) (name : String) :
    Emission.Tracked final site ⟨pool, Emitter.start name site⟩ :=
  ⟨sound, rfl, rfl, rfl, .start⟩

theorem tracked_pool (tracked : s.Tracked final site) {q : Pool} (sound : q.Sound) :
    Emission.Tracked final site ⟨q, s.emitter⟩ :=
  ⟨sound, tracked.event, tracked.base, tracked.depth, tracked.tracks⟩

theorem tracked_append (tracked : s.Tracked final site) (sound : t.pool.Sound)
    (event : t.emitter.event = s.emitter.event) (base : t.emitter.base = s.emitter.base)
    (instructions : t.emitter.instructions = s.emitter.instructions.push i)
    (depth : t.emitter.depth.toNat = slotsOf id t.emitter.stack)
    (peak : t.emitter.maxDepth.toNat =
      max s.emitter.maxDepth.toNat (slotsOf id t.emitter.stack))
    (moves : Moves final site.base i s.emitter.stack t.emitter.stack) (harmless : i.Harmless) :
    t.Tracked final site := by
  refine ⟨sound, event.trans tracked.event, base.trans tracked.base, depth, ?_⟩
  rw [instructions, Array.toList_push, peak]
  exact .next tracked.tracks moves harmless

theorem tracked_emit (tracked : s.Tracked final site) {u : Emission} {q : Pool}
    {taken given : List ValueKind} (popped : s.Popped u taken) (sound : q.Sound)
    (pushed : Emission.Pushed ⟨q, u.emitter.append i⟩ t given)
    (moves : Moves final site.base i s.emitter.stack t.emitter.stack) (harmless : i.Harmless) :
    t.Tracked final site := by
  have low := low_of_tracks tracked.tracks
  have lower : slotsOf id u.emitter.stack ≤ slotsOf id s.emitter.stack := by
    rw [popped.stack, slotsOf_append]
    omega
  have top : slotsOf id u.emitter.stack ≤ u.emitter.maxDepth.toNat := by
    rw [popped.peak]
    omega
  obtain ⟨depth, peak⟩ := pushed.depths (popped.depth tracked.depth) top
  have instructions : t.emitter.instructions = s.emitter.instructions.push i := by
    rw [pushed.instructions, ← popped.instructions]
    rfl
  have same : t.emitter.maxDepth.toNat =
      max s.emitter.maxDepth.toNat (slotsOf id t.emitter.stack) := by
    rw [peak, ← popped.peak]
    rfl
  refine tracked_append tracked ?_ ?_ ?_ instructions depth same moves harmless
  · rw [pushed.pool]
    exact sound
  · exact pushed.event.trans popped.event
  · exact pushed.base.trans popped.base

theorem tracked_takes (tracked : s.Tracked final site) {u : Emission} {q : Pool}
    {taken given : List ValueKind} (popped : s.Popped u taken) (sound : q.Sound)
    (pushed : Emission.Pushed ⟨q, u.emitter.append i⟩ t given)
    (takes : Takes id final i taken given) (harmless : i.Harmless) : t.Tracked final site := by
  refine tracked_emit tracked popped sound pushed ?_ harmless
  have before : s.emitter.stack = taken ++ u.emitter.stack := popped.stack
  have after : t.emitter.stack = given ++ u.emitter.stack := pushed.stack
  rw [before, after]
  exact .acts takes

end Emitting
end ClassHooks
