import ClassHooks.Proofs.Pool.Codec
import ClassHooks.Proofs.Pool.Replay

/-!
What holds of a pool after any history of calls, granted and refused ones: the slots and the lookup
stay in step, a constant is added once and keeps its slot, and calls made again are answered as they
were.
-/
namespace ClassHooks
namespace Pool

def Fresh (p : Pool) : Prop := p = empty ∨ ∃ c c', Pool.read c = .ok p c'

inductive Addition where
  | constant (c : Constant)
  | utf8 (text : String)
  | classRef (name : String)
  | string (text : String)
  | integer (value : Int32)
  | nameAndType (name descriptor : String)
  | methodRef (owner name descriptor : String)
  | fieldRef (owner name descriptor : String)
  deriving DecidableEq, Repr

namespace Addition

def perform : Addition → PoolM UInt16
  | constant c => add c
  | utf8 text => addUtf8 text
  | classRef name => addClass name
  | string text => addString text
  | integer value => addInteger value
  | nameAndType name descriptor => addNameAndType name descriptor
  | methodRef owner name descriptor => addMethodRef owner name descriptor
  | fieldRef owner name descriptor => addFieldRef owner name descriptor

theorem adds_usable {a : Addition} (usable : a ≠ .constant .unusable) :
    a.perform.AddsUsable := by
  cases a with
  | constant c => exact usable_add fun same => usable (same ▸ rfl)
  | utf8 text => exact usable_addUtf8 text
  | classRef name => exact usable_addClass name
  | string text => exact usable_addString text
  | integer value => exact usable_addInteger value
  | nameAndType name descriptor => exact usable_addNameAndType name descriptor
  | methodRef owner name descriptor => exact usable_addMethodRef owner name descriptor
  | fieldRef owner name descriptor => exact usable_addFieldRef owner name descriptor

theorem repeats_perform (a : Addition) : PoolM.Repeats a.perform := by
  cases a with
  | constant c => exact repeats_add c
  | utf8 text => exact repeats_addUtf8 text
  | classRef name => exact repeats_addClass name
  | string text => exact repeats_addString text
  | integer value => exact repeats_addInteger value
  | nameAndType name descriptor => exact repeats_addNameAndType name descriptor
  | methodRef owner name descriptor => exact repeats_addMethodRef owner name descriptor
  | fieldRef owner name descriptor => exact repeats_addFieldRef owner name descriptor

end Addition

/-- Calls made one after the other, and what has become of the pool. Only the calls that were
granted are listed, each with its answer; a refused one may have added parts. -/
inductive History (origin : Pool) : List (Addition × UInt16) → Pool → Prop where
  | none : History origin [] origin
  | granted {calls : List (Addition × UInt16)} {p q : Pool} {a : Addition} {i : UInt16}
      (before : History origin calls p) (usable : a ≠ .constant .unusable)
      (run : a.perform p = .ok i q) : History origin (calls ++ [(a, i)]) q
  | refused {calls : List (Addition × UInt16)} {p q : Pool} {a : Addition} {e : Error}
      (before : History origin calls p) (usable : a ≠ .constant .unusable)
      (run : a.perform p = .error e q) : History origin calls q

/-- The slots and the lookup are in step. -/
structure Represents (p : Pool) : Prop where
  small : p.size ≤ 65535
  /-- Slot zero is unusable, and the slot behind a constant of eight bytes; all others are used. -/
  filled : ∀ i : Nat, p.entries[i]? = some .unusable ↔
    i = 0 ∨ ∃ (j : Nat) (c : Constant), i = j + 1 ∧ p.entries[j]? = some c ∧ c.isWide = true
  /-- The first slot of each constant that is there. -/
  indexed : ∀ c : Constant, c ≠ .unusable →
    p.lookup[c]?.map UInt16.toNat = p.entries.toList.idxOf? c
  blank : p.lookup[Constant.unusable]? = none

/-- Adding the constant adds it once, or fails for want of room and adds nothing. -/
structure AddsOnce (p : Pool) (c : Constant) : Prop where
  answer : ∀ i q, add c p = .ok i q → q.entries[i.toNat]? = some c
  known : c ∈ p.entries → ∃ i, add c p = .ok i p
  new : c ∉ p.entries → ∀ i q, add c p = .ok i q → q.entries.toList = p.entries.toList ++ c.held
  refusal : ∀ e q, add c p = .error e q → e = .malformed .poolFull ∧ q = p
  refused_iff : (∃ e q, add c p = .error e q) ↔ c ∉ p.entries ∧ 65535 < p.size + c.slots

section Held
variable {c : Constant}

theorem held_unusable_iff (usable : c ≠ .unusable) (i : Nat) :
    c.held[i]? = some .unusable ↔ i = 1 ∧ c.isWide = true := by
  unfold Constant.held
  split
  · rename_i wide
    rcases i with _ | _ | i <;> simp [usable, wide]
  · rename_i narrow
    rcases i with _ | i <;> simp [usable, narrow]

theorem eq_of_held_wide {i : Nat} {k : Constant} (here : c.held[i]? = some k)
    (wide : k.isWide = true) : i = 0 ∧ k = c := by
  unfold Constant.held at here
  split at here
  · rcases i with _ | _ | i
    · simp at here
      exact ⟨rfl, here.symm⟩
    · simp at here
      subst here
      cases wide
    · simp at here
  · rcases i with _ | i
    · simp at here
      exact ⟨rfl, here.symm⟩
    · simp at here

theorem idxOf_held_self (c : Constant) : c.held.findIdx? (· == c) = some 0 := by
  unfold Constant.held
  split <;> simp [List.findIdx?_cons]

theorem idxOf_held_other {c' : Constant} (differ : c ≠ c') (usable : c' ≠ .unusable) :
    c.held.findIdx? (· == c') = none := by
  rw [List.findIdx?_eq_none_iff]
  unfold Constant.held
  split <;> simp [differ, usable.symm]

end Held

theorem represents_empty : empty.Represents where
  small := by decide
  filled i := by
    rcases i with _ | _ | i
    · simp [empty]
    · simp [empty, Constant.isWide]
    · simp [empty]
  indexed c usable := by
    have absent : c ∉ empty.entries.toList := by simpa [empty] using usable
    rw [List.idxOf?_eq_none_iff.mpr absent]
    simp [empty]
  blank := by simp [empty]

section Represents
variable {p : Pool} (rep : p.Represents)
include rep

theorem lookup_eq_none_iff {c : Constant} (usable : c ≠ .unusable) :
    p.lookup[c]? = none ↔ c ∉ p.entries := by
  rw [← Option.map_eq_none_iff (f := UInt16.toNat), rep.indexed c usable,
    List.idxOf?_eq_none_iff, Array.mem_toList_iff]

theorem sound_of_represents : p.Sound := by
  refine ⟨rep.small, fun c i found => ?_⟩
  have usable : c ≠ .unusable := by
    rintro rfl
    rw [rep.blank] at found
    cases found
  have first := rep.indexed c usable
  rw [found, Option.map_some] at first
  obtain ⟨inside, here, _⟩ := List.idxOf?_eq_some_iff.mp first.symm
  rw [← Array.getElem?_toList, List.getElem?_eq_getElem inside, here]

theorem positive_of_represents : 0 < p.size := by
  have zero := (rep.filled 0).mpr (.inl rfl)
  exact (Array.getElem?_eq_some_iff.mp zero).choose

theorem narrow_last {c : Constant} (last : p.entries[p.size - 1]? = some c) : c.isWide = false := by
  by_contra wide
  have positive := positive_of_represents rep
  have behind := (rep.filled p.size).mpr
    (.inr ⟨p.size - 1, c, by omega, last, by simpa using wide⟩)
  obtain ⟨inside, _⟩ := Array.getElem?_eq_some_iff.mp behind
  exact absurd inside (Nat.lt_irrefl _)

theorem filled_append {c : Constant} (usable : c ≠ .unusable) (i : Nat) :
    (p.append c).entries[i]? = some .unusable ↔ i = 0 ∨ ∃ (j : Nat) (k : Constant),
      i = j + 1 ∧ (p.append c).entries[j]? = some k ∧ k.isWide = true := by
  have positive := positive_of_represents rep
  have old : ∀ i, i < p.size → (p.append c).entries[i]? = p.entries[i]? := by
    intro i inside
    have here : p.entries[i]? = some p.entries[i] := Array.getElem?_eq_getElem inside
    rw [here]
    exact grows_append c i _ here
  have new : ∀ i, (p.append c).entries[p.size + i]? = c.held[i]? := by
    intro i
    have length : p.entries.toList.length = p.size := Array.length_toList
    rw [← Array.getElem?_toList, toList_append, List.getElem?_append_right (by omega), length,
      Nat.add_sub_cancel_left]
  rcases Nat.lt_or_ge i p.size with inside | outside
  · rw [old i inside, rep.filled i]
    refine or_congr_right (exists_congr fun j => exists_congr fun k => and_congr_right ?_)
    intro behind
    rw [old j (by omega)]
  · obtain ⟨n, rfl⟩ := Nat.exists_eq_add_of_le outside
    rw [new n, held_unusable_iff usable]
    constructor
    · rintro ⟨rfl, wide⟩
      exact .inr ⟨p.size, c, rfl, append_holds c, wide⟩
    · rintro (zero | ⟨j, k, behind, here, wide⟩)
      · omega
      · rcases Nat.lt_or_ge j p.size with inside | outside
        · -- The slot before the new one would have to be the last of the old.
          rw [old j inside, show j = p.size - 1 by omega] at here
          rw [narrow_last rep here] at wide
          cases wide
        · obtain ⟨m, rfl⟩ := Nat.exists_eq_add_of_le outside
          rw [new m] at here
          obtain ⟨rfl, rfl⟩ := eq_of_held_wide here wide
          exact ⟨by omega, wide⟩

theorem indexed_append {c c' : Constant} (usable : c' ≠ .unusable) :
    (p.append c).lookup[c']?.map UInt16.toNat = (p.append c).entries.toList.idxOf? c' := by
  have length : p.entries.toList.length = p.size := Array.length_toList
  have first : p.lookup[c']?.map UInt16.toNat = p.entries.toList.findIdx? (· == c') :=
    rep.indexed c' usable
  have index : (UInt16.ofNat p.entries.size).toNat = p.size :=
    UInt16.toNat_ofNat_of_lt' (by have := rep.small; change p.size < 65536; omega)
  rw [lookup_append, Std.TreeMap.getElem?_insertIfNew, toList_append]
  unfold List.idxOf?
  rw [List.findIdx?_append, ← first, length]
  simp only [Std.compare_eq_iff_eq, Std.TreeMap.mem_iff_isSome_getElem?]
  by_cases same : c = c'
  · subst same
    rw [idxOf_held_self]
    cases p.lookup[c]? with
    | none => simp [index]
    | some i => simp
  · rw [if_neg fun both => same both.1, idxOf_held_other same usable, Option.map_none,
      Option.or_none]

theorem represents_append {c : Constant} (usable : c ≠ .unusable)
    (room : p.size + c.slots ≤ 65535) : (p.append c).Represents := by
  refine ⟨?_, filled_append rep usable, fun c' => indexed_append rep, ?_⟩
  · rw [size_append]
    exact room
  · rw [lookup_append, Std.TreeMap.getElem?_insertIfNew, if_neg, rep.blank]
    rintro ⟨same, -⟩
    exact usable (Std.compare_eq_iff_eq.mp same)

theorem represents_foldl {cs : List Constant} (all : ∀ c ∈ cs, c ≠ .unusable)
    (room : (cs.foldl append p).size ≤ 65535) : (cs.foldl append p).Represents := by
  induction cs generalizing p with
  | nil => exact rep
  | cons c cs ih =>
    rw [List.forall_mem_cons] at all
    rw [List.foldl_cons] at room ⊢
    refine ih (represents_append rep all.1 ?_) all.2 room
    rw [size_foldl, size_append] at room
    omega

theorem addsOnce {c : Constant} (usable : c ≠ .unusable) : p.AddsOnce c := by
  have absent_iff := lookup_eq_none_iff rep usable
  refine ⟨fun i q run => (add_ok (sound_of_represents rep) run).2, ?_, ?_, ?_, ?_⟩
  · intro present
    cases found : p.lookup[c]? with
    | none => exact absurd present (absent_iff.mp found)
    | some i => exact ⟨i, add_of_found found⟩
  · intro absent i q run
    rw [← absent_iff] at absent
    rcases add_cases c p with ⟨j, found⟩ | ⟨-, room⟩ | ⟨-, full⟩
    · rw [absent] at found
      cases found
    · rw [add_of_room absent room] at run
      cases run
      exact toList_append p c
    · rw [add_of_full absent full] at run
      cases run
  · intro e q run
    rcases add_cases c p with ⟨i, found⟩ | ⟨absent, room⟩ | ⟨absent, full⟩
    · rw [add_of_found found] at run
      cases run
    · rw [add_of_room absent room] at run
      cases run
    · rw [add_of_full absent full] at run
      cases run
      exact ⟨rfl, rfl⟩
  · rw [← absent_iff]
    constructor
    · rintro ⟨e, q, run⟩
      rcases add_cases c p with ⟨i, found⟩ | ⟨absent, room⟩ | refused
      · rw [add_of_found found] at run
        cases run
      · rw [add_of_room absent room] at run
        cases run
      · exact refused
    · rintro ⟨absent, full⟩
      exact ⟨_, _, add_of_full absent full⟩

end Represents

theorem keeps_represents {c : Constant} (usable : c ≠ .unusable) : Keeps Represents (add c) := by
  intro p rep
  rcases add_cases c p with ⟨i, found⟩ | ⟨absent, room⟩ | ⟨absent, full⟩
  · rw [add_of_found found]
    exact rep
  · rw [add_of_room absent room]
    exact represents_append rep usable room
  · rw [add_of_full absent full]
    exact rep

theorem represents_of_fresh {p : Pool} (fresh : p.Fresh) : p.Represents := by
  rcases fresh with rfl | ⟨c, c', run⟩
  · exact represents_empty
  · obtain ⟨_, _, _, built, written⟩ := takes_read c.position c.rest p c' run
    have small := (sound_of_written built written).small
    obtain ⟨cs, all, rfl⟩ := built
    exact represents_foldl represents_empty all small

namespace History
variable {o p q : Pool} {before after : List (Addition × UInt16)}

/-- What every addition keeps holds at the end of a history if it held at its beginning. -/
theorem keeps {I : Pool → Prop} (each : ∀ c, c ≠ .unusable → Keeps I (add c))
    (history : History o before p) (holds : I o) : I p := by
  induction history with
  | none => exact holds
  | granted _ usable run ih => exact holds_of_keeps (Addition.adds_usable usable I each) ih run
  | refused _ usable run ih =>
    have kept := Addition.adds_usable usable I each _ ih
    rw [run] at kept
    exact kept

theorem append (history : History o before p) (rest : History p after q) :
    History o (before ++ after) q := by
  induction rest with
  | none => simpa using history
  | granted _ usable run ih =>
    rw [← List.append_assoc]
    exact ih.granted usable run
  | refused _ usable run ih => exact ih.refused usable run

theorem answered (history : History o before p) (later : p.Later q) {a : Addition} {i : UInt16}
    (call : (a, i) ∈ before) : a.perform q = .ok i q := by
  induction history with
  | none => simp at call
  | granted _ _ run ih =>
    obtain ⟨grown, again⟩ := repeats_ok (Addition.repeats_perform _) run
    rcases List.mem_append.mp call with earlier | last
    · exact ih (later_trans grown later) earlier
    · simp at last
      obtain ⟨rfl, rfl⟩ := last
      exact again q later
  | refused _ _ run ih =>
    obtain ⟨grown, -⟩ := repeats_error (Addition.repeats_perform _) run
    exact ih (later_trans grown later) call

end History

theorem mapM_answered {calls : List (Addition × UInt16)} {q : Pool}
    (each : ∀ a i, (a, i) ∈ calls → a.perform q = .ok i q) :
    calls.mapM (fun call => call.1.perform) q = .ok (calls.map Prod.snd) q := by
  induction calls with
  | nil => rfl
  | cons call calls ih =>
    have first := each call.1 call.2 (by simp)
    have others := ih fun a i member => each a i (by simp [member])
    rw [List.mapM_cons]
    exact state_bind_ok_iff.mpr ⟨_, _, first, state_bind_ok_iff.mpr ⟨_, _, others, rfl⟩⟩

/-- After any history of a pool, the slots and the lookup are in step, every constant is added at
most once and keeps its slot from then on, and all calls granted before, made again in the same
order, are answered by the same slots and leave the pool as it is. -/
theorem history_represents {o p q : Pool} {before after : List (Addition × UInt16)}
    (fresh : o.Fresh) (history : History o before p) (rest : History p after q) :
    p.Represents ∧ (∀ c, c ≠ .unusable → p.AddsOnce c) ∧ p.Grows q ∧
      (before ++ after).mapM (fun call => call.1.perform) q =
        .ok ((before ++ after).map Prod.snd) q := by
  have rep : p.Represents := history.keeps (fun _ => keeps_represents) (represents_of_fresh fresh)
  have beyond : p.Beyond q :=
    rest.keeps (fun c _ => keeps_add c) (beyond_self (sound_of_represents rep))
  refine ⟨rep, fun c => addsOnce rep, beyond.grows, mapM_answered ?_⟩
  intro a i call
  exact (history.append rest).answered (later_refl q) call

def twice : Bytes := [0, 5, 1, 0, 1, 0x41, 5, 0, 0, 0, 0, 0, 0, 0, 7, 1, 0, 1, 0x41]

theorem twice_represents : ∃ o p q,
    o.Fresh ∧ History o [(.classRef "A", 5)] p ∧ History p [(.utf8 "A", 1), (.integer 7, 6)] q ∧
      p.Represents ∧ (∀ c, c ≠ .unusable → p.AddsOnce c) ∧ p.Grows q ∧
      [Addition.classRef "A", .utf8 "A", .integer 7].mapM Addition.perform q =
        .ok [5, 1, 6] q := by
  let calls : PoolM (UInt16 × UInt16 × UInt16) := do
    let one ← Addition.perform (.classRef "A")
    let two ← Addition.perform (.utf8 "A")
    let three ← Addition.perform (.integer 7)
    return (one, two, three)
  have answers : (match Pool.read (Cursor.start twice) with
      | .ok o _ => match calls o with
        | .ok is _ => some is
        | .error _ _ => none
      | .error _ _ => none) = some (5, 1, 6) := by decide +kernel
  cases run : Pool.read (Cursor.start twice) with
  | error e c =>
    rw [run] at answers
    cases answers
  | ok o c =>
    rw [run] at answers
    dsimp only at answers
    cases called : calls o with
    | error e q =>
      rw [called] at answers
      cases answers
    | ok is q =>
      rw [called] at answers
      cases answers
      obtain ⟨one, p, first, called⟩ := state_bind_ok_iff.mp called
      obtain ⟨two, p', second, called⟩ := state_bind_ok_iff.mp called
      obtain ⟨three, q', third, called⟩ := state_bind_ok_iff.mp called
      cases called
      have fresh : o.Fresh := .inr ⟨_, _, run⟩
      have history : History o [(.classRef "A", 5)] p := History.none.granted (by simp) first
      have rest : History p [(.utf8 "A", 1), (.integer 7, 6)] q :=
        (History.none.granted (by simp) second).granted (by simp) third
      obtain ⟨rep, once, grows, again⟩ := history_represents fresh history rest
      exact ⟨o, p, q, fresh, history, rest, rep, once, grows, again⟩

end Pool
end ClassHooks
