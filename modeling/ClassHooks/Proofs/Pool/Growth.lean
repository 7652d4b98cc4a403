import ClassHooks.Proofs.Success
import ClassHooks.Pool.Basic

/-!
Pools only grow: a constant stays in its slot, whatever is added behind it, and adding a constant
answers a slot that holds it.
-/
namespace ClassHooks

def PoolM.Adds (operation : PoolM α) : Prop :=
  ∀ I : Pool → Prop, (∀ c, Keeps I (Pool.add c)) → Keeps I operation

def PoolM.AddsUsable (operation : PoolM α) : Prop :=
  ∀ I : Pool → Prop, (∀ c, c ≠ .unusable → Keeps I (Pool.add c)) → Keeps I operation

namespace Pool

/-- A slot has a number of two bytes, and a constant that is looked up is in the slot found. -/
structure Sound (p : Pool) : Prop where
  small : p.size ≤ 65535
  found : ∀ (c : Constant) (i : UInt16), p.lookup[c]? = some i → p.entries[i.toNat]? = some c

/-- What is in a slot of the first pool is in the same slot of the second. -/
def Grows (p q : Pool) : Prop :=
  ∀ (i : Nat) (c : Constant), p.entries[i]? = some c → q.entries[i]? = some c

structure Beyond (p q : Pool) : Prop where
  sound : q.Sound
  grows : p.Grows q

theorem grows_refl (p : Pool) : p.Grows p := fun _ _ here => here

theorem grows_trans {p q r : Pool} (one : p.Grows q) (two : q.Grows r) : p.Grows r :=
  fun i c here => two i c (one i c here)

theorem inside_grows {p q : Pool} (grows : p.Grows q) {i : Nat} (inside : i < p.size) :
    i < q.size := by
  have here : p.entries[i]? = some p.entries[i] := Array.getElem?_eq_getElem inside
  exact (Array.getElem?_eq_some_iff.mp (grows i _ here)).1

theorem beyond_self {p : Pool} (sound : p.Sound) : p.Beyond p := ⟨sound, grows_refl p⟩

theorem sound_empty : empty.Sound := by
  refine ⟨by decide, fun c i found => ?_⟩
  simp [empty] at found

section Append
variable {p : Pool} (c : Constant)

theorem entries_append : (p.append c).entries =
    if c.isWide then (p.entries.push c).push .unusable else p.entries.push c := rfl

theorem lookup_append : (p.append c).lookup =
    p.lookup.insertIfNew c (UInt16.ofNat p.entries.size) := rfl

theorem size_append : (p.append c).size = p.size + c.slots := by
  unfold size Constant.slots
  rw [entries_append]
  split <;> simp

theorem grows_append : p.Grows (p.append c) := by
  intro i c' here
  obtain ⟨inside, same⟩ := Array.getElem?_eq_some_iff.mp here
  rw [entries_append]
  split
  · rw [Array.getElem?_push, Array.getElem?_push, if_neg, if_neg (Nat.ne_of_lt inside), here]
    rw [Array.size_push]
    omega
  · rw [Array.getElem?_push, if_neg (Nat.ne_of_lt inside), here]

theorem append_holds : (p.append c).entries[p.size]? = some c := by
  rw [entries_append]
  unfold size
  split
  · rw [Array.getElem?_push, if_neg (by rw [Array.size_push]; omega), Array.getElem?_push_size]
  · exact Array.getElem?_push_size

theorem sound_append (sound : p.Sound) (room : p.size + c.slots ≤ 65535) :
    (p.append c).Sound := by
  have index : (UInt16.ofNat p.size).toNat = p.size :=
    UInt16.toNat_ofNat_of_lt' (by have := sound.small; change p.size < 65536; omega)
  refine ⟨by rw [size_append]; exact room, fun c' i found => ?_⟩
  rw [lookup_append, Std.TreeMap.getElem?_insertIfNew] at found
  split at found
  · rename_i new
    obtain rfl := Std.compare_eq_iff_eq.mp new.1
    cases found
    change (p.append c).entries[(UInt16.ofNat p.size).toNat]? = some c
    rw [index]
    exact append_holds c
  · exact grows_append c _ _ (sound.found c' i found)

end Append

section Adding
variable {p : Pool}

theorem add_ok {p' : Pool} {c : Constant} {i : UInt16} (sound : p.Sound)
    (run : add c p = .ok i p') : p.Beyond p' ∧ p'.entries[i.toNat]? = some c := by
  unfold add at run
  split at run
  · rename_i index found
    cases run
    exact ⟨beyond_self sound, sound.found c _ found⟩
  · split at run
    · rename_i room
      cases run
      refine ⟨⟨sound_append c sound room, grows_append c⟩, ?_⟩
      have index : (UInt16.ofNat p.size).toNat = p.size :=
        UInt16.toNat_ofNat_of_lt' (by have := sound.small; change p.size < 65536; omega)
      rw [index]
      exact append_holds c
    · cases run

theorem add_error {p' : Pool} {c : Constant} {e : Error} (run : add c p = .error e p') :
    p' = p := by
  unfold add at run
  split at run
  · cases run
  · split at run
    · cases run
    · cases run
      rfl

theorem keeps_add (c : Constant) : Keeps p.Beyond (add c) := by
  intro q beyond
  cases run : add c q with
  | ok i q' =>
    obtain ⟨later, _⟩ := add_ok beyond.sound run
    exact ⟨later.sound, grows_trans beyond.grows later.grows⟩
  | error e q' =>
    rw [add_error run]
    exact beyond

theorem keeps_grows (c : Constant) : Keeps p.Grows (add c) := by
  intro q grows
  have further := grows_trans grows (grows_append (p := q) c)
  simp only [add]
  cases q.lookup[c]? with
  | some index => exact grows
  | none =>
    by_cases room : q.size + c.slots ≤ 65535
    · rw [if_pos room]
      exact further
    · rw [if_neg room]
      exact grows

theorem usable_pure (a : α) : PoolM.AddsUsable (pure a) := fun _ _ => keeps_pure a

theorem usable_bind {x : PoolM α} {f : α → PoolM β} (first : x.AddsUsable)
    (next : ∀ a, (f a).AddsUsable) : PoolM.AddsUsable (x >>= f) :=
  fun I each => keeps_bind (first I each) fun a => next a I each

theorem usable_add {c : Constant} (usable : c ≠ .unusable) : PoolM.AddsUsable (add c) :=
  fun _ each => each c usable

theorem usable_addUtf8 (text : String) : PoolM.AddsUsable (addUtf8 text) := usable_add nofun

theorem usable_addClass (name : String) : PoolM.AddsUsable (addClass name) :=
  usable_bind (usable_addUtf8 name) fun _ => usable_add nofun

theorem usable_addString (text : String) : PoolM.AddsUsable (addString text) :=
  usable_bind (usable_addUtf8 text) fun _ => usable_add nofun

theorem usable_addInteger (value : Int32) : PoolM.AddsUsable (addInteger value) :=
  usable_add nofun

theorem usable_addNameAndType (name descriptor : String) :
    PoolM.AddsUsable (addNameAndType name descriptor) :=
  usable_bind (usable_addUtf8 name) fun _ => usable_bind (usable_addUtf8 descriptor) fun _ =>
    usable_add nofun

theorem usable_addMethodRef (owner name descriptor : String) :
    PoolM.AddsUsable (addMethodRef owner name descriptor) :=
  usable_bind (usable_addClass owner) fun _ =>
    usable_bind (usable_addNameAndType name descriptor) fun _ => usable_add nofun

theorem usable_addFieldRef (owner name descriptor : String) :
    PoolM.AddsUsable (addFieldRef owner name descriptor) :=
  usable_bind (usable_addClass owner) fun _ =>
    usable_bind (usable_addNameAndType name descriptor) fun _ => usable_add nofun

theorem adds_addUtf8 (text : String) : PoolM.Adds (addUtf8 text) :=
  fun I each => usable_addUtf8 text I fun c _ => each c

end Adding

/-- A pool of a class file, or one built from nothing, and what is added to it. -/
inductive Reached : Pool → Prop where
  | empty : Reached empty
  | read {p : Pool} {c c' : Cursor} (run : Pool.read c = .ok p c') : Reached p
  | add {p p' : Pool} {c : Constant} {i : UInt16} (before : Reached p)
      (run : Pool.add c p = .ok i p') : Reached p'

theorem reached_append {p : Pool} (reached : p.Reached) {c : Constant}
    (missing : p.lookup[c]? = none) (room : p.size + c.slots ≤ 65535) : (p.append c).Reached :=
  .add reached (by rw [add, missing]; exact if_pos room)

theorem reached_of_adds {operation : PoolM α} (adds : operation.Adds) {p p' : Pool} {a : α}
    (reached : p.Reached) (run : operation p = .ok a p') : p'.Reached := by
  refine holds_of_keeps (adds Reached fun c q before => ?_) reached run
  cases one : add c q with
  | ok i q' => exact .add before one
  | error e q' =>
    rw [add_error one]
    exact before

theorem sound_of_fill {slots : Nat} {p p' : Pool} {c c' : Cursor} (sound : p.Sound)
    (room : p.size + slots ≤ 65535) (run : fill p slots c = .ok p' c') : p'.Sound := by
  induction slots using Nat.strongRecOn generalizing p c with
  | ind slots ih =>
    cases slots with
    | zero =>
      rw [fill] at run
      cases run
      exact sound
    | succ slots =>
      rw [fill] at run
      obtain ⟨k, c₁, _, run⟩ := state_bind_ok_iff.mp run
      have size : k.slots = if k.isWide then 2 else 1 := rfl
      split at run
      · rename_i wide
        rw [if_pos wide] at size
        cases slots with
        | zero => cases run
        | succ slots =>
          refine ih slots (by omega) (sound_append k sound (by omega)) ?_ run
          rw [size_append]
          omega
      · rename_i narrow
        rw [if_neg narrow] at size
        refine ih slots (by omega) (sound_append k sound (by omega)) ?_ run
        rw [size_append]
        omega

theorem sound_of_reached {p : Pool} (reached : p.Reached) : p.Sound := by
  induction reached with
  | empty => exact sound_empty
  | read run =>
    obtain ⟨n, c₁, _, run⟩ := state_bind_ok_iff.mp run
    split at run
    · cases run
    · have bound : n.toNat < 65536 := n.toNat_lt
      exact sound_of_fill sound_empty (by change 1 + (n.toNat - 1) ≤ 65535; omega) run
  | add _ run ih => exact (add_ok ih run).1.sound

section Names
variable {p q : Pool}

theorem holdsText_iff {i : UInt16} {text : String} :
    p.holdsText i text = true ↔
      p.entries[i.toNat]? = some (.utf8 (Text.ModifiedUtf8.encode text)) := by
  unfold holdsText
  split
  · rename_i bytes found
    rw [found]
    simp
  · rename_i other
    constructor
    · intro absurd
      cases absurd
    · intro found
      exact absurd found (other _)

theorem holdsText_grows (grows : p.Grows q) {i : UInt16} (inside : i.toNat < p.size)
    (text : String) : q.holdsText i text = p.holdsText i text := by
  have here : p.entries[i.toNat]? = some p.entries[i.toNat] := Array.getElem?_eq_getElem inside
  unfold holdsText
  rw [here, grows _ _ here]

theorem addUtf8_ok (sound : p.Sound) {text : String} {i : UInt16}
    (run : addUtf8 text p = .ok i q) : p.Beyond q ∧ q.holdsText i text = true := by
  obtain ⟨beyond, here⟩ := add_ok sound run
  exact ⟨beyond, holdsText_iff.mpr here⟩

def HoldsClass (p : Pool) (i : UInt16) (name : String) : Prop :=
  ∃ n : UInt16, p.entries[i.toNat]? = some (.classRef n) ∧ p.holdsText n name = true

theorem holdsText_of_grows (grows : p.Grows q) {i : UInt16} {text : String}
    (holds : p.holdsText i text = true) : q.holdsText i text = true :=
  holdsText_iff.mpr (grows _ _ (holdsText_iff.mp holds))

theorem holdsClass_of_grows (grows : p.Grows q) {i : UInt16} {name : String}
    (holds : p.HoldsClass i name) : q.HoldsClass i name := by
  obtain ⟨n, here, text⟩ := holds
  exact ⟨n, grows _ _ here, holdsText_of_grows grows text⟩

theorem addClass_ok (sound : p.Sound) {name : String} {i : UInt16}
    (run : addClass name p = .ok i q) : p.Beyond q ∧ q.HoldsClass i name := by
  obtain ⟨n, p₁, first, second⟩ := state_bind_ok_iff.mp run
  obtain ⟨beyond, text⟩ := addUtf8_ok sound first
  obtain ⟨beyond', here⟩ := add_ok beyond.sound second
  exact ⟨⟨beyond'.sound, grows_trans beyond.grows beyond'.grows⟩, n, here,
    holdsText_of_grows beyond'.grows text⟩

end Names
end Pool
end ClassHooks
