import ClassHooks.Proofs.Weaving.Resting

/-!
The returns that are told of a woven method, and those that have the return hook before them. Every
return of the body is told. Every one has the hook if the chain emits an instruction for it, and
none has it otherwise.
-/
namespace ClassHooks

theorem Instruction.length_returnPlaces (is : List (Instruction Label)) :
    (returnPlaces is).length = is.countP isReturn := by
  induction is with
  | nil => rfl
  | cons i is ih =>
    rw [returnPlaces_cons, List.length_append, List.length_map, ih, List.countP_cons]
    split
    · exact Nat.add_comm ..
    · exact Nat.add_comm ..

namespace Interleaving
variable {w : Interleaving}

/-- A return of the method stands there, right behind a copy of the return hook, which has at least
one instruction. -/
def Hooked (w : Interleaving) (code : List (Instruction Label)) (p : Nat) : Prop :=
  code[p]?.any Instruction.isReturn = true ∧ ∃ k < w.original.length, w.place k = p ∧
    w.begin k < p ∧ (code.drop (w.begin k)).take (p - w.begin k) = w.exit

instance (w : Interleaving) (code : List (Instruction Label)) (p : Nat) :
    Decidable (w.Hooked code p) := inferInstanceAs (Decidable (_ ∧ _))

/-- How many returns have the return hook before them. -/
def hookedReturns (w : Interleaving) (code : List (Instruction Label)) : Nat :=
  (List.range code.length).countP fun p => w.Hooked code p

theorem take_of_hooked {k : Nat} (hooked : k ∈ w.hooked) :
    (w.instructions.drop (w.begin k)).take (w.place k - w.begin k) = w.exit := by
  obtain ⟨inside, lead⟩ := w.mem_hooked_iff.mp hooked
  have length := w.place_of_hooked hooked
  obtain ⟨before, after, front, whole⟩ := w.instructions_split inside
  obtain ⟨unit, -⟩ := w.unit_of_lead (j := 0) inside (by simp only [place] at lead; omega)
  have size : w.place k - w.begin k = w.exit.length := by omega
  rw [size, whole, ← front, List.drop_left, unit, List.append_assoc, List.take_left]

theorem hooked_iff {p : Nat} : w.Hooked w.instructions p ↔ ∃ k ∈ w.hooked, w.place k = p := by
  constructor
  · rintro ⟨_, k, inside, rfl, lead, _⟩
    exact ⟨k, w.mem_hooked_iff.mpr ⟨inside, lead⟩, rfl⟩
  · rintro ⟨k, hooked, rfl⟩
    obtain ⟨inside, lead⟩ := w.mem_hooked_iff.mp hooked
    refine ⟨?_, k, inside, rfl, lead, w.take_of_hooked hooked⟩
    rw [w.instructions_place inside, Option.any_some]
    simp only [place, Interleaving.lead, List.getElem?_eq_getElem inside, Option.any_some] at lead
    split at lead
    · assumption
    · omega

theorem hookedReturns_eq : w.hookedReturns w.instructions = w.hooked.length := by
  -- Both lists have the places of the hooked instructions, each of them once.
  have counted : (w.hooked.map w.place).Perm ((List.range w.instructions.length).filter
      fun p => w.Hooked w.instructions p) := by
    rw [List.perm_ext_iff_of_nodup]
    · intro p
      rw [List.mem_map, List.mem_filter, decide_eq_true_iff, hooked_iff, List.mem_range]
      constructor
      · rintro ⟨k, hooked, rfl⟩
        have here := w.instructions_place (w.mem_hooked_iff.mp hooked).1
        exact ⟨(List.getElem?_eq_some_iff.mp here).1, k, hooked, rfl⟩
      · exact And.right
    · refine List.pairwise_map.mpr (w.hooked_sorted.imp_of_mem fun {k m} hooked hooked' order => ?_)
      intro same
      exact Nat.ne_of_lt order (w.place_injective (w.mem_hooked_iff.mp hooked).1
        (w.mem_hooked_iff.mp hooked').1 same)
    · exact List.nodup_range.filter _
  unfold hookedReturns
  rw [List.countP_eq_length_filter, ← counted.length_eq, List.length_map]

theorem hookedReturns_eq_ite : w.hookedReturns w.instructions =
    if w.exit = [] then 0 else w.original.countP Instruction.isReturn := by
  rw [hookedReturns_eq]
  split
  · rename_i empty
    rw [w.hooked_of_nil empty, List.length_nil]
  · rename_i filled
    rw [w.hooked_of_cons filled, Instruction.length_returnPlaces]

end Interleaving

namespace Weaving

/-- A method that is woven: the body that was read, its instructions with the hooks that the chain
emitted around them, and what came of it. -/
structure Instrumented where
  body : Body
  hooks : Interleaving
  woven : WovenMethod

namespace Instrumented

def hooked (i : Instrumented) : Nat := i.hooks.hookedReturns i.woven.body.instructions

/-- Something is emitted for the returns, if there are any. -/
def Answers (i : Instrumented) : Prop := i.hooks.exit ≠ [] ∨ i.woven.body.returnCount = 0

def allTold (is : List Instrumented) : Nat := (is.map (·.woven.returnSites)).sum

def allHooked (is : List Instrumented) : Nat := (is.map hooked).sum

structure Arises (chain : Chain) (requireFrames : Bool) (method : MethodName) (p : Pool)
    (i : Instrumented) (p' : Pool) : Prop where
  read : ∃ c pool, Body.ofCode c pool = .ok i.body
  run : i.body.weave chain requireFrames method p = .ok i.woven p'
  emits : ∃ descriptor enter exit error p₁,
    MethodDescriptor.parse method.descriptor = .ok descriptor ∧
    Emits chain method descriptor.returnType i.body.returnCount p enter exit error p₁ ∧
    i.hooks = interleaving i.body enter exit error

section Arises
variable {chain : Chain} {requireFrames : Bool} {method : MethodName} {p p' : Pool}
  {i : Instrumented}

theorem exists_arises {c : CodeAttribute} {pool : Pool} {b : Body} {woven : WovenMethod}
    (read : Body.ofCode c pool = .ok b)
    (run : b.weave chain requireFrames method p = .ok woven p') :
    ∃ i, Arises chain requireFrames method p i p' ∧ i.body = b ∧ i.woven = woven := by
  obtain ⟨enter, exit, error, made⟩ := made_of_weave run
  obtain ⟨descriptor, p₁, _, parsed, emits, _⟩ := made.emits
  refine ⟨⟨b, interleaving b enter exit error, woven⟩, ⟨⟨c, pool, read⟩, run, ?_⟩, rfl, rfl⟩
  exact ⟨descriptor, enter, exit, error, p₁, parsed, emits, rfl⟩

variable (arises : Arises chain requireFrames method p i p')
include arises

theorem Arises.shape : Woven i.body i.hooks i.woven.body ∧ i.hooks.Straight := by
  obtain ⟨c, pool, read⟩ := arises.read
  obtain ⟨enter, exit, error, made⟩ := made_of_weave arises.run
  obtain ⟨descriptor, _, _, parsed, emits, _⟩ := made.emits
  obtain ⟨descriptor', enter', exit', error', _, parsed', emits', hooks⟩ := arises.emits
  rw [parsed] at parsed'
  cases parsed'
  obtain ⟨rfl, rfl, rfl⟩ := emits_unique emits emits'
  rw [hooks]
  exact ⟨woven_of_made (Body.sound_of_ofCode read) made, straight_of_made made⟩

theorem Arises.told : i.woven.returnSites = i.woven.body.returnCount := by
  obtain ⟨shape, straight⟩ := arises.shape
  obtain ⟨_, _, _, made⟩ := made_of_weave arises.run
  rw [made.returns, returns_woven shape straight]

theorem Arises.hooked : i.hooked = if i.hooks.exit = [] then 0 else i.woven.body.returnCount := by
  obtain ⟨shape, straight⟩ := arises.shape
  unfold Instrumented.hooked
  rw [shape.code, Interleaving.hookedReturns_eq_ite, shape.original, returns_woven shape straight]
  rfl

theorem Arises.hooked_le : i.hooked ≤ i.woven.returnSites := by
  rw [arises.hooked, arises.told]
  split
  · exact Nat.zero_le _
  · exact Nat.le_refl _

/-- What is told is what is hooked if something is emitted for the returns, and only then. -/
theorem Arises.told_eq_hooked_iff : i.woven.returnSites = i.hooked ↔ i.Answers := by
  rw [arises.hooked, arises.told]
  unfold Answers
  split
  · rename_i empty
    simp [empty]
  · rename_i filled
    simp [filled]

end Arises

section Sums
variable {is : List Instrumented}
  (each : ∀ i ∈ is, ∃ chain requireFrames method p p', Arises chain requireFrames method p i p')
include each

theorem allTold_eq : allTold is = (is.map fun i => i.woven.body.returnCount).sum := by
  unfold allTold
  refine congrArg List.sum (List.map_congr_left fun i inside => ?_)
  obtain ⟨_, _, _, _, _, arises⟩ := each i inside
  exact arises.told

theorem allHooked_le_allTold : allHooked is ≤ allTold is ∧
    (allTold is = allHooked is ↔ ∀ i ∈ is, i.Answers) := by
  induction is with
  | nil => simp [allTold, allHooked]
  | cons i is ih =>
    rw [List.forall_mem_cons] at each
    obtain ⟨⟨_, _, _, _, _, arises⟩, others⟩ := each
    obtain ⟨less, same⟩ := ih others
    have here := arises.hooked_le
    unfold allTold allHooked at less same ⊢
    rw [List.forall_mem_cons, ← arises.told_eq_hooked_iff, ← same, List.map_cons, List.map_cons,
      List.sum_cons, List.sum_cons]
    omega

end Sums

end Instrumented

section Methods
variable {chain : Chain} {requireFrames : Bool} {method : MethodName} {q q' : Pool}
  {old new : Bytes} {sites : Nat}

/-- The steps of `Rewritten` are those of `payload`, and the returns that it tells are those of the method. -/
theorem payload_of_rewritten {c c' : CodeAttribute} {b : Body} {woven : WovenMethod} {q₁ : Pool}
    (steps : Rewritten chain requireFrames method q old c b woven q₁ c' new q') :
    payload chain requireFrames method old q = .ok (new, woven.returnSites) q' := by
  refine state_bind_ok_iff.mpr ⟨c, q, PoolM.lift_ok_iff.mpr ⟨steps.parsed, rfl⟩, ?_⟩
  refine state_bind_ok_iff.mpr ⟨q, q, rfl, ?_⟩
  refine state_bind_ok_iff.mpr ⟨b, q, PoolM.lift_ok_iff.mpr ⟨steps.read, rfl⟩, ?_⟩
  refine state_bind_ok_iff.mpr ⟨woven, q₁, steps.weaves, ?_⟩
  refine state_bind_ok_iff.mpr ⟨c', q', steps.coded, ?_⟩
  exact state_bind_ok_iff.mpr ⟨new, q', PoolM.lift_ok_iff.mpr ⟨steps.written, rfl⟩, rfl⟩

structure Instruments (chain : Chain) (requireFrames : Bool) (method : MethodName) (q : Pool)
    (old : Bytes) (i : Instrumented) (new : Bytes) (q' : Pool) : Prop where
  arises : ∃ q₁, i.Arises chain requireFrames method q q₁
  steps : ∃ c q₁ c', Rewritten chain requireFrames method q old c i.body i.woven q₁ c' new q'

theorem instruments_of_payload
    (run : payload chain requireFrames method old q = .ok (new, sites) q') :
    ∃ i, Instruments chain requireFrames method q old i new q' ∧ i.woven.returnSites = sites := by
  obtain ⟨c, b, woven, q₁, c', steps⟩ := rewritten_of_payload run
  obtain ⟨i, arises, rfl, rfl⟩ := Instrumented.exists_arises steps.read steps.weaves
  have again := run.symm.trans (payload_of_rewritten steps)
  cases again
  exact ⟨i, ⟨⟨q₁, arises⟩, c, q₁, c', steps⟩, rfl⟩

/-- The methods of a class one after the other, with those that are woven: they have code, and the
selector takes them. -/
inductive Turns (chain : Chain) (selector : Selector) (className : String) (flags : UInt16)
    (requireFrames : Bool) : Pool → List Member → List Instrumented → Pool → Prop where
  | none {q : Pool} : Turns chain selector className flags requireFrames q [] [] q
  | left {m : Member} {ms : List Member} {is : List Instrumented} {name descriptor : String}
      {q q' : Pool} (found : q.utf8 m.name = .ok name)
      (found' : q.utf8 m.descriptor = .ok descriptor)
      (no : ∀ k, m.codeIndex q = some k →
        selector ⟨className, flags, name, descriptor, m.flags, true⟩ = false)
      (rest : Turns chain selector className flags requireFrames q ms is q') :
      Turns chain selector className flags requireFrames q (m :: ms) is q'
  | woven {m : Member} {ms : List Member} {i : Instrumented} {is : List Instrumented}
      {name descriptor : String} {k : Nat} {a : Attribute} {new : Bytes} {q q₁ q' : Pool}
      (found : q.utf8 m.name = .ok name) (found' : q.utf8 m.descriptor = .ok descriptor)
      (index : m.codeIndex q = some k) (here : m.attributes[k]? = some a)
      (yes : selector ⟨className, flags, name, descriptor, m.flags, true⟩ = true)
      (instruments : Instruments chain requireFrames ⟨className, name, descriptor⟩ q a.payload i
        new q₁)
      (rest : Turns chain selector className flags requireFrames q₁ ms is q') :
      Turns chain selector className flags requireFrames q (m :: ms) (i :: is) q'

variable {selector : Selector} {className : String} {flags : UInt16}

theorem Turns.arises {ms : List Member} {is : List Instrumented}
    (turns : Turns chain selector className flags requireFrames q ms is q') :
    ∀ i ∈ is, ∃ method p p', i.Arises chain requireFrames method p p' := by
  induction turns with
  | none => exact nofun
  | left _ _ _ _ ih => exact ih
  | woven _ _ _ _ _ instruments _ ih =>
    obtain ⟨_, arises⟩ := instruments.arises
    exact List.forall_mem_cons.mpr ⟨⟨_, _, _, arises⟩, ih⟩

def adding (count : WeaveCount) (is : List Instrumented) : WeaveCount :=
  ⟨count.methods + is.length, count.returnSites + Instrumented.allTold is⟩

theorem adding_append (count : WeaveCount) (is js : List Instrumented) :
    adding count (is ++ js) = adding (adding count is) js := by
  simp only [adding, Instrumented.allTold, List.length_append, List.map_append, List.sum_append,
    Nat.add_assoc]

theorem adding_cons (count : WeaveCount) (i : Instrumented) (is : List Instrumented) :
    adding count (i :: is) = adding (adding count [i]) is := adding_append count [i] is

theorem turns_of_members {ms done out : List Member} {count total : WeaveCount}
    (run : members (member chain selector className flags requireFrames) done count ms q =
      .ok (out, total) q') :
    ∃ is, Turns chain selector className flags requireFrames q ms is q' ∧
      total = adding count is := by
  induction ms generalizing done count q with
  | nil =>
    cases run
    exact ⟨[], .none, rfl⟩
  | cons m ms ih =>
    rw [members_cons] at run
    obtain ⟨result, q₁, first, run⟩ := state_bind_ok_iff.mp run
    obtain ⟨is, turns, rfl⟩ := ih run
    obtain ⟨name, descriptor, found, found', cases⟩ := member_cases first
    rcases cases with ⟨rfl, rfl, no⟩ | ⟨k, a, new, sites, index, here, yes, inside, rfl⟩
    · exact ⟨is, .left found found' no turns, rfl⟩
    · obtain ⟨i, instruments, rfl⟩ := instruments_of_payload inside
      refine ⟨i :: is, .woven found found' index here yes instruments turns, ?_⟩
      rw [adding_cons]
      rfl

end Methods

section Class
variable {chain : Chain} {selector : Selector} {bytes : Bytes} {is : List Instrumented}

inductive WovenMethods (chain : Chain) (selector : Selector) (bytes : Bytes) :
    List Instrumented → Prop where
  | hookless {c : ClassFile} (parsed : ClassFile.parse bytes = .ok c)
      (empty : chain.isEmpty = true) : WovenMethods chain selector bytes []
  | hooked {c : ClassFile} {className : String} {is : List Instrumented} {pool : Pool}
      (parsed : ClassFile.parse bytes = .ok c) (filled : chain.isEmpty = false)
      (self : c.pool.className c.thisClass = .ok className)
      (turns : Turns chain selector className c.flags c.requiresStackMaps c.pool c.methods is
        pool) :
      WovenMethods chain selector bytes is

theorem WovenMethods.arises (methods : WovenMethods chain selector bytes is) :
    ∀ i ∈ is, ∃ requireFrames method p p', i.Arises chain requireFrames method p p' := by
  cases methods with
  | hookless => exact nofun
  | hooked _ _ _ turns => exact fun i inside => ⟨_, turns.arises i inside⟩

def countOf (outcome : Outcome) : WeaveCount := (counts? outcome).getD ⟨0, 0⟩

/-- The methods that are woven of a class are counted, and the returns that are told of them. -/
theorem wovenMethods_of_weaveUnit {outcome : Outcome}
    (run : weaveUnit chain selector bytes = .ok outcome) :
    ∃ is, WovenMethods chain selector bytes is ∧
      countOf outcome = adding ⟨0, 0⟩ is := by
  unfold weaveUnit at run
  obtain ⟨c, parsed, run⟩ := bind_ok_iff.mp run
  split at run
  · rename_i empty
    cases run
    exact ⟨[], .hookless parsed empty, rfl⟩
  rename_i filled
  obtain ⟨className, self, run⟩ := bind_ok_iff.mp run
  rw [mapError_ok_iff] at self
  dsimp only at run
  split at run
  · cases run
  rename_i ms count pool woven
  obtain ⟨is, turns, rfl⟩ := turns_of_members woven
  refine ⟨is, .hooked parsed (Bool.eq_false_of_not_eq_true filled) self turns, ?_⟩
  split at run
  · rename_i none
    obtain rfl := List.length_eq_zero_iff.mp ((Nat.zero_add _).symm.trans none)
    cases run
    rfl
  · obtain ⟨written, _, made⟩ := bind_ok_iff.mp run
    cases made
    rfl

end Class

end Weaving
end ClassHooks
