import ClassHooks.Proofs.Weaving.Resting
import Mathlib.Logic.Relation

/-!
Weaving a class again and again. After the first time every code attribute can be read and the pool
has all that weaving adds, so that from then on the pool stays as it is.
-/
namespace ClassHooks

structure Member.NamesInside (pool : Pool) (m : Member) : Prop where
  attributes : ∀ a ∈ m.attributes, a.name.toNat < pool.size
  code : ∀ a ∈ m.attributes, a.hasName pool Attribute.code = true →
    ∀ code, CodeAttribute.parse a.payload = .ok code →
      ∀ b ∈ code.attributes, b.name.toNat < pool.size

theorem findIdx?_modify {p : α → Bool} {f : α → α} (same : ∀ a, p (f a) = p a) (xs : List α)
    (i : Nat) : (xs.modify i f).findIdx? p = xs.findIdx? p := by
  induction xs generalizing i with
  | nil => simp
  | cons x xs ih => cases i <;> simp [List.findIdx?_cons, same, ih]

namespace Weaving

/-- A member whose names are known and whose code, if the selector accepts it, can be woven with
nothing to add to the pool. -/
def MemberRests (chain : Chain) (selector : Selector) (c : ClassFile) (pool : Pool) (m : Member) :
    Prop :=
  ∃ className name descriptor, pool.className c.thisClass = .ok className ∧
    pool.utf8 m.name = .ok name ∧ pool.utf8 m.descriptor = .ok descriptor ∧
    ∀ i a, m.codeIndex pool = some i → m.attributes[i]? = some a →
      selector ⟨className, c.flags, name, descriptor, m.flags, true⟩ = true →
        Rests chain c.requiresStackMaps ⟨className, name, descriptor⟩ pool a.payload

section Replaced
variable {m : Member} {i : Nat} {new : Bytes}

def replaced (m : Member) (i : Nat) (new : Bytes) : Member :=
  { m with attributes := m.attributes.modify i fun a => { a with payload := new } }

theorem codeIndex_replaced (pool : Pool) : (replaced m i new).codeIndex pool = m.codeIndex pool := by
  unfold Member.codeIndex replaced
  refine findIdx?_modify ?_ m.attributes i
  intro a
  rfl

theorem payload_replaced {pool : Pool} (index : m.codeIndex pool = some i) {j : Nat}
    (again : (replaced m i new).codeIndex pool = some j) {a : Attribute}
    (here : (replaced m i new).attributes[j]? = some a) : a.payload = new := by
  rw [codeIndex_replaced, index] at again
  cases again
  rw [replaced, List.getElem?_modify_eq, Option.map_eq_map, Option.map_eq_some_iff] at here
  obtain ⟨_, _, rfl⟩ := here
  rfl

theorem chooses_replaced {selector : Selector} {c : ClassFile} {pool : Pool} :
    chooses selector c pool (replaced m i new) = chooses selector c pool m := by
  rw [chooses, codeIndex_replaced]
  rfl

end Replaced

section First
variable {chain : Chain} (usable : chain.AddsUsable) {selector : Selector} {c : ClassFile}
  {className : String} (self : c.pool.className c.thisClass = .ok className)
include usable self

/-- A member that was woven rests in the pools that come later. -/
theorem rests_of_member {m : Member} (named : m.NamesInside c.pool) {q q' r : Pool}
    (grown : Extends c.pool q) {result : Option (Member × Nat)}
    (run : member chain selector className c.flags c.requiresStackMaps m q = .ok result q')
    (grows : q'.Grows r) (later : q'.Later r) :
    MemberRests chain selector c r ((result.map Prod.fst).getD m) := by
  obtain ⟨_, first, _⟩ := member_ok usable self named.attributes grown run
  obtain ⟨name, descriptor, found, found', cases⟩ := member_cases run
  have all : q.Grows r := Pool.grows_trans first grows
  have whole : c.pool.Grows r := Pool.grows_trans grown.beyond.grows all
  have index : m.codeIndex r = m.codeIndex q :=
    (Member.codeIndex_grows whole named.attributes).trans
      (Member.codeIndex_grows grown.beyond.grows named.attributes).symm
  have names : r.className c.thisClass = .ok className ∧ r.utf8 m.name = .ok name ∧
      r.utf8 m.descriptor = .ok descriptor :=
    ⟨Pool.className_grows whole self, Pool.utf8_grows all found, Pool.utf8_grows all found'⟩
  obtain ⟨known, known', known''⟩ := names
  rcases cases with ⟨rfl, rfl, no⟩ | ⟨i, a, new, sites, first, here, _, inside, rfl⟩
  · refine ⟨className, name, descriptor, known, known', known'', fun i a there _ accepted => ?_⟩
    have off := no i (index.symm.trans there)
    exact absurd (off.symm.trans accepted) Bool.false_ne_true
  · refine ⟨className, name, descriptor, known, known', known'', fun j a' there put _ => ?_⟩
    rw [payload_replaced (index.trans first) there put]
    have member : a ∈ m.attributes := List.mem_of_getElem? here
    have holds : a.hasName c.pool Attribute.code = true := by
      obtain ⟨a', here', holds⟩ := Member.code_of_index first
      rw [here] at here'
      cases here'
      rwa [Attribute.hasName_of_inside grown.beyond.grows (named.attributes a member)] at holds
    refine rests_of_payload grown.beyond.sound (fun code parsed b there => ?_) inside grows later
    exact Pool.inside_grows grown.beyond.grows (named.code a member holds code parsed b there)

theorem rests_of_members {ms done out : List Member} (named : ∀ m ∈ ms, m.NamesInside c.pool)
    {q r : Pool} (grown : Extends c.pool q) {count total : WeaveCount}
    (run : members (member chain selector className c.flags c.requiresStackMaps) done count ms q =
      .ok (out, total) r) : q.Later r ∧ ∃ rest, out = done.reverse ++ rest ∧
        ∀ m ∈ rest, MemberRests chain selector c r m := by
  induction ms generalizing done count q with
  | nil =>
    cases run
    exact ⟨Pool.later_refl _, [], by simp, nofun⟩
  | cons m ms ih =>
    rw [List.forall_mem_cons] at named
    rw [members_cons] at run
    obtain ⟨result, q₁, first, run⟩ := state_bind_ok_iff.mp run
    obtain ⟨grown₁, _, _⟩ := member_ok usable self named.1.attributes grown first
    have early : q.Later q₁ := by
      obtain ⟨_, _, _, _, cases⟩ := member_cases first
      rcases cases with ⟨_, rfl, _⟩ | ⟨_, _, _, _, _, _, _, inside, _⟩
      · exact Pool.later_refl _
      · exact payload_keeps Pool.keeps_later (Pool.later_refl _) inside
    obtain ⟨later, rest, listed, each⟩ := ih named.2 grown₁ run
    obtain ⟨_, grows, _⟩ := members_ok usable self (fun m member => (named.2 m member).attributes)
      grown₁ run
    refine ⟨Pool.later_trans early later, (result.map Prod.fst).getD m :: rest, ?_, ?_⟩
    · rw [listed, List.reverse_cons, List.append_assoc, List.singleton_append]
    · rw [List.forall_mem_cons]
      exact ⟨rests_of_member usable self named.1 grown first grows later, each⟩

end First

theorem stays_inMethod {operation : PoolM α} {pool : Pool} {Q : α → Prop} (method : MethodName)
    (stays : operation.Stays pool Q) : (inMethod method operation).Stays pool Q := by
  unfold PoolM.Stays at stays
  cases run : operation pool with
  | ok a q =>
    rw [run] at stays
    obtain ⟨rfl, holds⟩ := stays
    refine stays_of_ok ?_ holds
    simp only [inMethod, run]
  | error e q =>
    rw [run] at stays
    have fails : inMethod method operation pool =
        .error (.inMethod method.className (method.method ++ method.descriptor) e) q := by
      simp only [inMethod, run]
    exact stays_of_error fails stays

section Again
variable {chain : Chain} {selector : Selector} {c : ClassFile} {className : String}
  (sound : c.pool.Sound) (complete : c.pool.Complete)
  (self : c.pool.className c.thisClass = .ok className)
include sound complete self

/-- A member that rests is woven with nothing added to the pool, or fails for a limit; and it rests
again. -/
theorem stays_member {m : Member} (rests : MemberRests chain selector c c.pool m) :
    (member chain selector className c.flags c.requiresStackMaps m).Stays c.pool fun result =>
      MemberRests chain selector c c.pool ((result.map Prod.fst).getD m) ∧
      result.isSome = chooses selector c c.pool m ∧
      chooses selector c c.pool ((result.map Prod.fst).getD m) = chooses selector c c.pool m := by
  have ⟨_, name, descriptor, self', found, found', rest⟩ := rests
  rw [self] at self'
  cases self'
  have asked := candidate_of_names self found found'
  have first : Limited ((c.pool.utf8 m.name).mapError Error.malformed) (name = ·) :=
    limited_of_ok (mapError_ok_iff.mpr found) rfl
  have second : Limited ((c.pool.utf8 m.descriptor).mapError Error.malformed) (descriptor = ·) :=
    limited_of_ok (mapError_ok_iff.mpr found') rfl
  unfold member
  refine stays_bind stays_get ?_
  rintro _ _ rfl
  refine stays_bind (stays_lift first) ?_
  rintro _ _ ⟨_, rfl⟩
  refine stays_bind (stays_lift second) ?_
  rintro _ _ ⟨_, rfl⟩
  cases index : m.codeIndex c.pool with
  | none =>
    refine stays_pure ⟨rests, ?_, rfl⟩
    rw [chooses, index]
    rfl
  | some i =>
    have chosen : chooses selector c c.pool m =
        selector ⟨className, c.flags, name, descriptor, m.flags, true⟩ := by
      rw [chooses, index, asked]
      rfl
    dsimp only
    by_cases yes : selector ⟨className, c.flags, name, descriptor, m.flags, true⟩ = true
    · obtain ⟨a, here, _⟩ := Member.code_of_index index
      rw [if_pos yes, here]
      refine stays_bind (stays_inMethod _ (stays_payload sound complete
        (rest i a index here yes))) fun result _ woven => stays_pure ⟨?_, ?_, ?_⟩
      · refine ⟨className, name, descriptor, self, found, found', fun j b there put _ => ?_⟩
        rw [payload_replaced index there put]
        exact woven
      · rw [chosen, yes]
        rfl
      · exact chooses_replaced
    · rw [if_neg yes]
      refine stays_pure ⟨rests, ?_, rfl⟩
      rw [chosen, Bool.eq_false_of_not_eq_true yes]
      rfl

theorem stays_members {ms done : List Member} {count : WeaveCount}
    (rests : ∀ m ∈ ms, MemberRests chain selector c c.pool m) :
    (members (member chain selector className c.flags c.requiresStackMaps) done count ms).Stays c.pool
      fun result => ∃ rest, result.1 = done.reverse ++ rest ∧
        (∀ m ∈ rest, MemberRests chain selector c c.pool m) ∧
        rest.countP (chooses selector c c.pool) = ms.countP (chooses selector c c.pool) ∧
        result.2.methods = count.methods + ms.countP (chooses selector c c.pool) := by
  induction ms generalizing done count with
  | nil => exact stays_pure ⟨[], by simp, nofun, rfl, rfl⟩
  | cons m ms ih =>
    rw [List.forall_mem_cons] at rests
    obtain ⟨here, later⟩ := rests
    rw [members_cons]
    refine stays_bind (stays_member sound complete self here) fun woven _ ⟨again, on, same⟩ => ?_
    refine stays_weaken (ih later) ?_
    rintro result ⟨rest, listed, each, chosen, counted⟩
    refine ⟨(woven.map Prod.fst).getD m :: rest, ?_, List.forall_mem_cons.mpr ⟨again, each⟩, ?_, ?_⟩
    · rw [listed, List.reverse_cons, List.append_assoc, List.singleton_append]
    · rw [List.countP_cons, List.countP_cons, chosen, same]
    · rw [counted, List.countP_cons, ← on, WeaveCount.methods_tally]
      omega

end Again

/-- A class of which a method is chosen and all members rest. -/
structure ClassRests (chain : Chain) (selector : Selector) (c : ClassFile) : Prop where
  members : ∀ m ∈ c.methods, MemberRests chain selector c c.pool m
  chosen : 0 < c.methods.countP (chooses selector c c.pool)

def WovenTo (chain : Chain) (selector : Selector) (bytes bytes' : Bytes) : Prop :=
  ∃ methods sites, weaveUnit chain selector bytes = .ok (.woven bytes' methods sites)

section Classes
variable {chain : Chain} {selector : Selector}

theorem chooses_again {c : ClassFile} {r : Pool} {m m' : Member} (grows : c.pool.Grows r)
    (named : ∀ a ∈ m.attributes, a.name.toNat < c.pool.size) (rewoven : Rewoven selector c r m m')
    (on : chooses selector c r m = true) (methods : List Member) :
    chooses selector { c with pool := r, methods } r m' = true := by
  obtain ⟨i, a, payload, index, here, _, rfl⟩ := rewoven.woven on
  have same : { m with attributes := m.attributes.set i { a with payload } } =
      replaced m i payload := by
    simp [replaced, List.modify_eq_set_getElem?, here]
  rw [same, chooses_replaced]
  unfold chooses at on ⊢
  rwa [Member.codeIndex_grows grows named]

theorem rests_of_woven {bytes bytes' : Bytes} {c : ClassFile}
    (parsed : ClassFile.parse bytes = .ok c)
    (named : ∀ m ∈ c.methods, m.NamesInside c.pool) (usable : chain.AddsUsable)
    (run : WovenTo chain selector bytes bytes') : chain.isEmpty = false ∧
      ∃ c', ClassFile.parse bytes' = .ok c' ∧ ClassRests chain selector c' := by
  obtain ⟨methods, sites, run⟩ := run
  obtain ⟨filled, className, ms, pool, self, woven, some, encoded⟩ := woven_cases parsed run
  have start := extends_parsed parsed
  have attributes : ∀ m ∈ c.methods, ∀ a ∈ m.attributes, a.name.toNat < c.pool.size :=
    fun m member => (named m member).attributes
  obtain ⟨grown, _, rest, rfl, related, counted⟩ := members_ok usable self attributes start woven
  obtain ⟨_, _, rfl, each⟩ := rests_of_members usable self named start woven
  refine ⟨filled, _, ClassFile.parse_written grown.built encoded, each, ?_⟩
  have some' : 0 < c.methods.countP (chooses selector c pool) := by
    dsimp only at counted
    omega
  obtain ⟨m, member, on⟩ := List.countP_pos_iff.mp some'
  obtain ⟨m', member', rewoven⟩ := related_of_mem related member
  exact List.countP_pos_iff.mpr
    ⟨m', member', chooses_again grown.beyond.grows (attributes m member) rewoven on _⟩

theorem limited_weaveUnit (filled : chain.isEmpty = false) {bytes : Bytes} {c : ClassFile}
    (parsed : ClassFile.parse bytes = .ok c) (rests : ClassRests chain selector c) :
    Limited (weaveUnit chain selector bytes) fun outcome => ∃ bytes' methods sites c',
      outcome = .woven bytes' methods sites ∧ ClassFile.parse bytes' = .ok c' ∧ c'.pool = c.pool ∧
        ClassRests chain selector c' := by
  have built := ClassFile.built_of_parse parsed
  have sound := ClassFile.sound_of_parse parsed
  have complete := Pool.complete_of_built built
  obtain ⟨m, member, _⟩ := List.countP_pos_iff.mp rests.chosen
  obtain ⟨className, _, _, self, _⟩ := rests.members m member
  have woven : (members (Weaving.member chain selector className c.flags c.requiresStackMaps) []
      ⟨0, 0⟩ c.methods).Stays c.pool _ := stays_members sound complete self rests.members
  have first : Limited (ClassFile.parse bytes) (c = ·) := limited_of_ok parsed rfl
  have second : Limited (c.name.mapError Error.malformed) (className = ·) :=
    limited_of_ok (mapError_ok_iff.mpr self) rfl
  unfold weaveUnit
  refine limited_bind first ?_
  rintro _ _ rfl
  rw [if_neg (ne_true_of_eq_false filled)]
  refine limited_bind second ?_
  rintro _ _ rfl
  dsimp only
  cases run : members (Weaving.member chain selector className c.flags c.requiresStackMaps) []
      ⟨0, 0⟩ c.methods c.pool with
  | error e q =>
    unfold PoolM.Stays at woven
    rw [run] at woven
    exact woven
  | ok result q =>
    obtain ⟨ms, count⟩ := result
    obtain ⟨rfl, rest, rfl, each, chosen, counted⟩ := stays_ok woven run
    have some := rests.chosen
    have more : count.methods ≠ 0 := by
      dsimp only at counted
      omega
    dsimp only
    rw [if_neg more]
    refine limited_bind (ClassFile.limited_write _) fun bytes' written _ => ?_
    have again : ClassRests chain selector { c with methods := ms } :=
      ⟨each, lt_of_lt_of_eq some chosen.symm⟩
    exact ⟨bytes', _, _, { c with methods := ms }, rfl, ClassFile.parse_written built written, rfl,
      again⟩

/-- However often a class is woven again, the pool stays as it is. -/
theorem rests_of_reweaving (filled : chain.isEmpty = false) {bytes again : Bytes} {c : ClassFile}
    (parsed : ClassFile.parse bytes = .ok c) (rests : ClassRests chain selector c)
    (reweaving : Relation.ReflTransGen (WovenTo chain selector) bytes again) :
    ∃ c', ClassFile.parse again = .ok c' ∧ c'.pool = c.pool ∧ ClassRests chain selector c' := by
  induction reweaving with
  | refl => exact ⟨c, parsed, rfl, rests⟩
  | tail _ step ih =>
    obtain ⟨c', parsed', same, rests'⟩ := ih
    obtain ⟨methods, sites, run⟩ := step
    have limited := limited_weaveUnit filled parsed' rests'
    rw [run] at limited
    obtain ⟨_, _, _, c'', made, parsed'', same', rests''⟩ := limited
    cases made
    exact ⟨c'', parsed'', same'.trans same, rests''⟩

def CodeReads (pool : Pool) (m : Member) : Prop :=
  ∃ i a code b, m.codeIndex pool = some i ∧ m.attributes[i]? = some a ∧
    CodeAttribute.parse a.payload = .ok code ∧ Body.ofCode code pool = .ok b

theorem reads_of_rests {c : ClassFile} {m : Member} (rests : MemberRests chain selector c c.pool m)
    (on : chooses selector c c.pool m = true) : CodeReads c.pool m := by
  obtain ⟨className, name, descriptor, self, found, found', rest⟩ := rests
  unfold chooses at on
  rw [Bool.and_eq_true, Option.isSome_iff_exists] at on
  obtain ⟨⟨i, index⟩, accepted⟩ := on
  obtain ⟨a, here, _⟩ := Member.code_of_index index
  rw [candidate_of_names self found found'] at accepted
  obtain ⟨code, b, parsed, read, _⟩ := rest i a index here accepted
  exact ⟨i, a, code, b, index, here, parsed, read⟩

/-- A class that was woven can be woven again and again. Class file, code attributes and bodies are
read every time, only what is too large is refused, and the pool stays as the first weaving left
it. -/
theorem weaveUnit_settles {bytes bytes' : Bytes} {c : ClassFile}
    (parsed : ClassFile.parse bytes = .ok c) (named : ∀ m ∈ c.methods, m.NamesInside c.pool)
    (usable : chain.AddsUsable) (run : WovenTo chain selector bytes bytes') :
    ∃ c', ClassFile.parse bytes' = .ok c' ∧
      ∀ again, Relation.ReflTransGen (WovenTo chain selector) bytes' again →
        ∃ c'', ClassFile.parse again = .ok c'' ∧ c''.pool = c'.pool ∧
          (∀ m ∈ c''.methods, chooses selector c'' c''.pool m = true → CodeReads c''.pool m) ∧
          Limited (weaveUnit chain selector again) fun outcome =>
            ∃ bytes'' methods sites, outcome = .woven bytes'' methods sites := by
  obtain ⟨filled, c', parsed', rests⟩ := rests_of_woven parsed named usable run
  refine ⟨c', parsed', fun again reweaving => ?_⟩
  obtain ⟨c'', parsed'', same, rests'⟩ := rests_of_reweaving filled parsed' rests reweaving
  refine ⟨c'', parsed'', same, fun m member on => reads_of_rests (rests'.members m member) on, ?_⟩
  refine limited_weaken (limited_weaveUnit filled parsed'' rests') ?_
  rintro _ ⟨bytes'', methods, sites, _, rfl, _⟩
  exact ⟨bytes'', methods, sites, rfl⟩

end Classes

theorem threeMethods_settles : ∃ c bytes', ClassFile.parse threeMethods = .ok c ∧
    (∀ m ∈ c.methods, m.NamesInside c.pool) ∧ reporting.AddsUsable ∧
    WovenTo reporting Selector.default threeMethods bytes' ∧
    ∃ c', ClassFile.parse bytes' = .ok c' ∧
      ∀ again, Relation.ReflTransGen (WovenTo reporting Selector.default) bytes' again →
        ∃ c'', ClassFile.parse again = .ok c'' ∧ c''.pool = c'.pool ∧
          (∀ m ∈ c''.methods, chooses Selector.default c'' c''.pool m = true →
            CodeReads c''.pool m) ∧
          Limited (weaveUnit reporting Selector.default again) fun outcome =>
            ∃ bytes'' methods sites, outcome = .woven bytes'' methods sites := by
  have accepted : (ClassFile.parse threeMethods).toOption.any (fun c => c.methods.all fun m =>
      m.attributes.all fun a => decide (a.name.toNat < c.pool.size) &&
        (CodeAttribute.parse a.payload).toOption.all fun code =>
          code.attributes.all fun b => b.name.toNat < c.pool.size) = true := by decide +kernel
  have weaves : ((weaveUnit reporting Selector.default threeMethods).toOption.bind counts?).isSome =
      true := by decide +kernel
  have usable : reporting.AddsUsable := callbacks_add_usable (by simp [reporting])
  cases parsed : ClassFile.parse threeMethods with
  | error e =>
    rw [parsed] at accepted
    cases accepted
  | ok c =>
    have named : ∀ m ∈ c.methods, m.NamesInside c.pool := by
      rw [parsed] at accepted
      simp only [Except.toOption, Option.any_some, List.all_eq_true, Bool.and_eq_true,
        decide_eq_true_eq] at accepted
      intro m member
      refine ⟨fun a inside => (accepted m member a inside).1, fun a inside _ code read => ?_⟩
      have nested := (accepted m member a inside).2
      rw [read] at nested
      simpa using nested
    cases run : weaveUnit reporting Selector.default threeMethods with
    | error e =>
      rw [run] at weaves
      cases weaves
    | ok outcome =>
      cases outcome with
      | unchanged =>
        rw [run] at weaves
        cases weaves
      | woven bytes' methods sites =>
        have woven : WovenTo reporting Selector.default threeMethods bytes' :=
          ⟨methods, sites, run⟩
        exact ⟨c, bytes', rfl, named, usable, woven,
          weaveUnit_settles parsed named usable woven⟩
end Weaving
end ClassHooks
