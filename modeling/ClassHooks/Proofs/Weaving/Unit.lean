import ClassHooks.Proofs.Hook.Constants
import ClassHooks.Proofs.ClassFile
import ClassHooks.Proofs.Weaving.Carrying
import ClassHooks.Weaving.Unit

/-!
What weaving does to a class as a whole: it changes the code of the selected methods and puts
constants behind those that were there, and nothing else.
-/
namespace ClassHooks

namespace Pool
variable {p q : Pool}

theorem get_grows (grows : p.Grows q) {i : UInt16} {c : Constant} (found : p.get i = .ok c) :
    q.get i = .ok c := by
  unfold get at found
  split at found
  · cases found
  · cases found
  · rename_i usable here
    cases found
    unfold get
    rw [grows _ _ here]
    split
    · rename_i same
      exact absurd (Option.some.inj same) usable
    · rename_i none
      cases none
    · rename_i same
      cases same
      rfl

theorem utf8_grows (grows : p.Grows q) {i : UInt16} {text : String} (found : p.utf8 i = .ok text) :
    q.utf8 i = .ok text := by
  obtain ⟨c, here, decoded⟩ := bind_ok_iff.mp found
  exact bind_ok_iff.mpr ⟨c, get_grows grows here, decoded⟩

theorem className_grows (grows : p.Grows q) {i : UInt16} {name : String}
    (found : p.className i = .ok name) : q.className i = .ok name := by
  obtain ⟨c, here, named⟩ := bind_ok_iff.mp found
  refine bind_ok_iff.mpr ⟨c, get_grows grows here, ?_⟩
  cases c with
  | classRef n => exact utf8_grows grows named
  | _ => cases named

theorem prefix_of_grows (grows : p.Grows q) : p.entries.toList <+: q.entries.toList := by
  refine List.prefix_iff_getElem?.mpr fun i inside => ?_
  have here : p.entries[i]? = some p.entries.toList[i] := by
    rw [← Array.getElem?_toList]
    exact List.getElem?_eq_getElem inside
  rw [Array.getElem?_toList]
  exact grows i _ here

end Pool

theorem Member.codeIndex_grows {p q : Pool} (grows : p.Grows q) {m : Member}
    (named : ∀ a ∈ m.attributes, a.name.toNat < p.size) : m.codeIndex q = m.codeIndex p := by
  unfold codeIndex
  revert named
  induction m.attributes with
  | nil => exact fun _ => rfl
  | cons a as ih =>
    intro named
    rw [List.forall_mem_cons] at named
    rw [List.findIdx?_cons, List.findIdx?_cons, ih named.2,
      Attribute.hasName_of_inside grows named.1]

theorem Member.code_of_index {pool : Pool} {m : Member} {i : Nat}
    (index : m.codeIndex pool = some i) :
    ∃ a, m.attributes[i]? = some a ∧ a.hasName pool Attribute.code = true := by
  obtain ⟨bound, holds, _⟩ := List.findIdx?_eq_some_iff_getElem.mp index
  exact ⟨_, List.getElem?_eq_getElem bound, holds⟩

def WeaveCount.tally (count : WeaveCount) : Option (Member × Nat) → WeaveCount
  | none => count
  | some (_, sites) => ⟨count.methods + 1, count.returnSites + sites⟩

theorem WeaveCount.methods_tally (count : WeaveCount) (result : Option (Member × Nat)) :
    (count.tally result).methods = count.methods + if result.isSome = true then 1 else 0 := by
  cases result <;> rfl

theorem usable_lift (result : Except Error α) : PoolM.AddsUsable (PoolM.lift result) := by
  intro I _ p holds
  cases result <;> exact holds

namespace Body

theorem usable_table {xs : List α} {entries : Except Error β} {name : String}
    {write : β → Except Error Bytes} : PoolM.AddsUsable (do
      if xs.isEmpty then return []
      let entries ← PoolM.lift entries
      let index ← Pool.addUtf8 name
      return [⟨index, ← PoolM.lift (write entries)⟩] : PoolM (List Attribute)) := by
  split
  · exact Pool.usable_pure []
  · exact Pool.usable_bind (usable_lift _) fun _ => Pool.usable_bind (Pool.usable_addUtf8 _)
      fun _ => Pool.usable_bind (usable_lift _) fun _ => Pool.usable_pure _

theorem usable_encodeFrames (e : Encoded) (frames : Option (List (Frame Label))) :
    PoolM.AddsUsable (encodeFrames e frames) := by
  cases frames with
  | none => exact Pool.usable_pure []
  | some frames =>
    exact Pool.usable_bind (usable_lift _) fun _ => Pool.usable_bind (Pool.usable_addUtf8 _)
      fun _ => Pool.usable_bind (usable_lift _) fun _ => Pool.usable_pure _

theorem usable_toCode (b : Body) : PoolM.AddsUsable b.toCode :=
  Pool.usable_bind (usable_lift _) fun e => Pool.usable_bind (usable_lift _) fun _ =>
    Pool.usable_bind usable_table fun _ => Pool.usable_bind usable_table fun _ =>
      Pool.usable_bind usable_table fun _ => Pool.usable_bind (usable_encodeFrames e _) fun _ =>
        Pool.usable_pure _

end Body

namespace Weaving

theorem emits_built {chain : Chain} (usable : chain.AddsUsable) {method : MethodName}
    {returnType : Option FieldType} {returns : Nat} {p p' : Pool} {enter exit error : Hook}
    (built : p.Built) (emits : Emits chain method returnType returns p enter exit error p') :
    p'.Built := by
  cases emits with
  | mk enters exits errors =>
    have first := chain_emit_built usable built enters
    refine chain_emit_built usable ?_ errors
    split at exits
    · exact chain_emit_built usable first exits
    · obtain ⟨_, rfl⟩ := state_pure_ok_iff.mp exits
      exact first

theorem length_le_flatten {parts : List (List α)} (filled : ∀ part ∈ parts, part ≠ []) :
    parts.length ≤ parts.flatten.length := by
  induction parts with
  | nil => exact Nat.le_refl 0
  | cons part parts ih =>
    rw [List.forall_mem_cons] at filled
    have first := List.length_pos_iff.mpr filled.1
    have rest := ih filled.2
    rw [List.length_cons, List.flatten_cons, List.length_append]
    omega

/-- Every region is left with a piece, and one for the error hook comes behind them. -/
theorem handlers_grow {b woven : Body} {w : Interleaving} (sound : b.Sound)
    (shape : Woven b w woven) : b.handlers.length < woven.handlers.length := by
  obtain ⟨parts, last, whole, _, related⟩ := shape.handlers
  have filled : ∀ part ∈ parts, part ≠ [] := by
    rintro part inside rfl
    obtain ⟨r, member, replaces⟩ := related_of_mem_right related inside
    obtain ⟨s, f, h, start, finish, filled, _, _⟩ := sound.regions r member
    have bound : f ≤ b.instructions.length := Item.marks_le finish
    have covered : r.Covers b.items s := ⟨s, f, start, finish, Nat.le_refl s, filled⟩
    obtain ⟨q, none, _⟩ := (replaces.covers (w.place s)).mpr
      ⟨s, by rw [shape.original]; omega, covered, rfl⟩
    exact List.not_mem_nil none
  have pieces := length_le_flatten filled
  rw [whole, List.length_append, List.length_singleton, related.length_eq]
  omega

/-- The pool is one that can be written and read back, with what is in `p` where it was. -/
structure Extends (p q : Pool) : Prop where
  beyond : p.Beyond q
  built : q.Built

theorem extends_parsed {bytes : Bytes} {c : ClassFile} (parsed : ClassFile.parse bytes = .ok c) :
    Extends c.pool c.pool :=
  ⟨Pool.beyond_self (ClassFile.sound_of_parse parsed), ClassFile.built_of_parse parsed⟩

section Method
variable {chain : Chain} {requireFrames : Bool} {method : MethodName} {p q q' : Pool} {old new : Bytes}
  {sites : Nat}

structure Rewritten (chain : Chain) (requireFrames : Bool) (method : MethodName) (q : Pool)
    (old : Bytes) (c : CodeAttribute) (b : Body) (woven : WovenMethod) (q₁ : Pool)
    (c' : CodeAttribute) (new : Bytes) (q' : Pool) : Prop where
  parsed : CodeAttribute.parse old = .ok c
  read : Body.ofCode c q = .ok b
  weaves : b.weave chain requireFrames method q = .ok woven q₁
  coded : woven.body.toCode q₁ = .ok c' q'
  written : c'.write = .ok new

theorem rewritten_of_payload
    (run : payload chain requireFrames method old q = .ok (new, sites) q') :
    ∃ c b woven q₁ c', Rewritten chain requireFrames method q old c b woven q₁ c' new q' := by
  obtain ⟨c, _, lifted, run⟩ := state_bind_ok_iff.mp run
  obtain ⟨parsed, rfl⟩ := PoolM.lift_ok_iff.mp lifted
  obtain ⟨_, _, same, run⟩ := state_bind_ok_iff.mp run
  cases same
  obtain ⟨b, _, lifted, run⟩ := state_bind_ok_iff.mp run
  obtain ⟨read, rfl⟩ := PoolM.lift_ok_iff.mp lifted
  obtain ⟨woven, q₁, weaves, run⟩ := state_bind_ok_iff.mp run
  obtain ⟨c', q', coded, run⟩ := state_bind_ok_iff.mp run
  obtain ⟨bytes, _, lifted, made⟩ := state_bind_ok_iff.mp run
  obtain ⟨written, rfl⟩ := PoolM.lift_ok_iff.mp lifted
  cases made
  exact ⟨c, b, woven, q₁, c', parsed, read, weaves, coded, written⟩

theorem payload_keeps {J : Pool → Prop} (each : ∀ c, Keeps J (Pool.add c)) (before : J q)
    (run : payload chain requireFrames method old q = .ok (new, sites) q') : J q' := by
  obtain ⟨c, b, woven, q₁, c', _, _, weaves, coded, _⟩ := rewritten_of_payload run
  obtain ⟨enter, exit, error, made⟩ := made_of_weave weaves
  obtain ⟨_, p₁, frames, _, emits, adds, _⟩ := made.emits
  have emitted := emits_keeps each before emits
  have framed := holds_of_keeps (usable_addFrame b requireFrames J fun c _ => each c) emitted adds
  exact holds_of_keeps (Body.usable_toCode woven.body J fun c _ => each c) framed coded

theorem payload_ok (usable : chain.AddsUsable) (grown : Extends p q)
    (run : payload chain requireFrames method old q = .ok (new, sites) q') :
    Extends p q' ∧ q.Grows q' ∧ new ≠ old := by
  obtain ⟨c, b, woven, q₁, c', parsed, read, weaves, coded, written⟩ := rewritten_of_payload run
  have sound := grown.beyond.sound
  obtain ⟨enter, exit, error, made⟩ := made_of_weave weaves
  obtain ⟨_, p₁, frames, _, emits, adds, _⟩ := made.emits
  have emitted := emits_beyond sound emits
  obtain ⟨framing, _⟩ := addFrame_ok emitted.sound adds
  obtain ⟨later, e, encodes⟩ := Body.encodes_of_toCode framing.sound coded
  have grows : q.Grows q' :=
    Pool.grows_trans emitted.grows (Pool.grows_trans framing.grows later.grows)
  have built : q'.Built := by
    have emitted := emits_built usable grown.built emits
    have framed := holds_of_keeps (usable_addFrame b requireFrames Pool.Built fun _ =>
      Pool.keeps_built) emitted adds
    exact holds_of_keeps (Body.usable_toCode woven.body Pool.Built fun _ => Pool.keeps_built)
      framed coded
  refine ⟨⟨⟨later.sound, Pool.grows_trans grown.beyond.grows grows⟩, built⟩, grows, ?_⟩
  rintro rfl
  have more := handlers_grow (Body.sound_of_ofCode read)
    (woven_of_made (Body.sound_of_ofCode read) made)
  have back := CodeAttribute.parse_written written
  rw [parsed] at back
  cases back
  obtain ⟨_, t, _, _, labelled⟩ := Body.labelled_of_ofCode read
  have before := labelled.regions.length_eq
  have after := (mapM_ok_iff.mp encodes.handlers).length_eq
  omega

end Method

theorem inMethod_ok {operation : PoolM α} {a : α} {p p' : Pool}
    (run : inMethod method operation p = .ok a p') : operation p = .ok a p' := by
  unfold inMethod at run
  split at run
  · rename_i inside
    cases run
    exact inside
  · cases run

theorem member_cases {chain : Chain} {selector : Selector} {className : String} {flags : UInt16}
    {requireFrames : Bool} {m : Member} {q q' : Pool} {result : Option (Member × Nat)}
    (run : member chain selector className flags requireFrames m q = .ok result q') :
    ∃ name descriptor, q.utf8 m.name = .ok name ∧ q.utf8 m.descriptor = .ok descriptor ∧
      ((result = none ∧ q' = q ∧ ∀ i, m.codeIndex q = some i →
          selector ⟨className, flags, name, descriptor, m.flags, true⟩ = false) ∨
        ∃ i a new sites, m.codeIndex q = some i ∧ m.attributes[i]? = some a ∧
          selector ⟨className, flags, name, descriptor, m.flags, true⟩ = true ∧
          payload chain requireFrames ⟨className, name, descriptor⟩ a.payload q =
            .ok (new, sites) q' ∧
          result = some ({ m with
            attributes := m.attributes.modify i fun a => { a with payload := new } }, sites)) := by
  obtain ⟨_, _, same, run⟩ := state_bind_ok_iff.mp run
  cases same
  obtain ⟨name, _, lifted, run⟩ := state_bind_ok_iff.mp run
  obtain ⟨found, rfl⟩ := PoolM.lift_ok_iff.mp lifted
  obtain ⟨descriptor, _, lifted, run⟩ := state_bind_ok_iff.mp run
  obtain ⟨found', rfl⟩ := PoolM.lift_ok_iff.mp lifted
  rw [mapError_ok_iff] at found found'
  refine ⟨name, descriptor, found, found', ?_⟩
  rcases index : m.codeIndex q with _ | i
  · rw [index] at run
    cases run
    exact .inl ⟨rfl, rfl, nofun⟩
  · rw [index] at run
    dsimp only at run
    split at run
    · rename_i yes
      obtain ⟨⟨new, sites⟩, q₁, inside, made⟩ := state_bind_ok_iff.mp run
      cases made
      obtain ⟨a, here, _⟩ := Member.code_of_index index
      rw [here] at inside
      exact .inr ⟨i, a, new, sites, rfl, here, yes, inMethod_ok inside, rfl⟩
    · rename_i no
      cases run
      exact .inl ⟨rfl, rfl, fun _ _ => Bool.eq_false_of_not_eq_true no⟩

def candidate? (c : ClassFile) (pool : Pool) (m : Member) : Option Candidate := do
  let className ← (pool.className c.thisClass).toOption
  let name ← (pool.utf8 m.name).toOption
  let descriptor ← (pool.utf8 m.descriptor).toOption
  return ⟨className, c.flags, name, descriptor, m.flags, true⟩

theorem candidate_of_names {c : ClassFile} {pool : Pool} {m : Member}
    {className name descriptor : String} (self : pool.className c.thisClass = .ok className)
    (found : pool.utf8 m.name = .ok name) (found' : pool.utf8 m.descriptor = .ok descriptor) :
    candidate? c pool m = some ⟨className, c.flags, name, descriptor, m.flags, true⟩ := by
  simp only [candidate?, self, found, found', Except.toOption, bind, Option.bind, pure]

def chooses (selector : Selector) (c : ClassFile) (pool : Pool) (m : Member) : Bool :=
  (m.codeIndex c.pool).isSome && (candidate? c pool m).any selector

/-- A method before and behind weaving: at most the payload of its first code attribute differs, and
that only in a method that is chosen. -/
structure Rewoven (selector : Selector) (c : ClassFile) (pool : Pool) (m m' : Member) : Prop where
  named : (candidate? c pool m).isSome
  kept : chooses selector c pool m = false → m' = m
  woven : chooses selector c pool m = true → ∃ i a payload, m.codeIndex c.pool = some i ∧
    m.attributes[i]? = some a ∧ payload ≠ a.payload ∧
    m' = { m with attributes := m.attributes.set i { a with payload } }

theorem members_cons {weave : Member → PoolM (Option (Member × Nat))} {done : List Member}
    {count : WeaveCount} {m : Member} {ms : List Member} :
    members weave done count (m :: ms) = weave m >>= fun result =>
      members weave ((result.map Prod.fst).getD m :: done) (count.tally result) ms := by
  rw [members]
  refine congrArg (weave m >>= ·) (funext fun result => ?_)
  cases result <;> rfl

section Members
variable {chain : Chain} (usable : chain.AddsUsable) {selector : Selector} {c : ClassFile}
  {className : String} (self : c.pool.className c.thisClass = .ok className)
include usable self

theorem member_ok {requireFrames : Bool} {m : Member}
    (named : ∀ a ∈ m.attributes, a.name.toNat < c.pool.size) {q q' : Pool}
    (grown : Extends c.pool q) {result : Option (Member × Nat)}
    (run : member chain selector className c.flags requireFrames m q = .ok result q') :
    Extends c.pool q' ∧ q.Grows q' ∧ ∀ r, q'.Grows r →
      Rewoven selector c r m ((result.map Prod.fst).getD m) ∧
        chooses selector c r m = result.isSome := by
  obtain ⟨name, descriptor, found, found', cases⟩ := member_cases run
  have index := Member.codeIndex_grows grown.beyond.grows named
  have asked : ∀ r, q.Grows r → candidate? c r m =
      some ⟨className, c.flags, name, descriptor, m.flags, true⟩ := by
    intro r grows
    have all := Pool.grows_trans grown.beyond.grows grows
    exact candidate_of_names (Pool.className_grows all self) (Pool.utf8_grows grows found)
      (Pool.utf8_grows grows found')
  rw [index] at cases
  rcases cases with ⟨rfl, rfl, no⟩ | ⟨i, a, new, sites, first, here, yes, inside, rfl⟩
  · refine ⟨grown, Pool.grows_refl _, fun r grows => ?_⟩
    have off : chooses selector c r m = false := by
      rw [chooses, asked r grows]
      cases first : m.codeIndex c.pool with
      | none => rfl
      | some i => simpa using no i first
    exact ⟨⟨by rw [asked r grows]; rfl, fun _ => rfl, by simp [off]⟩, off⟩
  · obtain ⟨grown', grows, changed⟩ := payload_ok usable grown inside
    refine ⟨grown', grows, fun r later => ?_⟩
    have all := asked r (Pool.grows_trans grows later)
    have on : chooses selector c r m = true := by
      rw [chooses, first, all]
      exact yes
    refine ⟨⟨by rw [all]; rfl, by simp [on], fun _ => ?_⟩, on⟩
    refine ⟨i, a, new, first, here, changed, ?_⟩
    simp only [Option.map_some, Option.getD_some, List.modify_eq_set_getElem?, here,
      Option.map_eq_map]

theorem members_ok {requireFrames : Bool} {ms done out : List Member}
    (named : ∀ m ∈ ms, ∀ a ∈ m.attributes, a.name.toNat < c.pool.size) {q r : Pool}
    (grown : Extends c.pool q) {count total : WeaveCount}
    (run : members (member chain selector className c.flags requireFrames) done count ms q =
      .ok (out, total) r) :
    Extends c.pool r ∧ q.Grows r ∧ ∃ rest, out = done.reverse ++ rest ∧
      List.Forall₂ (Rewoven selector c r) ms rest ∧
      total.methods = count.methods + ms.countP (chooses selector c r) := by
  induction ms generalizing done count q with
  | nil =>
    cases run
    exact ⟨grown, Pool.grows_refl _, [], by simp, .nil, rfl⟩
  | cons m ms ih =>
    rw [List.forall_mem_cons] at named
    rw [members_cons] at run
    obtain ⟨result, q₁, first, run⟩ := state_bind_ok_iff.mp run
    obtain ⟨grown₁, grows, here⟩ := member_ok usable self named.1 grown first
    obtain ⟨grown', grows', rest, rfl, related, counted⟩ := ih named.2 grown₁ run
    obtain ⟨rewoven, chosen⟩ := here r grows'
    refine ⟨grown', Pool.grows_trans grows grows', (result.map Prod.fst).getD m :: rest, by simp,
      .cons rewoven related, ?_⟩
    rw [counted, List.countP_cons, chosen, WeaveCount.methods_tally]
    omega

end Members

theorem woven_cases {bytes bytes' : Bytes} {chain : Chain} {selector : Selector}
    {methods sites : Nat} {c : ClassFile} (parsed : ClassFile.parse bytes = .ok c)
    (run : weaveUnit chain selector bytes = .ok (.woven bytes' methods sites)) :
    chain.isEmpty = false ∧ ∃ className ms pool, c.pool.className c.thisClass = .ok className ∧
      members (member chain selector className c.flags c.requiresStackMaps) [] ⟨0, 0⟩ c.methods
        c.pool = .ok (ms, ⟨methods, sites⟩) pool ∧
      methods ≠ 0 ∧ { c with pool, methods := ms }.write = .ok bytes' := by
  unfold weaveUnit at run
  obtain ⟨_, again, run⟩ := bind_ok_iff.mp run
  rw [parsed] at again
  cases again
  split at run
  · cases run
  rename_i filled
  obtain ⟨className, self, run⟩ := bind_ok_iff.mp run
  rw [mapError_ok_iff] at self
  dsimp only at run
  split at run
  · cases run
  rename_i ms count pool woven
  split at run
  · cases run
  rename_i some
  obtain ⟨written, encoded, made⟩ := bind_ok_iff.mp run
  cases made
  exact ⟨Bool.eq_false_of_not_eq_true filled, className, ms, pool, self, woven, some, encoded⟩

/-- Weaving a class changes the code of the methods that are chosen and nothing else; constants are
put behind those that were there. -/
theorem weaveUnit_keeps_rest {bytes bytes' : Bytes} {chain : Chain} {selector : Selector}
    {methods sites : Nat} {c : ClassFile} (parsed : ClassFile.parse bytes = .ok c)
    (named : ∀ m ∈ c.methods, ∀ a ∈ m.attributes, a.name.toNat < c.pool.size)
    (usable : chain.AddsUsable)
    (run : weaveUnit chain selector bytes = .ok (.woven bytes' methods sites)) :
    ∃ pool ms, ClassFile.parse bytes' = .ok { c with pool, methods := ms } ∧
      c.pool.entries.toList <+: pool.entries.toList ∧
      List.Forall₂ (Rewoven selector c pool) c.methods ms ∧
      methods = c.methods.countP (chooses selector c pool) := by
  obtain ⟨_, className, ms, pool, self, woven, _, encoded⟩ := woven_cases parsed run
  obtain ⟨grown, grows, rest, rfl, related, counted⟩ :=
    members_ok usable self named (extends_parsed parsed) woven
  refine ⟨pool, ms, ClassFile.parse_written grown.built encoded, Pool.prefix_of_grows grows,
    related, ?_⟩
  rwa [Nat.zero_add] at counted

def counts? : Outcome → Option WeaveCount
  | .woven _ methods sites => some ⟨methods, sites⟩
  | .unchanged => none

def threeMethods : Bytes :=
  [0xCA, 0xFE, 0xBA, 0xBE, 0, 0, 0, 50, 0, 7,
    1, 0, 1, 0x41, 7, 0, 1, 1, 0, 1, 0x6D, 1, 0, 3, 0x28, 0x29, 0x56,
    1, 0, 4, 0x43, 0x6F, 0x64, 0x65, 1, 0, 6, 0x3C, 0x69, 0x6E, 0x69, 0x74, 0x3E,
    0, 0x21, 0, 2, 0, 0, 0, 0, 0, 0, 0, 3,
    0, 0, 0, 3, 0, 4, 0, 1, 0, 5, 0, 0, 0, 13, 0, 1, 0, 1, 0, 0, 0, 1, 0xB1, 0, 0, 0, 0,
    0, 0, 0, 6, 0, 4, 0, 1, 0, 5, 0, 0, 0, 13, 0, 1, 0, 1, 0, 0, 0, 1, 0xB1, 0, 0, 0, 0,
    4, 0, 0, 3, 0, 4, 0, 0, 0, 0]

theorem threeMethods_keeps_rest : ∃ c bytes', ClassFile.parse threeMethods = .ok c ∧
    (∀ m ∈ c.methods, ∀ a ∈ m.attributes, a.name.toNat < c.pool.size) ∧ reporting.AddsUsable ∧
    weaveUnit reporting Selector.default threeMethods = .ok (.woven bytes' 1 1) ∧
    ∃ pool ms, ClassFile.parse bytes' = .ok { c with pool, methods := ms } ∧
      c.pool.entries.toList <+: pool.entries.toList ∧
      List.Forall₂ (Rewoven Selector.default c pool) c.methods ms ∧
      1 = c.methods.countP (chooses Selector.default c pool) := by
  have accepted : (ClassFile.parse threeMethods).toOption.any (fun c => c.methods.all fun m =>
      m.attributes.all fun a => a.name.toNat < c.pool.size) = true := by decide +kernel
  have weaves : (weaveUnit reporting Selector.default threeMethods).toOption.bind counts? =
      some ⟨1, 1⟩ := by decide +kernel
  have usable : reporting.AddsUsable := callbacks_add_usable (by simp [reporting])
  cases parsed : ClassFile.parse threeMethods with
  | error e =>
    rw [parsed] at accepted
    cases accepted
  | ok c =>
    have named : ∀ m ∈ c.methods, ∀ a ∈ m.attributes, a.name.toNat < c.pool.size := by
      simpa [parsed, Except.toOption] using accepted
    cases run : weaveUnit reporting Selector.default threeMethods with
    | error e =>
      rw [run] at weaves
      cases weaves
    | ok outcome =>
      rw [run] at weaves
      cases outcome with
      | unchanged => cases weaves
      | woven bytes' methods sites =>
        cases weaves
        exact ⟨c, bytes', rfl, named, usable, rfl, weaveUnit_keeps_rest parsed named usable run⟩

end Weaving
end ClassHooks
