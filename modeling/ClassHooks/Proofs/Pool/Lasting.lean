import ClassHooks.Proofs.Pool.History
import ClassHooks.Proofs.Pool.Resolving

/-!
References that last. What an addition answered is found again under that number, after further
additions and after the pool was written and read; and the pool that was read answers every further
addition as the one that was written would have done.
-/
namespace ClassHooks
namespace Pool

/-- What stands under the number is what the addition asked for, in its own words. -/
def Resolves (p : Pool) (i : UInt16) : Addition → Prop
  | .constant c => p.get i = .ok c
  | .utf8 text => p.utf8 i = .ok text
  | .classRef name => p.className i = .ok name
  | .string text => ∃ n, p.get i = .ok (.string n) ∧ p.utf8 n = .ok text
  | .integer value => p.get i = .ok (.integer value)
  | .nameAndType name descriptor =>
    ∃ n d, p.get i = .ok (.nameAndType n d) ∧ p.utf8 n = .ok name ∧ p.utf8 d = .ok descriptor
  | .methodRef owner name descriptor | .fieldRef owner name descriptor =>
    p.member i = .ok (owner, name, descriptor)

def answers : List Addition → Pool → List (Except Error UInt16)
  | [], _ => []
  | a :: rest, p =>
    match a.perform p with
    | .ok i q => .ok i :: answers rest q
    | .error e q => .error e :: answers rest q

section Grows
variable {p q : Pool}

theorem get_of_grows (grows : p.Grows q) {i : UInt16} {c : Constant} (here : p.get i = .ok c) :
    q.get i = .ok c := by
  unfold get at here
  split at here
  · cases here
  · cases here
  · rename_i usable found
    cases here
    exact get_of_entry (grows _ _ found) usable

theorem utf8_of_grows (grows : p.Grows q) {i : UInt16} {text : String}
    (here : p.utf8 i = .ok text) : q.utf8 i = .ok text := by
  obtain ⟨c, found, decoded⟩ := bind_ok_iff.mp here
  exact bind_ok_iff.mpr ⟨c, get_of_grows grows found, decoded⟩

theorem className_of_grows (grows : p.Grows q) {i : UInt16} {name : String}
    (here : p.className i = .ok name) : q.className i = .ok name := by
  obtain ⟨c, found, named⟩ := bind_ok_iff.mp here
  refine bind_ok_iff.mpr ⟨c, get_of_grows grows found, ?_⟩
  cases c with
  | classRef n => exact utf8_of_grows grows named
  | _ => cases named

theorem member_of_grows (grows : p.Grows q) {i : UInt16} {parts : String × String × String}
    (here : p.member i = .ok parts) : q.member i = .ok parts := by
  obtain ⟨c, found, here⟩ := bind_ok_iff.mp here
  refine bind_ok_iff.mpr ⟨c, get_of_grows grows found, ?_⟩
  cases split : memberParts? c with
  | none =>
    rw [split] at here
    cases here
  | some both =>
    rw [split] at here
    obtain ⟨k, typed, here⟩ := bind_ok_iff.mp here
    refine bind_ok_iff.mpr ⟨k, get_of_grows grows typed, ?_⟩
    cases k with
    | nameAndType n d =>
      obtain ⟨owner, named, here⟩ := bind_ok_iff.mp here
      obtain ⟨name, first, here⟩ := bind_ok_iff.mp here
      obtain ⟨descriptor, second, here⟩ := bind_ok_iff.mp here
      exact bind_ok_iff.mpr ⟨_, className_of_grows grows named,
        bind_ok_iff.mpr ⟨_, utf8_of_grows grows first,
          bind_ok_iff.mpr ⟨_, utf8_of_grows grows second, here⟩⟩⟩
    | _ => cases here

theorem resolves_of_grows (grows : p.Grows q) {i : UInt16} {a : Addition}
    (here : p.Resolves i a) : q.Resolves i a := by
  cases a with
  | constant c => exact get_of_grows grows here
  | utf8 text => exact utf8_of_grows grows here
  | classRef name => exact className_of_grows grows here
  | string text =>
    obtain ⟨n, found, read⟩ := here
    exact ⟨n, get_of_grows grows found, utf8_of_grows grows read⟩
  | integer value => exact get_of_grows grows here
  | nameAndType name descriptor =>
    obtain ⟨n, d, found, first, second⟩ := here
    exact ⟨n, d, get_of_grows grows found, utf8_of_grows grows first, utf8_of_grows grows second⟩
  | methodRef owner name descriptor => exact member_of_grows grows here
  | fieldRef owner name descriptor => exact member_of_grows grows here

/-- What a call has just answered is what it asked for. -/
theorem resolves_of_perform (sound : p.Sound) {a : Addition} (usable : a ≠ .constant .unusable)
    {i : UInt16} (run : a.perform p = .ok i q) : q.Resolves i a := by
  cases a with
  | constant c =>
    exact get_of_entry (add_ok sound run).2 fun same => usable (congrArg Addition.constant same)
  | utf8 text => exact utf8_of_holdsText (addUtf8_ok sound run).2
  | classRef name => exact className_of_holdsClass (addClass_ok sound run).2
  | string text =>
    obtain ⟨-, n, here, text⟩ := addString_ok sound run
    exact ⟨n, get_of_entry here nofun, utf8_of_holdsText text⟩
  | integer value => exact get_of_entry (add_ok sound run).2 nofun
  | nameAndType name descriptor =>
    obtain ⟨-, n, d, here, first, second⟩ := addNameAndType_ok sound run
    exact ⟨n, d, get_of_entry here nofun, utf8_of_holdsText first, utf8_of_holdsText second⟩
  | methodRef owner name descriptor =>
    exact member_of_holdsMethod (addMethodRef_ok sound run).2
  | fieldRef owner name descriptor => exact member_of_holdsField (addFieldRef_ok sound run).2

end Grows

namespace History
variable {o p : Pool} {calls : List (Addition × UInt16)}

theorem grows (history : History o calls p) : o.Grows p :=
  history.keeps (fun c _ => keeps_grows c) (grows_refl o)

theorem resolves (history : History o calls p) (sound : o.Sound) :
    ∀ a i, (a, i) ∈ calls → p.Resolves i a := by
  have last : ∀ {before p}, History o before p → p.Sound := fun before =>
    (before.keeps (fun c _ => keeps_add c) (beyond_self sound)).sound
  induction history with
  | none => exact fun _ _ call => absurd call (by simp)
  | @granted calls p q b j before usable run ih =>
    have further : p.Grows q :=
      holds_of_keeps (Addition.adds_usable usable p.Grows fun c _ => keeps_grows c) (grows_refl p) run
    intro a i call
    rcases List.mem_append.mp call with earlier | now
    · exact resolves_of_grows further (ih a i earlier)
    · obtain ⟨rfl, rfl⟩ := Prod.mk.injEq .. ▸ List.mem_singleton.mp now
      exact resolves_of_perform (last before) usable run
  | @refused calls p q b e before usable run ih =>
    have further : p.Grows q := by
      have kept := Addition.adds_usable usable p.Grows (fun c _ => keeps_grows c) p (grows_refl p)
      rwa [run] at kept
    exact fun a i call => resolves_of_grows further (ih a i call)

end History

theorem built_of_fresh {p : Pool} (fresh : p.Fresh) : p.Built := by
  rcases fresh with rfl | ⟨c, c', run⟩
  · exact ⟨[], nofun, rfl⟩
  · obtain ⟨_, _, _, built, _⟩ := takes_read c.position c.rest p c' run
    exact built

theorem written_of_short {p : Pool} (built : p.Built) (small : p.size ≤ 65535)
    (short : ∀ text, Constant.utf8 text ∈ p.entries → text.length ≤ 65535) :
    ∃ bs, p.write = .ok bs := by
  obtain ⟨cs, all, rfl⟩ := built
  have slots : (ofConstants cs).entries.toList = empty.entries.toList ++ cs.flatMap Constant.held :=
    toList_foldl cs empty
  have each : ∀ c ∈ cs, ∃ bs, c.write = .ok bs := by
    intro c member
    have held : c ∈ (ofConstants cs).entries := by
      rw [← Array.mem_toList_iff, slots, List.mem_append, List.mem_flatMap]
      refine .inr ⟨c, member, ?_⟩
      unfold Constant.held
      split <;> simp
    cases c with
    | utf8 text =>
      have room : text.length < 65536 := Nat.lt_succ_of_le (short text held)
      exact ⟨_, bind_ok_iff.mpr ⟨_, Bytes.countField_ok_iff.mpr ⟨room, rfl⟩, rfl⟩⟩
    | _ => exact ⟨_, rfl⟩
  obtain ⟨parts, written⟩ := ok_of_forall each
  exact ⟨_, write_ofConstants_iff.mpr ⟨Nat.lt_succ_of_le small, parts, written, rfl⟩⟩

/-- A pool with any history can be written, if no text in it is too long; its bytes, whatever stands
around them, are read as a pool with the same slots that answers all further calls alike. Whatever
was answered resolves to what was asked for, after any further calls on either of the two. -/
theorem written_answers_alike {o p : Pool} {calls : List (Addition × UInt16)} (fresh : o.Fresh)
    (history : History o calls p)
    (short : ∀ text, Constant.utf8 text ∈ p.entries → text.length ≤ 65535) :
    (∃ bs q, p.write = .ok bs ∧
      (∀ start rest, read ⟨start, bs ++ rest⟩ = .ok q ⟨start + bs.length, rest⟩) ∧
      q.entries = p.entries ∧ (∀ further, answers further q = answers further p) ∧
      ∀ after r, History q after r → ∀ a i, (a, i) ∈ calls → r.Resolves i a) ∧
    ∀ after r, History p after r → ∀ a i, (a, i) ∈ calls → r.Resolves i a := by
  have rep : p.Represents := history.keeps (fun _ => keeps_represents) (represents_of_fresh fresh)
  have built : p.Built := history.keeps (fun _ => keeps_built) (built_of_fresh fresh)
  have later : ∀ after r, History p after r → ∀ a i, (a, i) ∈ calls → r.Resolves i a :=
    fun after r rest a i call => resolves_of_grows rest.grows
      (history.resolves (sound_of_represents (represents_of_fresh fresh)) a i call)
  obtain ⟨bs, written⟩ := written_of_short built rep.small short
  refine ⟨⟨bs, p, written, fun start => reads_written built written start, rfl, ?_, later⟩, later⟩
  exact fun _ => rfl

def twiceCalls : PoolM (UInt16 × UInt16 × UInt16) := do
  let one ← Addition.perform (.methodRef "A" "\x00" "😀")
  let two ← Addition.perform (.fieldRef "A" "\x00" "😀")
  let three ← Addition.perform (.string "😀")
  return (one, two, three)

def isShort : Constant → Bool
  | .utf8 text => text.length ≤ 65535
  | _ => true

def twiceAnswers : Option ((UInt16 × UInt16 × UInt16) × Bool) :=
  match Pool.read (Cursor.start twice) with
  | .ok o _ => match twiceCalls o with
    | .ok is p => some (is, p.entries.toList.all isShort)
    | .error _ _ => none
  | .error _ _ => none

theorem twice_answers_alike : ∃ o p,
    o.Fresh ∧ History o [(.methodRef "A" "\x00" "😀", 9), (.fieldRef "A" "\x00" "😀", 10),
      (.string "😀", 11)] p ∧ (∀ text, Constant.utf8 text ∈ p.entries → text.length ≤ 65535) ∧
    ∃ bs q, p.write = .ok bs ∧ read (Cursor.start bs) = .ok q ⟨bs.length, []⟩ ∧
      q.entries = p.entries ∧ q.member 9 = .ok ("A", "\x00", "😀") ∧
      q.member 10 = .ok ("A", "\x00", "😀") ∧
      ∃ n, q.get 11 = .ok (.string n) ∧ q.utf8 n = .ok "😀" := by
  have answers : twiceAnswers = some ((9, 10, 11), true) := by decide +kernel
  unfold twiceAnswers at answers
  cases run : Pool.read (Cursor.start twice) with
  | error e c =>
    rw [run] at answers
    cases answers
  | ok o c =>
    rw [run] at answers
    dsimp only at answers
    cases called : twiceCalls o with
    | error e p =>
      rw [called] at answers
      cases answers
    | ok is p =>
      rw [called] at answers
      obtain ⟨rfl, small⟩ := Prod.mk.injEq .. ▸ Option.some.inj answers
      obtain ⟨one, p₁, first, called⟩ := state_bind_ok_iff.mp called
      obtain ⟨two, p₂, second, called⟩ := state_bind_ok_iff.mp called
      obtain ⟨three, p₃, third, called⟩ := state_bind_ok_iff.mp called
      cases called
      have fresh : o.Fresh := .inr ⟨_, _, run⟩
      have start : History o [] _ := .none
      have history := ((start.granted (by simp) first).granted (by simp) second).granted (by simp)
        third
      have fits : ∀ text, Constant.utf8 text ∈ p.entries → text.length ≤ 65535 := by
        intro text member
        simpa [isShort] using List.all_eq_true.mp small _ (Array.mem_toList_iff.mpr member)
      obtain ⟨⟨bs, q, written, again, same, -, later⟩, -⟩ :=
        written_answers_alike fresh history fits
      refine ⟨o, p, fresh, history, fits, bs, q, written, ?_, same, ?_⟩
      · simpa [Cursor.start] using again 0 []
      · have resolved := later [] q .none
        exact ⟨resolved (.methodRef "A" "\x00" "😀") 9 (by simp),
          resolved (.fieldRef "A" "\x00" "😀") 10 (by simp), resolved (.string "😀") 11 (by simp)⟩

end Pool
end ClassHooks
