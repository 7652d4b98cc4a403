import ClassHooks.Proofs.Bytes.Taking
import ClassHooks.Proofs.Pool.Growth

/-!
Pools as bytes, both ways. The bytes of a pool are those of its constants, one behind the other, and
the slots behind the long ones have none; so bytes and pool determine each other for the pools that
are built from constants alone. A pool that is read or added to finds whatever stands in its slots,
so that only the texts that it does not know yet need room.
-/
namespace ClassHooks
namespace Constant

open Reader

section Fields
variable {α : Type} {r : Reader α} {p : Nat} {start : Bytes}

theorem takes_tagged {field : α → Bytes} {make : α → Constant}
    (takes : TakesAt r p fun a bs => bs = field a)
    (written : ∀ a, (make a).write = .ok (start ++ field a)) (usable : ∀ a, make a ≠ .unusable) :
    TakesAt (r >>= fun a => pure (make a)) p fun c bs =>
      c ≠ .unusable ∧ c.write = .ok (start ++ bs) := by
  refine takes_map (takes_mono takes ?_)
  rintro a _ rfl
  exact ⟨usable a, written a⟩

theorem takes_tagged_pair {make : UInt16 → UInt16 → Constant}
    (written : ∀ a b, (make a b).write = .ok (start ++ (Bytes.u16 a ++ Bytes.u16 b)))
    (usable : ∀ a b, make a b ≠ .unusable) :
    TakesAt (u16 >>= fun a => u16 >>= fun b => pure (make a b)) p fun c bs =>
      c ≠ .unusable ∧ c.write = .ok (start ++ bs) := by
  refine takes_field takes_u16 fun a => ?_
  refine takes_map (takes_mono takes_u16 ?_)
  rintro b _ rfl
  exact ⟨usable a b, written a b⟩

end Fields

theorem takes_read (p : Nat) :
    TakesAt read p fun c bs => c ≠ .unusable ∧ c.write = .ok bs := by
  refine takes_position (takes_field takes_u8 fun tag => ?_)
  split
  · refine takes_field takes_u16 fun n => ?_
    refine takes_map (takes_mono (takes_bytes _) ?_)
    rintro text bs ⟨rfl, length⟩
    have counted : Bytes.countField .utf8Bytes bs.length = .ok (Bytes.u16 n) :=
      Bytes.countField_ok_iff.mpr ⟨length ▸ n.toNat_lt, congrArg (Bytes.ofNat 2) length.symm⟩
    exact ⟨nofun, bind_ok_iff.mpr ⟨_, counted, rfl⟩⟩
  · exact takes_tagged takes_i32 (fun _ => rfl) nofun
  · exact takes_tagged takes_u32 (fun _ => rfl) nofun
  · exact takes_tagged takes_i64 (fun _ => rfl) nofun
  · exact takes_tagged takes_u64 (fun _ => rfl) nofun
  · exact takes_tagged takes_u16 (fun _ => rfl) nofun
  · exact takes_tagged takes_u16 (fun _ => rfl) nofun
  · exact takes_tagged_pair (fun _ _ => rfl) nofun
  · exact takes_tagged_pair (fun _ _ => rfl) nofun
  · exact takes_tagged_pair (fun _ _ => rfl) nofun
  · exact takes_tagged_pair (fun _ _ => rfl) nofun
  · refine takes_field takes_u8 fun kind => ?_
    refine takes_map (takes_mono takes_u16 ?_)
    rintro reference _ rfl
    exact ⟨nofun, rfl⟩
  · exact takes_tagged takes_u16 (fun _ => rfl) nofun
  · exact takes_tagged_pair (fun _ _ => rfl) nofun
  · exact takes_tagged_pair (fun _ _ => rfl) nofun
  · exact takes_tagged takes_u16 (fun _ => rfl) nofun
  · exact takes_tagged takes_u16 (fun _ => rfl) nofun
  · exact takes_throw _

theorem reads_pair (make : UInt16 → UInt16 → Constant) (a b : UInt16) (p : Nat) :
    ReadsAt (u16 >>= fun a => u16 >>= fun b => pure (make a b)) p (Bytes.u16 a ++ Bytes.u16 b)
      (make a b) :=
  reads_bind (reads_u16 a p) (reads_map (make a) (reads_u16 b _))

theorem reads_written {c : Constant} {bs : Bytes} (usable : c ≠ .unusable)
    (written : c.write = .ok bs) (p : Nat) : ReadsAt read p bs c := by
  cases c with
  | utf8 text =>
    obtain ⟨count, counted, rest⟩ := bind_ok_iff.mp written
    obtain ⟨small, rfl⟩ := Bytes.countField_ok_iff.mp counted
    cases rest
    refine reads_position (reads_cons ?_)
    refine reads_bind (reads_count small _) ?_
    rw [UInt16.toNat_ofNat_of_lt' small]
    exact reads_map _ (reads_bytes text _)
  | integer value => cases written; exact reads_position (reads_cons (reads_map _ (reads_i32 _ _)))
  | float bits => cases written; exact reads_position (reads_cons (reads_map _ (reads_u32 _ _)))
  | long value => cases written; exact reads_position (reads_cons (reads_map _ (reads_i64 _ _)))
  | double bits => cases written; exact reads_position (reads_cons (reads_map _ (reads_u64 _ _)))
  | classRef name => cases written; exact reads_position (reads_cons (reads_map _ (reads_u16 _ _)))
  | string text => cases written; exact reads_position (reads_cons (reads_map _ (reads_u16 _ _)))
  | fieldRef owner nat => cases written; exact reads_position (reads_cons (reads_pair _ _ _ _))
  | methodRef owner nat => cases written; exact reads_position (reads_cons (reads_pair _ _ _ _))
  | interfaceMethodRef owner nat =>
    cases written; exact reads_position (reads_cons (reads_pair _ _ _ _))
  | nameAndType name descriptor =>
    cases written; exact reads_position (reads_cons (reads_pair _ _ _ _))
  | methodHandle kind reference =>
    cases written
    exact reads_position (reads_cons (reads_cons (reads_map _ (reads_u16 _ _))))
  | methodType descriptor =>
    cases written; exact reads_position (reads_cons (reads_map _ (reads_u16 _ _)))
  | dynamic bootstrap nat => cases written; exact reads_position (reads_cons (reads_pair _ _ _ _))
  | invokeDynamic bootstrap nat =>
    cases written; exact reads_position (reads_cons (reads_pair _ _ _ _))
  | moduleRef name => cases written; exact reads_position (reads_cons (reads_map _ (reads_u16 _ _)))
  | packageRef name =>
    cases written; exact reads_position (reads_cons (reads_map _ (reads_u16 _ _)))
  | unusable => exact absurd rfl usable

def held (c : Constant) : List Constant := if c.isWide then [c, .unusable] else [c]

theorem held_written_iff {cs : List Constant} {bs : Bytes} :
    (∃ parts, (cs.flatMap held).mapM write = .ok parts ∧ parts.flatten = bs) ↔
      ∃ parts, cs.mapM write = .ok parts ∧ parts.flatten = bs := by
  simp only [mapM_ok_iff]
  induction cs generalizing bs with
  | nil => rfl
  | cons c cs ih =>
    rw [List.flatMap_cons]
    constructor
    · rintro ⟨parts, related, rfl⟩
      obtain ⟨here, others, rfl, one, rest⟩ := related_append_inv related
      obtain ⟨more, related', same⟩ := ih.mp ⟨others, rest, rfl⟩
      unfold held at one
      split at one
      · obtain _ | ⟨first, _ | ⟨empty, _ | _⟩⟩ := one
        cases empty
        exact ⟨_ :: more, .cons first related', by simp [same]⟩
      · obtain _ | ⟨first, _ | _⟩ := one
        exact ⟨_ :: more, .cons first related', by simp [same]⟩
    · rintro ⟨parts, _ | ⟨first, others⟩, rfl⟩
      obtain ⟨more, related, same⟩ := ih.mpr ⟨_, others, rfl⟩
      unfold held
      split
      · exact ⟨_ :: [] :: more, .cons first (.cons rfl related), by simp [same]⟩
      · exact ⟨_ :: more, .cons first related, by simp [same]⟩

end Constant

namespace Pool

open Reader

def ofConstants (cs : List Constant) : Pool := cs.foldl append empty

/-- The pool holds its constants as they came; no slot but those behind the long ones is unusable. -/
def Built (p : Pool) : Prop := ∃ cs, (∀ c ∈ cs, c ≠ .unusable) ∧ p = ofConstants cs

theorem built_append {p : Pool} {c : Constant} (built : p.Built) (usable : c ≠ .unusable) :
    (p.append c).Built := by
  obtain ⟨cs, all, rfl⟩ := built
  refine ⟨cs ++ [c], ?_, by simp [ofConstants]⟩
  rw [List.forall_mem_append]
  exact ⟨all, by simpa using usable⟩

theorem keeps_built {c : Constant} (usable : c ≠ .unusable) : Keeps Built (add c) := by
  intro p built
  have appended := built_append built usable
  simp only [add]
  cases p.lookup[c]? with
  | some index => exact built
  | none =>
    by_cases room : p.size + c.slots ≤ 65535
    · rw [if_pos room]
      exact appended
    · rw [if_neg room]
      exact built

theorem toList_append (p : Pool) (c : Constant) :
    (p.append c).entries.toList = p.entries.toList ++ c.held := by
  rw [entries_append]
  unfold Constant.held
  split <;> simp

theorem toList_foldl (cs : List Constant) (p : Pool) :
    (cs.foldl append p).entries.toList = p.entries.toList ++ cs.flatMap Constant.held := by
  induction cs generalizing p with
  | nil => simp
  | cons c cs ih => rw [List.foldl_cons, ih, toList_append, List.flatMap_cons, List.append_assoc]

theorem size_foldl (cs : List Constant) (p : Pool) :
    (cs.foldl append p).size = p.size + (cs.map Constant.slots).sum := by
  induction cs generalizing p with
  | nil => rfl
  | cons c cs ih =>
    rw [List.foldl_cons, ih, size_append, List.map_cons, List.sum_cons, Nat.add_assoc]

theorem sound_foldl {cs : List Constant} {p : Pool} (sound : p.Sound)
    (room : (cs.foldl append p).size ≤ 65535) : (cs.foldl append p).Sound := by
  induction cs generalizing p with
  | nil => exact sound
  | cons c cs ih =>
    rw [List.foldl_cons] at room ⊢
    refine ih (sound_append c sound ?_) room
    rw [size_foldl, size_append] at room
    omega

theorem write_ofConstants_iff {cs : List Constant} {bs : Bytes} :
    (ofConstants cs).write = .ok bs ↔ (ofConstants cs).size < 65536 ∧
      ∃ parts, cs.mapM Constant.write = .ok parts ∧
        bs = Bytes.ofNat 2 (ofConstants cs).size ++ parts.flatten := by
  have slots : (ofConstants cs).entries.toList.drop 1 = cs.flatMap Constant.held :=
    congrArg (List.drop 1) (toList_foldl cs empty)
  unfold write
  rw [slots, bind_ok_iff]
  constructor
  · rintro ⟨count, counted, written⟩
    obtain ⟨small, rfl⟩ := Bytes.countField_ok_iff.mp counted
    obtain ⟨parts, each, whole⟩ := bind_ok_iff.mp written
    cases whole
    obtain ⟨own, each', same⟩ := Constant.held_written_iff.mp ⟨parts, each, rfl⟩
    exact ⟨small, own, each', by rw [same]⟩
  · rintro ⟨small, own, each, rfl⟩
    obtain ⟨parts, each', same⟩ := Constant.held_written_iff.mpr ⟨own, each, rfl⟩
    refine ⟨_, Bytes.countField_ok_iff.mpr ⟨small, rfl⟩, bind_ok_iff.mpr ⟨parts, each', ?_⟩⟩
    rw [same]
    rfl

theorem sound_of_written {p : Pool} {bs : Bytes} (built : p.Built) (written : p.write = .ok bs) :
    p.Sound := by
  obtain ⟨cs, all, rfl⟩ := built
  have small := (write_ofConstants_iff.mp written).1
  exact sound_foldl sound_empty (Nat.le_of_lt_succ small)

theorem takes_fill (slots : Nat) (p : Pool) (at' : Nat) :
    TakesAt (fill p slots) at' fun q bs => ∃ (cs : List Constant) (parts : List Bytes),
      (∀ c ∈ cs, c ≠ .unusable) ∧ q = cs.foldl append p ∧ (cs.map Constant.slots).sum = slots ∧
      cs.mapM Constant.write = .ok parts ∧ bs = parts.flatten := by
  induction slots using Nat.strongRecOn generalizing p at' with
  | ind slots ih =>
    have go : ∀ c bs left, c ≠ .unusable ∧ c.write = .ok bs → left + c.slots = slots →
        TakesAt (fill (p.append c) left) (at' + bs.length) fun q more => ∃ (cs : List Constant)
          (parts : List Bytes), (∀ c ∈ cs, c ≠ .unusable) ∧ q = cs.foldl append p ∧
          (cs.map Constant.slots).sum = slots ∧ cs.mapM Constant.write = .ok parts ∧
          bs ++ more = parts.flatten := by
      intro c bs left spelled fewer
      have slot : 0 < c.slots := by unfold Constant.slots; split <;> decide
      refine takes_mono (ih left (by omega) (p.append c) _) ?_
      rintro q more ⟨cs, parts, all, rfl, sum, written, rfl⟩
      refine ⟨c :: cs, bs :: parts, List.forall_mem_cons.mpr ⟨spelled.1, all⟩, rfl, ?_, ?_, rfl⟩
      · rw [List.map_cons, List.sum_cons, sum]
        omega
      · exact mapM_ok_iff.mpr (.cons spelled.2 (mapM_ok_iff.mp written))
    cases slots with
    | zero => exact takes_pure ⟨[], [], nofun, rfl, rfl, rfl, rfl⟩
    | succ slots =>
      rw [fill]
      refine takes_bind (Constant.takes_read _) fun c bs spelled => ?_
      have size : c.slots = if c.isWide then 2 else 1 := rfl
      split
      · rename_i wide
        rw [if_pos wide] at size
        cases slots with
        | zero => exact takes_throw _
        | succ slots => exact go c bs slots spelled (by omega)
      · rename_i narrow
        rw [if_neg narrow] at size
        exact go c bs slots spelled (by omega)

/-- A pool that was read is written as the bytes that were there. -/
theorem takes_read (at' : Nat) :
    TakesAt read at' fun p bs => p.Built ∧ p.write = .ok bs := by
  refine takes_field takes_u16 fun n => ?_
  split
  · exact takes_throw _
  · rename_i slots
    refine takes_mono (takes_fill _ _ _) ?_
    rintro p more ⟨cs, parts, all, rfl, sum, written, rfl⟩
    have positive : n.toNat ≠ 0 := fun zero => slots (UInt16.toNat_inj.mp zero)
    have size : (ofConstants cs).size = n.toNat := by
      rw [ofConstants, size_foldl, sum]
      change 1 + (n.toNat - 1) = n.toNat
      omega
    refine ⟨⟨cs, all, rfl⟩, write_ofConstants_iff.mpr ⟨size ▸ n.toNat_lt, parts, written, ?_⟩⟩
    rw [size]
    rfl

theorem reads_fill {cs : List Constant} {parts : List Bytes} (all : ∀ c ∈ cs, c ≠ .unusable)
    (written : cs.mapM Constant.write = .ok parts) (p : Pool) (at' : Nat) :
    ReadsAt (fill p (cs.map Constant.slots).sum) at' parts.flatten (cs.foldl append p) := by
  rw [mapM_ok_iff] at written
  induction written generalizing p at' with
  | nil => exact reads_pure p at'
  | @cons c bs cs parts first others ih =>
    obtain ⟨usable, all⟩ := List.forall_mem_cons.mp all
    have rest := ih all (p.append c) (at' + bs.length)
    have first := Constant.reads_written usable first at'
    rw [List.map_cons, List.sum_cons, List.flatten_cons, List.foldl_cons]
    unfold Constant.slots
    split
    · rename_i wide
      rw [Nat.add_comm, fill]
      refine reads_bind first ?_
      rw [if_pos wide]
      exact rest
    · rename_i narrow
      rw [Nat.add_comm, fill]
      refine reads_bind first ?_
      rw [if_neg narrow]
      exact rest

/-- A pool built from constants is read from what it is written as. -/
theorem reads_written {p : Pool} {bs : Bytes} (built : p.Built) (written : p.write = .ok bs)
    (at' : Nat) : ReadsAt read at' bs p := by
  obtain ⟨cs, all, rfl⟩ := built
  obtain ⟨small, parts, each, rfl⟩ := write_ofConstants_iff.mp written
  have size : (ofConstants cs).size = 1 + (cs.map Constant.slots).sum := size_foldl cs empty
  refine reads_bind (reads_count small at') ?_
  have count := UInt16.toNat_ofNat_of_lt' small
  have positive : UInt16.ofNat (ofConstants cs).size ≠ 0 := by
    intro zero
    rw [zero, size] at count
    change 0 = 1 + _ at count
    omega
  rw [if_neg positive, count, size, Nat.add_sub_cancel_left]
  exact reads_fill all each empty _

/-- Whatever stands in a slot is found, but for what only fills a slot. -/
def Complete (p : Pool) : Prop :=
  ∀ c ∈ p.entries.toList, c ≠ .unusable → ∃ i, p.lookup[c]? = some i

theorem complete_empty : empty.Complete := by
  intro c member usable
  exact absurd (List.mem_singleton.mp member) usable

theorem complete_append {p : Pool} (complete : p.Complete) (c : Constant) :
    (p.append c).Complete := by
  intro c' member usable
  rw [lookup_append, Std.TreeMap.getElem?_insertIfNew]
  by_cases new : compare c c' = .eq ∧ c ∉ p.lookup
  · exact ⟨_, if_pos new⟩
  · rw [if_neg new]
    rw [toList_append, List.mem_append] at member
    rcases member with old | here
    · exact complete c' old usable
    · have same : c' = c := by
        unfold Constant.held at here
        split at here <;> simp_all
      subst same
      rw [Std.compare_eq_iff_eq] at new
      have found : c' ∈ p.lookup := by simpa using new
      exact Option.isSome_iff_exists.mp (Std.TreeMap.mem_iff_isSome_getElem?.mp found)

theorem complete_foldl {cs : List Constant} {p : Pool} (complete : p.Complete) :
    (cs.foldl append p).Complete := by
  induction cs generalizing p with
  | nil => exact complete
  | cons c cs ih => exact ih (complete_append complete c)

theorem complete_of_built {p : Pool} (built : p.Built) : p.Complete := by
  obtain ⟨cs, _, rfl⟩ := built
  exact complete_foldl complete_empty

theorem complete_of_reached {p : Pool} (reached : p.Reached) : p.Complete := by
  induction reached with
  | empty => exact complete_empty
  | @read p c c' run =>
    obtain ⟨_, _, _, built, _⟩ := takes_read c.position c.rest p c' run
    exact complete_of_built built
  | add before run ih =>
    unfold add at run
    split at run
    · cases run
      exact ih
    · split at run
      · cases run
        exact complete_append ih _
      · cases run

def knows (p : Pool) (text : String) : Bool :=
  p.entries.toList.contains (.utf8 (Text.ModifiedUtf8.encode text))

def HasRoom (p : Pool) (texts : List String) : Prop :=
  p.size + texts.countP (fun text => !p.knows text) ≤ 65535

theorem knows_of_holdsText {p : Pool} {i : UInt16} {text : String}
    (holds : p.holdsText i text = true) : p.knows text = true := by
  have here := holdsText_iff.mp holds
  rw [← Array.getElem?_toList] at here
  exact List.contains_iff_mem.mpr (List.mem_of_getElem? here)

theorem knows_append {p : Pool} {text : String} (known : p.knows text = true) (c : Constant) :
    (p.append c).knows text = true := by
  unfold knows at known ⊢
  rw [List.contains_iff_mem] at known ⊢
  rw [toList_append]
  exact List.mem_append_left _ known

theorem addUtf8_of_room {p : Pool} (reached : p.Reached) {text : String} {texts : List String}
    (room : p.HasRoom (text :: texts)) : ∃ i q, addUtf8 text p = .ok i q ∧ q.Reached ∧
      q.HasRoom texts ∧ (p.knows text = true → q = p) := by
  unfold HasRoom at room
  rw [List.countP_cons] at room
  cases known : p.knows text with
  | true =>
    obtain ⟨i, found⟩ := complete_of_reached reached _ (List.contains_iff_mem.mp known) nofun
    refine ⟨i, p, ?_, reached, ?_, fun _ => rfl⟩
    · rw [addUtf8, add, found]
    · simp only [known, Bool.not_true, Bool.false_eq_true, if_false] at room
      exact room
  | false =>
    have missing : p.lookup[Constant.utf8 (Text.ModifiedUtf8.encode text)]? = none := by
      cases found : p.lookup[Constant.utf8 (Text.ModifiedUtf8.encode text)]? with
      | none => rfl
      | some i =>
        have here := (sound_of_reached reached).found _ i found
        rw [knows_of_holdsText (holdsText_iff.mpr here)] at known
        cases known
    have slots : (Constant.utf8 (Text.ModifiedUtf8.encode text)).slots = 1 := rfl
    simp only [known, Bool.not_false, if_true] at room
    have run : addUtf8 text p = .ok (UInt16.ofNat p.size)
        (p.append (.utf8 (Text.ModifiedUtf8.encode text))) := by
      rw [addUtf8, add, missing]
      exact if_pos (by rw [slots]; omega)
    refine ⟨_, _, run, .add reached run, ?_, by simp⟩
    have fewer : texts.countP (fun t => !(p.append (.utf8 (Text.ModifiedUtf8.encode text))).knows t)
        ≤ texts.countP fun t => !p.knows t := by
      refine List.countP_mono_left fun t _ absent => ?_
      cases old : p.knows t with
      | false => rfl
      | true =>
        rw [knows_append old] at absent
        cases absent
    unfold HasRoom
    rw [size_append, slots]
    omega

end Pool
end ClassHooks
