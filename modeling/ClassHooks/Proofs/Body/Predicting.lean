import ClassHooks.Proofs.Body.Encoding
import ClassHooks.Proofs.Body.Validation
import ClassHooks.Proofs.Instruction.Acceptance

/-!
The labels of a body are looked at twice, in two ways: validation looks for them among the labels
placed, encoding for their places in a layout. What validation refuses is not encoded, and what it
admits does not fail for a label when it is encoded.
-/
namespace ClassHooks

def Error.BlamesLabel : Error → Prop
  | .duplicateLabel _ | .undefinedLabel _ => True
  | _ => False

/-- The computation does not fail for a label. -/
def Blameless (x : Except Error α) : Prop := ∀ e, x = .error e → ¬ e.BlamesLabel

section Blameless
variable {α β : Type} {x : Except Error α}

theorem blameless_of_ok {a : α} (run : x = .ok a) : Blameless x := by
  intro e failed
  rw [run] at failed
  cases failed

theorem blameless_error {e : Error} (other : ¬ e.BlamesLabel) :
    Blameless (.error e : Except Error α) := by
  intro e' failed
  cases failed
  exact other

theorem blameless_ite {c : Prop} [Decidable c] {y : Except Error α} (yes : Blameless x)
    (no : Blameless y) : Blameless (if c then x else y) := by
  split
  · exact yes
  · exact no

theorem blameless_bind {f : α → Except Error β} (first : Blameless x)
    (next : ∀ a, x = .ok a → Blameless (f a)) : Blameless (x >>= f) := by
  intro e failed
  rcases bind_error_iff.mp failed with early | ⟨a, run, late⟩
  · exact first e early
  · exact next a run e late

theorem blameless_mapM {f : α → Except Error β} {xs : List α}
    (each : ∀ a ∈ xs, Blameless (f a)) : Blameless (xs.mapM f) := by
  intro e failed
  obtain ⟨a, member, here⟩ := error_of_mapM failed
  exact each a member e here

end Blameless

section Writing

theorem blameless_count (what : Counted) (n : Nat) : Blameless (Bytes.countField what n) :=
  blameless_ite (blameless_of_ok rfl) (blameless_error id)

theorem LineEntry.blameless_writeTable (entries : List LineEntry) :
    Blameless (writeTable entries) :=
  blameless_bind (blameless_count _ _) fun _ _ => blameless_of_ok rfl

theorem VariableEntry.blameless_writeTable (entries : List VariableEntry) :
    Blameless (writeTable entries) :=
  blameless_bind (blameless_count _ _) fun _ _ => blameless_of_ok rfl

namespace Frame

theorem blameless_delta (previous : Option UInt16) (position : UInt16) :
    Blameless (delta previous position) := by
  cases previous with
  | none => exact blameless_of_ok rfl
  | some p => exact blameless_ite (blameless_of_ok rfl) (blameless_error id)

theorem blameless_write (frame : Frame UInt16) (d : UInt16) : Blameless (frame.write d) := by
  obtain ⟨position, kind⟩ := frame
  cases kind with
  | full locals stack =>
    exact blameless_bind (blameless_count _ _) fun _ _ =>
      blameless_bind (blameless_count _ _) fun _ _ => blameless_of_ok rfl
  | chop n => exact blameless_ite (blameless_of_ok rfl) (blameless_error id)
  | append locals => exact blameless_ite (blameless_of_ok rfl) (blameless_error id)
  | _ => exact blameless_of_ok rfl

theorem blameless_writeFrames (previous : Option UInt16) (written : List Bytes)
    (frames : List (Frame UInt16)) : Blameless (writeFrames previous written frames) := by
  induction frames generalizing previous written with
  | nil => exact blameless_of_ok rfl
  | cons frame frames ih =>
    exact blameless_bind (blameless_delta _ _) fun _ _ =>
      blameless_bind (blameless_write _ _) fun _ _ => ih _ _

theorem blameless_writeTable (frames : List (Frame UInt16)) : Blameless (writeTable frames) :=
  blameless_bind (blameless_count _ _) fun _ _ =>
    blameless_bind (blameless_writeFrames _ _ _) fun _ _ => blameless_of_ok rfl

end Frame
end Writing

namespace Assembly
open Item

theorem blameless_takes {items : List Item} (once : (labels items).Nodup) (a : Assembly)
    (fresh : ∀ l ∈ labels items, a.marked.contains l = false) :
    Blameless (items.foldlM add a) := by
  induction items generalizing a with
  | nil => exact blameless_of_ok rfl
  | cons item items ih =>
    rw [List.foldlM_cons]
    cases item with
    | mark l =>
      rw [labels_mark, List.nodup_cons] at once
      rw [labels_mark, List.forall_mem_cons] at fresh
      apply blameless_bind
      · intro e failed
        simp [add, mark, fresh.1] at failed
      · intro a' taken
        exact ih once.2 a' (fresh_after_mark taken once.1 fresh.2)
    | op i =>
      apply blameless_bind
      · change Blameless (a.emit i)
        unfold emit
        split
        · exact blameless_error id
        · exact blameless_ite (blameless_of_ok rfl) (blameless_error id)
      · intro a' taken
        apply ih once
        rw [(fits_of_emit taken).2.2]
        exact fresh

theorem blameless_encode {items : List Item} (once : (labels items).Nodup)
    (marked : ∀ i ∈ code items, ∀ l ∈ i.targets, l ∈ labels items) :
    Blameless (Assembly.encode items) := by
  intro e failed
  rcases bind_error_iff.mp failed with refused | ⟨a, taken, _⟩
  · exact blameless_takes once empty (by simp [empty]) e refused
  · have placed : Item.Placed items := ⟨(accepted taken).2, marked⟩
    rcases encode_error placed failed with ⟨n, rfl⟩ | ⟨op, position, l, d, _, _, rfl⟩
    · exact id
    · exact id

end Assembly

theorem Encoded.offset_iff {items : List Item} {e : Encoded}
    (encoded : Assembly.encode items = .ok e) {l : Label} :
    (∃ o, e.offset l = .ok o) ↔ l ∈ Item.labels items := by
  obtain ⟨slots, layout, laid⟩ := laid_of_encode encoded
  have found : (∃ o, e.offset l = .ok o) ↔ ∃ q, e.labels[l]? = some q := by
    unfold Encoded.offset
    cases e.labels[l]? <;> simp
  rw [found, ← Item.marked_iff_mem]
  constructor
  · rintro ⟨q, here⟩
    obtain ⟨n, marks, _⟩ := laid.label_iff.mp here
    exact ⟨n, marks⟩
  · rintro ⟨n, marks⟩
    exact ⟨_, laid.label_iff.mpr ⟨n, marks, rfl⟩⟩

section References
variable {e : Encoded}

theorem blameless_offset {l : Label} (placed : ∃ o, e.offset l = .ok o) :
    Blameless (e.offset l) := by
  obtain ⟨o, here⟩ := placed
  exact blameless_of_ok here

theorem Region.blameless_encode {r : Region}
    (placed : ∀ l, l = r.start ∨ l = r.finish ∨ l = r.handler → ∃ o, e.offset l = .ok o) :
    Blameless (r.encode e) := by
  apply blameless_bind (blameless_offset (placed _ (.inl rfl)))
  intro start _
  apply blameless_bind (blameless_offset (placed _ (.inr (.inl rfl))))
  intro finish _
  apply blameless_ite (blameless_error id)
  apply blameless_bind (blameless_offset (placed _ (.inr (.inr rfl))))
  intro handler _
  exact blameless_of_ok rfl

theorem LineMark.offset_of_encode {m : LineMark} {entry : LineEntry}
    (run : m.encode e = .ok entry) : ∃ o, e.offset m.start = .ok o := by
  obtain ⟨o, here, _⟩ := bind_ok_iff.mp run
  exact ⟨o, here⟩

theorem LineMark.blameless_encode {m : LineMark} (placed : ∃ o, e.offset m.start = .ok o) :
    Blameless (m.encode e) :=
  blameless_bind (blameless_offset placed) fun _ _ => blameless_of_ok rfl

theorem Variable.offsets_of_encode {v : Variable} {entry : VariableEntry}
    (run : v.encode e = .ok entry) {l : Label} (here : l = v.start ∨ l = v.finish) :
    ∃ o, e.offset l = .ok o := by
  obtain ⟨start, first, run⟩ := bind_ok_iff.mp run
  obtain ⟨finish, last, _⟩ := bind_ok_iff.mp run
  rcases here with rfl | rfl
  · exact ⟨start, first⟩
  · exact ⟨finish, last⟩

theorem Variable.blameless_encode {v : Variable}
    (placed : ∀ l, l = v.start ∨ l = v.finish → ∃ o, e.offset l = .ok o) :
    Blameless (v.encode e) := by
  apply blameless_bind (blameless_offset (placed _ (.inl rfl)))
  intro start _
  apply blameless_bind (blameless_offset (placed _ (.inr rfl)))
  intro finish _
  exact blameless_ite (blameless_error id) (blameless_of_ok rfl)

end References

def PoolM.Blameless (x : PoolM α) : Prop := ∀ p e q, x p = .error e q → ¬ e.BlamesLabel

namespace PoolM
variable {α β : Type}

theorem blameless_pure (a : α) : PoolM.Blameless (pure a) := nofun

theorem blameless_lift {result : Except Error α} (blameless : ClassHooks.Blameless result) :
    PoolM.Blameless (lift result) := by
  intro p e q failed
  cases result with
  | ok a => cases failed
  | error e' =>
    cases failed
    exact blameless e rfl

theorem blameless_bind {x : PoolM α} {f : α → PoolM β} (first : PoolM.Blameless x)
    (next : ∀ p a q, x p = .ok a q → PoolM.Blameless (f a)) : PoolM.Blameless (x >>= f) := by
  intro p e q failed
  rcases state_bind_error_iff.mp failed with early | ⟨a, p', run, late⟩
  · exact first p e q early
  · exact next p a p' run p' e q late

theorem blameless_addUtf8 (text : String) : PoolM.Blameless (Pool.addUtf8 text) := by
  intro p e q failed
  unfold Pool.addUtf8 Pool.add at failed
  split at failed
  · cases failed
  · split at failed
    · cases failed
    · cases failed
      exact id

end PoolM

namespace Body
variable {α β : Type}

section Tables
variable {write : List α → Except Error Bytes} {name : String} {f : β → Except Error α}
  {xs : List β}

theorem entries_of_written {as : List Attribute} {p q : Pool}
    (run : (do
      if xs.isEmpty then return []
      let entries ← PoolM.lift (xs.mapM f)
      let index ← Pool.addUtf8 name
      return [⟨index, ← PoolM.lift (write entries)⟩] : PoolM (List Attribute)) p = .ok as q) :
    ∀ x ∈ xs, ∃ y, f x = .ok y := by
  intro x member
  rw [if_neg (by cases xs <;> simp_all)] at run
  obtain ⟨entries, _, lifted, _⟩ := state_bind_ok_iff.mp run
  obtain ⟨y, _, here⟩ := ok_of_mapM_ok (PoolM.lift_ok_iff.mp lifted).1 member
  exact ⟨y, here⟩

theorem blameless_table (each : ∀ x ∈ xs, Blameless (f x))
    (written : ∀ entries, Blameless (write entries)) :
    PoolM.Blameless (do
      if xs.isEmpty then return []
      let entries ← PoolM.lift (xs.mapM f)
      let index ← Pool.addUtf8 name
      return [⟨index, ← PoolM.lift (write entries)⟩] : PoolM (List Attribute)) := by
  split
  · exact PoolM.blameless_pure _
  · apply PoolM.blameless_bind (PoolM.blameless_lift (blameless_mapM each))
    intro _ entries _ _
    apply PoolM.blameless_bind (PoolM.blameless_addUtf8 name)
    intro _ index _ _
    apply PoolM.blameless_bind (PoolM.blameless_lift (written entries))
    intro _ payload _ _
    exact PoolM.blameless_pure _

end Tables

theorem positions_of_encodeFrames {e : Encoded} {frames : Option (List (Frame Label))}
    {as : List Attribute} {p q : Pool} (run : encodeFrames e frames p = .ok as q) :
    ∀ f ∈ frames.getD [], ∀ l ∈ f.positions, ∃ o, e.offset l = .ok o := by
  intro f member
  cases frames with
  | none => cases member
  | some frames =>
    obtain ⟨mapped, _, lifted, _⟩ := state_bind_ok_iff.mp run
    obtain ⟨g, _, here⟩ := ok_of_mapM_ok (PoolM.lift_ok_iff.mp lifted).1 member
    exact Frame.mapPositions_succeeds_iff.mp ⟨g, here⟩

theorem blameless_encodeFrames {e : Encoded} {frames : Option (List (Frame Label))}
    (placed : ∀ f ∈ frames.getD [], ∀ l ∈ f.positions, ∃ o, e.offset l = .ok o) :
    PoolM.Blameless (encodeFrames e frames) := by
  cases frames with
  | none => exact PoolM.blameless_pure _
  | some frames =>
    have each : ∀ f ∈ frames, Blameless (f.mapPositions e.offset) := by
      intro f member
      obtain ⟨g, here⟩ := Frame.mapPositions_succeeds_iff.mpr (placed f member)
      exact blameless_of_ok here
    apply PoolM.blameless_bind (PoolM.blameless_lift (blameless_mapM each))
    intro _ mapped _ _
    apply PoolM.blameless_bind (PoolM.blameless_addUtf8 _)
    intro _ index _ _
    apply PoolM.blameless_bind (PoolM.blameless_lift (Frame.blameless_writeTable _))
    intro _ payload _ _
    exact PoolM.blameless_pure _

/-- Where a body is encoded, every label that something names has an offset. -/
theorem offset_of_toCode {b : Body} {p q : Pool} {c : CodeAttribute} (run : b.toCode p = .ok c q) :
    ∃ e, Assembly.encode b.items = .ok e ∧ ∀ l, b.Names l → ∃ o, e.offset l = .ok o := by
  obtain ⟨e, _, lifted, run⟩ := state_bind_ok_iff.mp run
  obtain ⟨handlers, _, lifted', run⟩ := state_bind_ok_iff.mp run
  obtain ⟨_, _, lines, run⟩ := state_bind_ok_iff.mp run
  obtain ⟨_, _, locals, run⟩ := state_bind_ok_iff.mp run
  obtain ⟨_, _, types, run⟩ := state_bind_ok_iff.mp run
  obtain ⟨_, _, frames, _⟩ := state_bind_ok_iff.mp run
  have encoded := (PoolM.lift_ok_iff.mp lifted).1
  refine ⟨e, encoded, fun l named => ?_⟩
  cases named with
  | target member here =>
    obtain ⟨slots, layout, laid⟩ := laid_of_encode encoded
    obtain ⟨_, _, _, placed⟩ := laid.target_placed member here
    exact ⟨_, placed⟩
  | region member here =>
    obtain ⟨h, _, one⟩ := ok_of_mapM_ok (PoolM.lift_ok_iff.mp lifted').1 member
    obtain ⟨_, start, finish, handler, _⟩ := Region.encode_ok one
    rcases here with rfl | rfl | rfl
    · exact ⟨_, start⟩
    · exact ⟨_, finish⟩
    · exact ⟨_, handler⟩
  | line member here =>
    obtain ⟨entry, one⟩ := entries_of_written lines _ member
    exact here ▸ LineMark.offset_of_encode one
  | range member here =>
    rcases member with member | member
    · obtain ⟨entry, one⟩ := entries_of_written locals _ member
      exact Variable.offsets_of_encode one here
    · obtain ⟨entry, one⟩ := entries_of_written types _ member
      exact Variable.offsets_of_encode one here
  | frame member here => exact positions_of_encodeFrames frames _ member _ here

theorem blameless_toCode {b : Body} (valid : b.validate = .ok ()) : PoolM.Blameless b.toCode := by
  obtain ⟨once, stands⟩ := validate_ok_iff.mp valid
  have marked : ∀ i ∈ Item.code b.items, ∀ l ∈ i.targets, l ∈ Item.labels b.items :=
    fun i member l here => stands l (.target member here)
  apply PoolM.blameless_bind (PoolM.blameless_lift (Assembly.blameless_encode once marked))
  intro _ e _ lifted
  have placed : ∀ l, b.Names l → ∃ o, e.offset l = .ok o := fun l named =>
    (Encoded.offset_iff (PoolM.lift_ok_iff.mp lifted).1).mpr (stands l named)
  have handlers : ∀ r ∈ b.handlers, Blameless (r.encode e) := fun r member =>
    Region.blameless_encode fun l here => placed l (.region member here)
  have lines : ∀ m ∈ b.lines, Blameless (m.encode e) := fun m member =>
    LineMark.blameless_encode (placed _ (.line member rfl))
  have ranges : ∀ v, v ∈ b.locals ∨ v ∈ b.variableTypes → Blameless (v.encode e) :=
    fun v member => Variable.blameless_encode fun l here => placed l (.range member here)
  apply PoolM.blameless_bind (PoolM.blameless_lift (blameless_mapM handlers))
  intro _ _ _ _
  apply PoolM.blameless_bind (blameless_table lines LineEntry.blameless_writeTable)
  intro _ _ _ _
  apply PoolM.blameless_bind (blameless_table (fun v member => ranges v (.inl member))
    VariableEntry.blameless_writeTable)
  intro _ _ _ _
  apply PoolM.blameless_bind (blameless_table (fun v member => ranges v (.inr member))
    VariableEntry.blameless_writeTable)
  intro _ _ _ _
  apply PoolM.blameless_bind (blameless_encodeFrames fun f member l here =>
    placed l (.frame member here))
  intro _ _ _ _
  exact PoolM.blameless_pure _

/-- A body that is not valid is not encoded, and a valid body does not fail for a label. -/
theorem validate_predicts (b : Body) (pool : Pool) :
    (∀ e, b.validate = .error e → ∃ e' q, b.toCode pool = .error e' q) ∧
      (b.validate = .ok () → ∀ e q, b.toCode pool = .error e q → ¬ e.BlamesLabel) := by
  constructor
  · intro e refused
    cases run : b.toCode pool with
    | error e' q => exact ⟨e', q, rfl⟩
    | ok c q =>
      obtain ⟨encoded, assembled, offsets⟩ := offset_of_toCode run
      obtain ⟨slots, layout, laid⟩ := laid_of_encode assembled
      have valid : b.validate = .ok () := validate_ok_iff.mpr ⟨laid.acceptable.once,
        fun l named => (Encoded.offset_iff assembled).mp (offsets l named)⟩
      rw [valid] at refused
      cases refused
  · intro valid e q failed
    exact blameless_toCode valid pool e q failed

def danglingFrame : Body :=
  { (default : Body) with
    items := [.mark ⟨0⟩, .op (.plain Opcode.vreturn)]
    frames := some [⟨⟨0⟩, .full [.uninitialized ⟨1⟩] []⟩] }

def misfit : Body :=
  { (default : Body) with
    items := [.mark ⟨0⟩, .op ⟨Opcode.vreturn, .byte 1⟩, .mark ⟨1⟩]
    handlers := [⟨⟨0⟩, ⟨1⟩, ⟨0⟩, none⟩] }

theorem validate_predicts_dangling_and_misfit :
    danglingFrame.validate = .error (.undefinedLabel ⟨1⟩) ∧
      (∃ e q, danglingFrame.toCode .empty = .error e q) ∧
      misfit.validate = .ok () ∧ ∃ e q, misfit.toCode .empty = .error e q ∧ ¬ e.BlamesLabel := by
  have dangling : danglingFrame.validate = .error (.undefinedLabel ⟨1⟩) := by rfl
  have valid : misfit.validate = .ok () := by rfl
  have fails : misfit.toCode .empty =
      .error (.malformed (.operandMismatch (.byte 1) Opcode.vreturn)) .empty := by rfl
  exact ⟨dangling, (validate_predicts danglingFrame .empty).1 _ dangling, valid, _, _, fails,
    (validate_predicts misfit .empty).2 valid _ _ fails⟩

end Body
end ClassHooks
