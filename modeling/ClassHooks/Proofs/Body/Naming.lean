import ClassHooks.Proofs.Body.Labelled

/-!
Which offsets get a label. A labelling succeeds if every offset that it is asked for may have one,
and gives labels to these offsets and to no others.
-/
namespace ClassHooks
namespace Labelling

section Rules
variable {B : Std.TreeSet UInt16} {L : UInt16}

/-- On code with these boundaries and this length the computation succeeds, and labels just these
offsets. -/
def Asks (B : Std.TreeSet UInt16) (L : UInt16) (x : LabellingM α) (os : List UInt16) : Prop :=
  ∀ s : Labelling, s.boundaries = B → s.codeLength = L → ∃ a s', x s = .ok a s' ∧
    s'.boundaries = B ∧ s'.codeLength = L ∧ ∀ o, o ∈ s'.labels ↔ o ∈ s.labels ∨ o ∈ os

theorem asks_pure (a : α) : Asks B L (pure a) [] := by
  intro s inside length
  exact ⟨a, s, rfl, inside, length, fun o => by simp⟩

theorem asks_bind {x : LabellingM α} {f : α → LabellingM β} {os os' : List UInt16}
    (first : Asks B L x os) (next : ∀ a, Asks B L (f a) os') : Asks B L (x >>= f) (os ++ os') := by
  intro s inside length
  obtain ⟨a, s₁, one, inside₁, length₁, named₁⟩ := first s inside length
  obtain ⟨b, s₂, two, inside₂, length₂, named₂⟩ := next a s₁ inside₁ length₁
  refine ⟨b, s₂, state_bind_ok_iff.mpr ⟨a, s₁, one, two⟩, inside₂, length₂, fun o => ?_⟩
  rw [named₂, named₁, List.mem_append, or_assoc]

theorem asks_map {x : LabellingM α} {os : List UInt16} (g : α → β) (asks : Asks B L x os) :
    Asks B L (x >>= fun a => pure (g a)) os := by
  have whole := asks_bind asks fun a => asks_pure (B := B) (L := L) (g a)
  rwa [List.append_nil] at whole

theorem asks_lift {result : Except Error α} {a : α} (ok : result = .ok a) {f : α → LabellingM β}
    {os : List UInt16} (next : Asks B L (f a) os) : Asks B L (lift result >>= f) os := by
  subst ok
  exact next

theorem asks_guard {c : Prop} [Decidable c] {e : Error} {f : PUnit → LabellingM α}
    {os : List UInt16} (passes : ¬c) (next : Asks B L (f ()) os) :
    Asks B L (if c then throw e >>= f else f ()) os := by
  rwa [if_neg passes]

theorem asks_mapM {f : α → LabellingM β} {g : α → List UInt16} {xs : List α}
    (each : ∀ x ∈ xs, Asks B L (f x) (g x)) : Asks B L (xs.mapM f) (xs.flatMap g) := by
  induction xs with
  | nil => exact asks_pure []
  | cons x xs ih =>
    rw [List.mapM_cons, List.flatMap_cons]
    refine asks_bind (each x (List.mem_cons_self ..)) fun y => asks_map _ (ih fun x' member => ?_)
    exact each x' (List.mem_cons_of_mem _ member)

theorem asks_labelOf (o : UInt16) : Asks B L (labelOf o) [o] := by
  rintro ⟨boundaries, codeLength, labels⟩ rfl rfl
  cases found : labels[o]? with
  | some l =>
    refine ⟨l, ⟨boundaries, codeLength, labels⟩, ?_, rfl, rfl, fun o' => ?_⟩
    · simp [labelOf, found]
    · have known : o ∈ labels := by
        rw [Std.TreeMap.mem_iff_isSome_getElem?, found]
        rfl
      simp only [List.mem_singleton]
      constructor
      · exact .inl
      · rintro (old | rfl)
        · exact old
        · exact known
  | none =>
    refine ⟨⟨UInt32.ofNat labels.size⟩,
      ⟨boundaries, codeLength, labels.insert o ⟨UInt32.ofNat labels.size⟩⟩, ?_, rfl, rfl,
      fun o' => ?_⟩
    · simp [labelOf, found]
    · simp only [Std.TreeMap.mem_insert, Std.compare_eq_iff_eq, List.mem_singleton]
      rw [or_comm, eq_comm (a := o)]

theorem asks_labelAt (use : PlaceUse) {o : UInt16} (inside : B.contains o = true) :
    Asks B L (labelAt use o) [o] := by
  rintro s rfl rfl
  obtain ⟨l, s', run, rest⟩ := asks_labelOf (B := s.boundaries) (L := s.codeLength) o s rfl rfl
  refine ⟨l, s', state_bind_ok_iff.mpr ⟨s, s, rfl, ?_⟩, rest⟩
  rw [if_pos inside]
  exact run

theorem asks_labelAtOrEnd (use : PlaceUse) {o : UInt16} (known : B.contains o = true ∨ o = L) :
    Asks B L (labelAtOrEnd use o) [o] := by
  rintro s rfl rfl
  by_cases last : o = s.codeLength
  · obtain ⟨l, s', run, rest⟩ := asks_labelOf (B := s.boundaries) (L := s.codeLength) o s rfl rfl
    refine ⟨l, s', state_bind_ok_iff.mpr ⟨s, s, rfl, ?_⟩, rest⟩
    rw [if_pos last]
    exact run
  · obtain ⟨l, s', run, rest⟩ := asks_labelAt use (L := s.codeLength)
      (known.resolve_right last) s rfl rfl
    refine ⟨l, s', state_bind_ok_iff.mpr ⟨s, s, rfl, ?_⟩, rest⟩
    rw [if_neg last]
    exact run

end Rules

section Parts
variable {B : Std.TreeSet UInt16} {L : UInt16} {use : PlaceUse}

theorem asks_labels {os : List UInt16} (inside : ∀ o ∈ os, B.contains o = true) :
    Asks B L (os.mapM (labelAt use)) os := by
  have each := asks_mapM (L := L) (f := labelAt use) (g := fun o => [o]) fun o member =>
    asks_labelAt use (inside o member)
  simpa using each

theorem asks_operand {i : Operand UInt16} (inside : ∀ o ∈ i.targets, B.contains o = true) :
    Asks B L (i.mapTargets (labelAt use)) i.targets := by
  cases i with
  | branch o => exact asks_map _ (asks_labelAt use (inside o (List.mem_singleton.mpr rfl)))
  | tableSwitch d low high os =>
    obtain ⟨first, others⟩ := List.forall_mem_cons.mp inside
    exact asks_bind (asks_labelAt use first) fun _ => asks_map _ (asks_labels others)
  | lookupSwitch d pairs =>
    obtain ⟨first, others⟩ := List.forall_mem_cons.mp inside
    have each : Asks B L (pairs.mapM fun q => do return (q.1, ← labelAt use q.2))
        (pairs.flatMap fun q => [q.2]) := asks_mapM fun q member =>
      asks_map _ (asks_labelAt use (others _ (List.mem_map_of_mem member)))
    rw [← List.map_eq_flatMap] at each
    exact asks_bind (asks_labelAt use first) fun _ => asks_map _ each
  | _ => exact asks_pure _

theorem asks_instruction {i : Instruction UInt16} (inside : ∀ o ∈ i.targets, B.contains o = true) :
    Asks B L (i.mapTargets (labelAt use)) i.targets := asks_map _ (asks_operand inside)

theorem asks_type {v : VerificationType UInt16} (inside : ∀ o ∈ v.positions, B.contains o = true) :
    Asks B L (v.mapPosition (labelAt use)) v.positions := by
  cases v with
  | uninitialized o => exact asks_map _ (asks_labelAt use (inside o (List.mem_singleton.mpr rfl)))
  | _ => exact asks_pure _

theorem asks_types {vs : List (VerificationType UInt16)}
    (inside : ∀ o ∈ vs.flatMap VerificationType.positions, B.contains o = true) :
    Asks B L (vs.mapM (·.mapPosition (labelAt use))) (vs.flatMap VerificationType.positions) :=
  asks_mapM fun v member => asks_type fun o here =>
    inside o (List.mem_flatMap.mpr ⟨v, member, here⟩)

theorem asks_kind {k : FrameKind UInt16} (inside : ∀ o ∈ k.positions, B.contains o = true) :
    Asks B L (k.mapPositions (labelAt use)) k.positions := by
  cases k with
  | sameOneItem v => exact asks_map _ (asks_type inside)
  | append ls => exact asks_map _ (asks_types inside)
  | full ls ss =>
    rw [FrameKind.positions, List.flatMap_append] at inside ⊢
    obtain ⟨locals, stack⟩ := List.forall_mem_append.mp inside
    exact asks_bind (asks_types locals) fun _ => asks_map _ (asks_types stack)
  | _ => exact asks_pure _

theorem asks_frame {f : Frame UInt16} (inside : ∀ o ∈ f.positions, B.contains o = true) :
    Asks B L (f.mapPositions (labelAt use)) f.positions := by
  obtain ⟨kind, place⟩ := List.forall_mem_append.mp inside
  exact asks_bind (asks_kind kind) fun _ => asks_map _ (asks_labelAt use (place _ (by simp)))

end Parts
end Labelling

def Handler.places (h : Handler) : List UInt16 := [h.start, h.finish, h.handler]

def VariableEntry.ends (e : VariableEntry) : List UInt16 := [e.start, e.start + e.length]

structure Handler.Lies (B : Std.TreeSet UInt16) (L : UInt16) (h : Handler) : Prop where
  filled : h.start < h.finish
  start : B.contains h.start = true
  finish : B.contains h.finish = true ∨ h.finish = L
  handler : B.contains h.handler = true

structure VariableEntry.Lies (B : Std.TreeSet UInt16) (L : UInt16) (e : VariableEntry) : Prop where
  bound : e.start.toNat + e.length.toNat ≤ 65535
  start : B.contains e.start = true ∨ e.start = L
  finish : B.contains (e.start + e.length) = true ∨ e.start + e.length = L

namespace Labelling
variable {B : Std.TreeSet UInt16} {L : UInt16}

theorem asks_region {h : Handler} (lies : h.Lies B L) : Asks B L (region h) h.places := by
  unfold region
  dsimp only
  refine asks_guard (UInt16.not_le.mpr lies.filled) ?_
  exact asks_bind (asks_labelAt _ lies.start) fun _ => asks_bind (asks_labelAtOrEnd _ lies.finish)
    fun _ => asks_map _ (asks_labelAt _ lies.handler)

theorem asks_line {e : LineEntry} (inside : B.contains e.start = true) :
    Asks B L (line e) [e.start] := asks_map _ (asks_labelAt _ inside)

theorem asks_liveRange {e : VariableEntry} (lies : e.Lies B L) : Asks B L (liveRange e) e.ends := by
  have sum : UInt16.ofNat (e.start.toNat + e.length.toNat) = e.start + e.length := by
    rw [UInt16.ofNat_add, UInt16.ofNat_toNat, UInt16.ofNat_toNat]
  unfold liveRange
  dsimp only
  refine asks_guard (Nat.not_lt.mpr lies.bound) ?_
  refine asks_bind (asks_labelAtOrEnd _ lies.start) fun _ => asks_map _ ?_
  rw [sum]
  exact asks_labelAtOrEnd _ lies.finish

end Labelling

namespace Attribute

def places (pool : Pool) (a : Attribute) : List UInt16 :=
  ((a.frameEntries pool).getD []).flatMap Frame.positions ++
    ((a.lineEntries pool).map LineEntry.start ++
      ((a.variableEntries pool localVariableTable).flatMap VariableEntry.ends ++
        (a.variableEntries pool localVariableTypeTable).flatMap VariableEntry.ends))

structure Readable (pool : Pool) (B : Std.TreeSet UInt16) (L : UInt16) (a : Attribute) : Prop where
  frames : a.hasName pool stackMapTable = true → ∃ fs, Frame.parseTable a.payload = .ok fs ∧
    ∀ f ∈ fs, ∀ o ∈ f.positions, B.contains o = true
  lines : a.hasName pool lineNumberTable = true → ∃ es, LineEntry.parseTable a.payload = .ok es ∧
    ∀ e ∈ es, B.contains e.start = true
  locals : a.hasName pool localVariableTable = true → ∃ es,
    VariableEntry.parseTable a.payload = .ok es ∧ ∀ e ∈ es, e.Lies B L
  types : a.hasName pool localVariableTypeTable = true → ∃ es,
    VariableEntry.parseTable a.payload = .ok es ∧ ∀ e ∈ es, e.Lies B L

end Attribute

namespace BodyPart
open Attribute Labelling
variable {B : Std.TreeSet UInt16} {L : UInt16} {pool : Pool} {a : Attribute}

theorem asks_ofAttribute {mapped : Bool} (readable : a.Readable pool B L)
    (first : a.hasName pool stackMapTable = true → mapped = false) :
    Asks B L (ofAttribute pool mapped a) (a.places pool) := by
  unfold ofAttribute
  dsimp only
  by_cases frames : a.hasName pool stackMapTable = true
  · obtain ⟨fs, parsed, inside⟩ := readable.frames frames
    have places : a.places pool = fs.flatMap Frame.positions := by
      simp [Attribute.places, frameEntries, lineEntries, variableEntries, frames, parsed,
        Except.toOption, only_frames frames]
    rw [if_pos frames, places]
    refine asks_guard (by simp [first frames]) (asks_lift parsed ?_)
    exact asks_map _ (asks_mapM fun f member => asks_frame (inside f member))
  rw [if_neg frames]
  by_cases lines : a.hasName pool lineNumberTable = true
  · obtain ⟨es, parsed, inside⟩ := readable.lines lines
    have places : a.places pool = es.flatMap fun e => [e.start] := by
      simp [Attribute.places, frameEntries, lineEntries, variableEntries, frames, lines, parsed,
        Except.toOption, only_lines lines, List.map_eq_flatMap]
    rw [if_pos lines, places]
    refine asks_lift parsed ?_
    exact asks_map _ (asks_mapM fun e member => asks_line (inside e member))
  rw [if_neg lines]
  by_cases locals : a.hasName pool localVariableTable = true
  · obtain ⟨es, parsed, inside⟩ := readable.locals locals
    have places : a.places pool = es.flatMap VariableEntry.ends := by
      simp [Attribute.places, frameEntries, lineEntries, variableEntries, frames, lines, locals,
        parsed, Except.toOption, only_locals locals]
    rw [if_pos locals, places]
    refine asks_lift parsed ?_
    exact asks_map _ (asks_mapM fun e member => asks_liveRange (inside e member))
  rw [if_neg locals]
  by_cases types : a.hasName pool localVariableTypeTable = true
  · obtain ⟨es, parsed, inside⟩ := readable.types types
    have places : a.places pool = es.flatMap VariableEntry.ends := by
      simp [Attribute.places, frameEntries, lineEntries, variableEntries, frames, lines, locals,
        types, parsed, Except.toOption]
    rw [if_pos types, places]
    refine asks_lift parsed ?_
    exact asks_map _ (asks_mapM fun e member => asks_liveRange (inside e member))
  rw [if_neg types]
  have places : a.places pool = [] := by
    simp [Attribute.places, frameEntries, lineEntries, variableEntries, frames, lines, locals,
      types]
  rw [places]
  exact asks_pure _

theorem table_part {entries : Except Error α} {f : α → LabellingM β} {make : β → BodyPart}
    {s s' : Labelling} {part : BodyPart} (run : (do
      let es ← Labelling.lift entries
      let bs ← f es
      return make bs : LabellingM BodyPart) s = .ok part s') : ∃ bs, part = make bs := by
  obtain ⟨es, s₁, _, run⟩ := state_bind_ok_iff.mp run
  obtain ⟨bs, s₂, _, run⟩ := state_bind_ok_iff.mp run
  cases run
  exact ⟨bs, rfl⟩

theorem frames_of_ofAttribute {mapped : Bool} {s s' : Labelling} {part : BodyPart}
    (run : ofAttribute pool mapped a s = .ok part s') :
    part.frames?.isSome = a.hasName pool stackMapTable := by
  unfold ofAttribute at run
  dsimp only at run
  split at run
  · rename_i frames
    rw [frames]
    split at run
    · obtain ⟨_, _, thrown, _⟩ := state_bind_ok_iff.mp run
      cases thrown
    · obtain ⟨_, rfl⟩ := table_part run
      rfl
  · rename_i other
    rw [Bool.not_eq_true] at other
    rw [other]
    split at run
    · obtain ⟨_, rfl⟩ := table_part run
      rfl
    · split at run
      · obtain ⟨_, rfl⟩ := table_part run
        rfl
      · split at run
        · obtain ⟨_, rfl⟩ := table_part run
          rfl
        · cases run
          rfl

theorem asks_ofAttributes {as : List Attribute} (readable : ∀ a ∈ as, a.Readable pool B L)
    {mapped : Bool} (read : List BodyPart)
    (single : as.countP (·.hasName pool stackMapTable) + mapped.toNat ≤ 1) :
    Asks B L (ofAttributes pool mapped read as) (as.flatMap (Attribute.places pool)) := by
  induction as generalizing mapped read with
  | nil => exact asks_pure _
  | cons a as ih =>
    obtain ⟨here, later⟩ := List.forall_mem_cons.mp readable
    rw [List.countP_cons] at single
    intro s inside length
    have first : Asks B L (ofAttribute pool mapped a) (a.places pool) :=
      asks_ofAttribute here fun frames => by cases mapped <;> simp_all
    obtain ⟨part, s₁, one, inside₁, length₁, named₁⟩ := first s inside length
    have kind := frames_of_ofAttribute one
    have rest : Asks B L (ofAttributes pool (mapped || part.frames?.isSome) (part :: read) as)
        (as.flatMap (Attribute.places pool)) := by
      refine ih later (part :: read) ?_
      rw [kind]
      cases mapped <;> cases frames : a.hasName pool stackMapTable <;> simp_all
    obtain ⟨parts, s₂, two, inside₂, length₂, named₂⟩ := rest s₁ inside₁ length₁
    refine ⟨parts, s₂, state_bind_ok_iff.mpr ⟨part, s₁, one, two⟩, inside₂, length₂, fun o => ?_⟩
    rw [named₂, named₁, List.flatMap_cons, List.mem_append, or_assoc]

theorem readable_of_reads {t : Labelling} (inside : ∀ o, t.NamesInside o → B.contains o = true)
    (known : ∀ o, t.Names o → B.contains o = true ∨ o = L) {mapped : Bool} {part : BodyPart}
    (reads : Reads pool t mapped a part) : a.Readable pool B L := by
  have ranges : ∀ {es : List VariableEntry} {vs : List Variable},
      List.Forall₂ t.VariableOf es vs → ∀ e ∈ es, e.Lies B L := by
    intro es vs related e member
    obtain ⟨_, _, source⟩ := related_of_mem related member
    exact ⟨source.bound, known _ source.start, known _ source.finish⟩
  cases reads with
  | frames name parsed named =>
    obtain ⟨lines, locals, types⟩ := only_frames name
    exact ⟨fun _ => ⟨_, parsed, fun f member o here => inside o (named f member o here)⟩,
      by simp [lines], by simp [locals], by simp [types]⟩
  | lines name parsed named =>
    obtain ⟨frames, locals, types⟩ := only_lines name
    exact ⟨by simp [frames], fun _ => ⟨_, parsed, fun e member => inside _ (named e member)⟩,
      by simp [locals], by simp [types]⟩
  | locals name parsed related =>
    obtain ⟨frames, lines, types⟩ := only_locals name
    exact ⟨by simp [frames], by simp [lines], fun _ => ⟨_, parsed, ranges related⟩,
      by simp [types]⟩
  | types name parsed related =>
    obtain ⟨frames, lines, locals⟩ := only_types name
    exact ⟨by simp [frames], by simp [lines], by simp [locals],
      fun _ => ⟨_, parsed, ranges related⟩⟩
  | other frames lines locals types =>
    constructor <;> intro name <;> simp_all

theorem frames_of_reads {t : Labelling} {mapped : Bool} {part : BodyPart}
    (reads : Reads pool t mapped a part) :
    (a.hasName pool stackMapTable = true → mapped = false) ∧
      part.frames?.isSome = a.hasName pool stackMapTable := by
  cases reads with
  | frames name _ _ => exact ⟨fun _ => rfl, name.symm⟩
  | lines name _ _ =>
    rw [(only_lines name).1]
    exact ⟨nofun, rfl⟩
  | locals name _ _ =>
    rw [(only_locals name).1]
    exact ⟨nofun, rfl⟩
  | types name _ _ =>
    rw [(only_types name).1]
    exact ⟨nofun, rfl⟩
  | other frames _ _ _ =>
    rw [frames]
    exact ⟨nofun, rfl⟩

theorem single_of_readsAll {t : Labelling} {mapped : Bool} {as : List Attribute}
    {parts : List BodyPart} (all : ReadsAll pool t mapped as parts) :
    as.countP (·.hasName pool stackMapTable) + mapped.toNat ≤ 1 := by
  induction all with
  | @nil mapped => cases mapped <;> simp
  | @cons mapped a part as parts first rest ih =>
    obtain ⟨before, kind⟩ := frames_of_reads first
    rw [kind] at ih
    rw [List.countP_cons]
    cases frames : a.hasName pool stackMapTable with
    | true =>
      rw [before frames]
      simpa [frames, before frames] using ih
    | false => simpa [frames] using ih

theorem reads_of_readsAll {t : Labelling} {mapped : Bool} {as : List Attribute}
    {parts : List BodyPart} (all : ReadsAll pool t mapped as parts) {a : Attribute}
    (member : a ∈ as) : ∃ mapped part, Reads pool t mapped a part := by
  induction all with
  | nil => cases member
  | cons first _ ih =>
    rcases List.mem_cons.mp member with rfl | later
    · exact ⟨_, _, first⟩
    · exact ih later

end BodyPart

namespace Body
open Attribute BodyPart Labelling
variable {pool : Pool} {c : CodeAttribute} {decoded : List (UInt16 × Instruction UInt16)}

def namedOffsets (pool : Pool) (c : CodeAttribute)
    (decoded : List (UInt16 × Instruction UInt16)) : List UInt16 :=
  decoded.flatMap (·.2.targets) ++ (c.handlers.flatMap Handler.places ++
    c.attributes.flatMap (Attribute.places pool))

/-- Whatever is named lies in the code. -/
structure Labellable (pool : Pool) (c : CodeAttribute)
    (decoded : List (UInt16 × Instruction UInt16)) (B : Std.TreeSet UInt16) (L : UInt16) :
    Prop where
  targets : ∀ d ∈ decoded, ∀ o ∈ d.2.targets, B.contains o = true
  handlers : ∀ h ∈ c.handlers, h.Lies B L
  attributes : ∀ a ∈ c.attributes, a.Readable pool B L
  single : c.attributes.countP (·.hasName pool stackMapTable) ≤ 1

theorem label_ok {B : Std.TreeSet UInt16} {L : UInt16}
    (labellable : Labellable pool c decoded B L) {s : Labelling} (inside : s.boundaries = B)
    (length : s.codeLength = L) : ∃ b t, label c pool decoded s = .ok b t ∧
      ∀ o, o ∈ t.labels ↔ o ∈ s.labels ∨ o ∈ namedOffsets pool c decoded := by
  have one : Asks B L (decoded.mapM fun p => do
      return (p.1, ← p.2.mapTargets (labelAt .branchTarget))) (decoded.flatMap (·.2.targets)) :=
    asks_mapM fun d member => asks_map _ (asks_instruction (labellable.targets d member))
  have two : Asks B L (c.handlers.mapM region) (c.handlers.flatMap Handler.places) :=
    asks_mapM fun h member => asks_region (labellable.handlers h member)
  have three : Asks B L (ofAttributes pool false [] c.attributes)
      (c.attributes.flatMap (Attribute.places pool)) :=
    asks_ofAttributes labellable.attributes [] labellable.single
  obtain ⟨instructions, s₁, first, inside₁, length₁, named₁⟩ := one s inside length
  obtain ⟨handlers, s₂, second, inside₂, length₂, named₂⟩ := two s₁ inside₁ length₁
  obtain ⟨parts, s₃, third, _, _, named₃⟩ := three s₂ inside₂ length₂
  refine ⟨_, s₃, state_bind_ok_iff.mpr ⟨instructions, s₁, first, state_bind_ok_iff.mpr
    ⟨handlers, s₂, second, state_bind_ok_iff.mpr ⟨parts, s₃, third, rfl⟩⟩⟩, fun o => ?_⟩
  rw [named₃, named₂, named₁, namedOffsets, List.mem_append, List.mem_append, or_assoc, or_assoc]

/-- A code attribute that names nothing but what lies in its code becomes a body. -/
theorem ofCode_of_labellable (filled : c.code ≠ [])
    (decodes : Instruction.decode c.code = .ok decoded)
    (labellable : Labellable pool c decoded (unnamed c decoded).boundaries
      (UInt16.ofNat c.code.length)) : ∃ b t, ofCode c pool = .ok b ∧
      Labelled pool t c decoded b ∧ ∀ o, o ∈ t.labels ↔ o ∈ namedOffsets pool c decoded := by
  obtain ⟨b, t, run, named⟩ := label_ok labellable (s := unnamed c decoded) rfl rfl
  refine ⟨b, t, ofCode_ok_iff.mpr ⟨filled, decoded, t, decodes, run⟩, labelled_of_unnamed run,
    fun o => ?_⟩
  rw [named]
  simp [unnamed]

theorem labellable_of_labelled {t : Labelling} {b : Body} (labelled : Labelled pool t c decoded b) :
    Labellable pool c decoded (unnamed c decoded).boundaries (UInt16.ofNat c.code.length) := by
  have inside : ∀ o, t.NamesInside o → (unnamed c decoded).boundaries.contains o = true :=
    fun o named => (unnamed_boundaries c decoded o).mpr ((labelled.boundaries o).mp named.1)
  have known : ∀ o, t.Names o → (unnamed c decoded).boundaries.contains o = true ∨
      o = UInt16.ofNat c.code.length := by
    intro o named
    rw [← labelled.codeLength]
    exact named.1.imp_left fun member =>
      (unnamed_boundaries c decoded o).mpr ((labelled.boundaries o).mp member)
  obtain ⟨parts, all⟩ := labelled.reads
  constructor
  case targets => exact fun d member o here => inside o (labelled.targets d member o here)
  case handlers =>
    intro h member
    obtain ⟨_, _, source⟩ := related_of_mem labelled.regions member
    exact ⟨source.filled, inside _ source.start, known _ source.finish, inside _ source.handler⟩
  case attributes =>
    intro a member
    obtain ⟨_, _, reads⟩ := reads_of_readsAll all member
    exact readable_of_reads inside known reads
  case single => simpa using single_of_readsAll all

theorem named_of_ofCode {b : Body} (made : ofCode c pool = .ok b) : ∃ decoded t, c.code ≠ [] ∧
    Instruction.decode c.code = .ok decoded ∧ Labelled pool t c decoded b ∧
      ∀ o, o ∈ t.labels ↔ o ∈ namedOffsets pool c decoded := by
  obtain ⟨filled, decoded, t, decodes, run⟩ := ofCode_ok_iff.mp made
  have labelled := labelled_of_unnamed run
  obtain ⟨b', t', run', named⟩ := label_ok (labellable_of_labelled labelled)
    (s := unnamed c decoded) rfl rfl
  rw [run] at run'
  cases run'
  refine ⟨decoded, t, filled, decodes, labelled, fun o => ?_⟩
  rw [named]
  simp [unnamed]

end Body
end ClassHooks
