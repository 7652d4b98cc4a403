import ClassHooks.Proofs.Code.Frame
import ClassHooks.Proofs.Instruction.Targets
import ClassHooks.Body.Labelling
import Mathlib.Data.List.Nodup
import Mathlib.Data.List.Perm.Subperm

/-!
Giving labels to offsets. Labels are only ever added, so what a part of the labelling gave out
still names its offset at the end.
-/
namespace ClassHooks
namespace Labelling

/-- Every label is below the next new one and belongs to one offset, where an instruction begins or
the code ends. -/
structure Sound (s : Labelling) : Prop where
  below : ∀ (o : UInt16) (l : Label), s.labels[o]? = some l → l.number.toNat < s.labels.size
  single : ∀ (o o' : UInt16) (l : Label), s.labels[o]? = some l → s.labels[o']? = some l → o = o'
  known : ∀ (o : UInt16) (l : Label), s.labels[o]? = some l →
    s.boundaries.contains o = true ∨ o = s.codeLength

structure Extends (s t : Labelling) : Prop where
  boundaries : t.boundaries = s.boundaries
  codeLength : t.codeLength = s.codeLength
  labels : ∀ (o : UInt16) (l : Label), s.labels[o]? = some l → t.labels[o]? = some l

def labelFor (t : Labelling) (o : UInt16) : Label := (t.labels[o]?).getD ⟨0⟩

def NamesInside (t : Labelling) (o : UInt16) : Prop :=
  t.boundaries.contains o = true ∧ t.labels[o]? = some (t.labelFor o)

def Names (t : Labelling) (o : UInt16) : Prop :=
  (t.boundaries.contains o = true ∨ o = t.codeLength) ∧ t.labels[o]? = some (t.labelFor o)

theorem names_of_inside {t : Labelling} {o : UInt16} (named : t.NamesInside o) : t.Names o :=
  ⟨.inl named.1, named.2⟩

/-- What the computation gives is right for the labels then given and for every later labelling. -/
def Yields (x : LabellingM α) (R : Labelling → α → Prop) : Prop :=
  ∀ s a s', s.Sound → x s = .ok a s' → s'.Sound ∧ s.Extends s' ∧ ∀ t, s'.Extends t → R t a

theorem extends_refl (s : Labelling) : s.Extends s := ⟨rfl, rfl, fun _ _ found => found⟩

theorem extends_trans {s t u : Labelling} (one : s.Extends t) (two : t.Extends u) : s.Extends u :=
  ⟨two.boundaries.trans one.boundaries, two.codeLength.trans one.codeLength,
    fun o l found => two.labels o l (one.labels o l found)⟩

theorem labelFor_eq {t : Labelling} {o : UInt16} {l : Label} (found : t.labels[o]? = some l) :
    t.labelFor o = l := by
  rw [labelFor, found]
  rfl

section Rules
variable {R : Labelling → α → Prop} {S : Labelling → β → Prop}

theorem yields_pure {a : α} (right : ∀ t, R t a) : Yields (pure a) R := by
  intro s a' s' sound run
  cases run
  exact ⟨sound, extends_refl s, fun t _ => right t⟩

theorem yields_throw_bind (e : Error) (f : α → LabellingM β) :
    Yields ((throw e : LabellingM α) >>= f) S := by
  intro s a s' _ run
  cases run

theorem yields_bind {x : LabellingM α} {f : α → LabellingM β} (first : Yields x R)
    (next : ∀ a, Yields (f a) fun t b => R t a → S t b) : Yields (x >>= f) S := by
  intro s b s' sound run
  obtain ⟨a, middle, one, two⟩ := state_bind_ok_iff.mp run
  obtain ⟨sound₁, grown₁, right₁⟩ := first s a middle sound one
  obtain ⟨sound₂, grown₂, right₂⟩ := next a middle b s' sound₁ two
  exact ⟨sound₂, extends_trans grown₁ grown₂,
    fun t later => right₂ t later (right₁ t (extends_trans grown₂ later))⟩

theorem yields_mono {x : LabellingM α} {R' : Labelling → α → Prop} (yields : Yields x R)
    (follows : ∀ t a, R t a → R' t a) : Yields x R' := by
  intro s a s' sound run
  obtain ⟨sound', grown, right⟩ := yields s a s' sound run
  exact ⟨sound', grown, fun t later => follows t a (right t later)⟩

theorem yields_lift {result : Except Error α} :
    Yields (lift result) fun _ a => result = .ok a := by
  intro s a s' sound run
  cases result with
  | error e => cases run
  | ok a' =>
    cases run
    exact ⟨sound, extends_refl s, fun _ _ => rfl⟩

theorem yields_mapM {f : α → LabellingM β} {R : α → Labelling → β → Prop}
    (each : ∀ a, Yields (f a) (R a)) (xs : List α) :
    Yields (xs.mapM f) fun t ys => List.Forall₂ (fun x y => R x t y) xs ys := by
  induction xs with
  | nil =>
    rw [List.mapM_nil]
    exact yields_pure fun _ => .nil
  | cons x xs ih =>
    rw [List.mapM_cons]
    refine yields_bind (each x) fun y => yields_bind ih fun ys => ?_
    exact yields_pure fun t rest first => .cons first rest

end Rules

theorem size_labels_le (labels : Std.TreeMap UInt16 Label) : labels.size ≤ 65536 := by
  have once : (labels.keys.map UInt16.toNat).Nodup :=
    labels.nodup_keys.map fun _ _ same => UInt16.toNat_inj.mp same
  have among : labels.keys.map UInt16.toNat ⊆ List.range 65536 := by
    intro n member
    obtain ⟨o, _, rfl⟩ := List.mem_map.mp member
    exact List.mem_range.mpr o.toNat_lt
  have fewer := (List.subperm_of_subset once among).length_le
  rwa [List.length_map, Std.TreeMap.length_keys, List.length_range] at fewer

theorem toNat_size_labels (labels : Std.TreeMap UInt16 Label) :
    (UInt32.ofNat labels.size).toNat = labels.size := by
  have := size_labels_le labels
  exact UInt32.toNat_ofNat_of_lt' (by simp only [UInt32.size]; omega)

def added (s : Labelling) (o : UInt16) : Labelling :=
  { s with labels := s.labels.insert o ⟨UInt32.ofNat s.labels.size⟩ }

section Added
variable {s : Labelling} {o : UInt16} (missing : s.labels[o]? = none)
include missing

theorem size_added : (s.added o).labels.size = s.labels.size + 1 := by
  have unknown : o ∉ s.labels := by
    intro member
    rw [Std.TreeMap.mem_iff_isSome_getElem?, missing] at member
    cases member
  simp [added, Std.TreeMap.size_insert, unknown]

omit missing in
theorem label_added {o' : UInt16} {l : Label} (here : (s.added o).labels[o']? = some l) :
    (o = o' ∧ l = ⟨UInt32.ofNat s.labels.size⟩) ∨ (o ≠ o' ∧ s.labels[o']? = some l) := by
  unfold added at here
  rw [Std.TreeMap.getElem?_insert] at here
  split at here
  · rename_i same
    exact .inl ⟨Std.compare_eq_iff_eq.mp same, (Option.some.inj here).symm⟩
  · rename_i other
    exact .inr ⟨fun same => other (Std.compare_eq_iff_eq.mpr same), here⟩

theorem extends_added : s.Extends (s.added o) := by
  refine ⟨rfl, rfl, fun o' l old => ?_⟩
  unfold added
  rw [Std.TreeMap.getElem?_insert, if_neg ?_]
  · exact old
  · intro same
    obtain rfl := Std.compare_eq_iff_eq.mp same
    rw [missing] at old
    cases old

theorem sound_added (sound : s.Sound) (place : s.boundaries.contains o = true ∨ o = s.codeLength) :
    (s.added o).Sound := by
  refine ⟨fun o' l here => ?_, fun o₁ o₂ l one two => ?_, fun o' l here => ?_⟩
  · rw [size_added missing]
    rcases label_added here with ⟨_, rfl⟩ | ⟨_, old⟩
    · rw [toNat_size_labels]
      exact Nat.lt_succ_self _
    · exact Nat.lt_succ_of_lt (sound.below o' l old)
  · rcases label_added one with ⟨rfl, rfl⟩ | ⟨_, old₁⟩
    · rcases label_added two with ⟨rfl, _⟩ | ⟨_, old₂⟩
      · rfl
      · exact absurd (sound.below _ _ old₂) (by rw [toNat_size_labels]; exact Nat.lt_irrefl _)
    · rcases label_added two with ⟨rfl, rfl⟩ | ⟨_, old₂⟩
      · exact absurd (sound.below _ _ old₁) (by rw [toNat_size_labels]; exact Nat.lt_irrefl _)
      · exact sound.single _ _ _ old₁ old₂
  · rcases label_added here with ⟨rfl, _⟩ | ⟨_, old⟩
    · exact place
    · exact sound.known o' l old

end Added

theorem sound_labelOf {s s' : Labelling} {o : UInt16} {l : Label} (sound : s.Sound)
    (place : s.boundaries.contains o = true ∨ o = s.codeLength)
    (run : labelOf o s = .ok l s') :
    s'.Sound ∧ s.Extends s' ∧ s'.labels[o]? = some l := by
  unfold labelOf at run
  split at run
  · rename_i l' found
    cases run
    exact ⟨sound, extends_refl s, found⟩
  · rename_i missing
    cases run
    exact ⟨sound_added missing sound place, extends_added missing,
      Std.TreeMap.getElem?_insert_self⟩

theorem yields_labelAt (use : PlaceUse) (o : UInt16) :
    Yields (labelAt use o) fun t l => l = t.labelFor o ∧ t.NamesInside o := by
  intro s l s' sound run
  unfold labelAt at run
  obtain ⟨_, _, asked, run⟩ := state_bind_ok_iff.mp run
  cases asked
  split at run
  · rename_i inside
    obtain ⟨sound', grown, found⟩ := sound_labelOf sound (.inl inside) run
    refine ⟨sound', grown, fun t later => ?_⟩
    have name := labelFor_eq (later.labels o l found)
    refine ⟨name.symm, ?_, ?_⟩
    · rwa [later.boundaries, grown.boundaries]
    · rw [name]
      exact later.labels o l found
  · cases run

theorem yields_labelAtOrEnd (use : PlaceUse) (o : UInt16) :
    Yields (labelAtOrEnd use o) fun t l => l = t.labelFor o ∧ t.Names o := by
  intro s l s' sound run
  unfold labelAtOrEnd at run
  obtain ⟨_, _, asked, run⟩ := state_bind_ok_iff.mp run
  cases asked
  split at run
  · rename_i atEnd
    obtain ⟨sound', grown, found⟩ := sound_labelOf sound (.inr atEnd) run
    refine ⟨sound', grown, fun t later => ?_⟩
    have name := labelFor_eq (later.labels o l found)
    refine ⟨name.symm, .inr ?_, ?_⟩
    · rwa [later.codeLength, grown.codeLength]
    · rw [name]
      exact later.labels o l found
  · obtain ⟨sound', grown, right⟩ := yields_labelAt use o s l s' sound run
    refine ⟨sound', grown, fun t later => ?_⟩
    obtain ⟨name, inside, found⟩ := right t later
    exact ⟨name, .inl inside, found⟩

/-- A structure whose offsets become labels one by one. -/
def Relabels (mapped : (UInt16 → Label) → β) (offsets : List UInt16) (t : Labelling) (b : β) :
    Prop := b = mapped t.labelFor ∧ ∀ o ∈ offsets, t.NamesInside o

section Parts
variable {use : PlaceUse}

theorem yields_labels (use : PlaceUse) (os : List UInt16) :
    Yields (os.mapM (labelAt use)) (Relabels (fun f => os.map f) os) := by
  refine yields_mono (yields_mapM (yields_labelAt use) os) fun t ls related => ⟨?_, ?_⟩
  · exact eq_map_of_related (related.imp fun _ _ here => here.1)
  · intro o member
    obtain ⟨_, _, here⟩ := related_of_mem related member
    exact here.2

theorem yields_operand (o : Operand UInt16) :
    Yields (o.mapTargets (labelAt use)) (Relabels (fun f => o.map f) o.targets) := by
  cases o with
  | branch target =>
    refine yields_bind (yields_labelAt use target) fun l => yields_pure fun t ⟨same, here⟩ => ?_
    exact ⟨by rw [same]; rfl, fun o member => (List.mem_singleton.mp member) ▸ here⟩
  | tableSwitch d low high targets =>
    refine yields_bind (yields_labelAt use d) fun l => ?_
    refine yields_bind (yields_labels use targets) fun ls => ?_
    refine yields_pure fun t ⟨same, all⟩ ⟨same', here⟩ => ⟨by rw [same, same']; rfl, ?_⟩
    exact List.forall_mem_cons.mpr ⟨here, all⟩
  | lookupSwitch d pairs =>
    refine yields_bind (yields_labelAt use d) fun l => ?_
    have each : ∀ q : Int32 × UInt16, Yields (do return (q.1, ← labelAt use q.2))
        fun t r => r = (q.1, t.labelFor q.2) ∧ t.NamesInside q.2 := fun q =>
      yields_bind (yields_labelAt use q.2) fun l => yields_pure fun t ⟨same, here⟩ =>
        ⟨by rw [same], here⟩
    refine yields_bind (yields_mapM each pairs) fun ls => ?_
    refine yields_pure fun t related ⟨same', here⟩ => ⟨?_, List.forall_mem_cons.mpr ⟨here, ?_⟩⟩
    · have same : ls = pairs.map fun q => (q.1, t.labelFor q.2) :=
        eq_map_of_related (related.imp fun _ _ here => here.1)
      rw [same, same']
      rfl
    · intro o member
      obtain ⟨q, inside, rfl⟩ := List.mem_map.mp member
      obtain ⟨_, _, here⟩ := related_of_mem related inside
      exact here.2
  | _ => exact yields_pure fun t => ⟨rfl, fun o member => (List.not_mem_nil member).elim⟩

theorem yields_instruction (i : Instruction UInt16) :
    Yields (i.mapTargets (labelAt use)) (Relabels (fun f => i.map f) i.targets) :=
  yields_bind (yields_operand i.operand) fun _ => yields_pure fun _ ⟨same, all⟩ =>
    ⟨by rw [same]; rfl, all⟩

theorem yields_type (v : VerificationType UInt16) :
    Yields (v.mapPosition (labelAt use)) (Relabels (fun f => v.map f) v.positions) := by
  cases v with
  | uninitialized p =>
    refine yields_bind (yields_labelAt use p) fun l => yields_pure fun t ⟨same, here⟩ => ?_
    exact ⟨by rw [same]; rfl, fun o member => (List.mem_singleton.mp member) ▸ here⟩
  | _ => exact yields_pure fun t => ⟨rfl, fun o member => (List.not_mem_nil member).elim⟩

theorem yields_types (vs : List (VerificationType UInt16)) :
    Yields (vs.mapM (·.mapPosition (labelAt use)))
      (Relabels (fun f => vs.map (VerificationType.map f))
        (vs.flatMap VerificationType.positions)) := by
  refine yields_mono (yields_mapM yields_type vs) fun t ls related => ⟨?_, ?_⟩
  · exact eq_map_of_related (related.imp fun _ _ here => here.1)
  · intro o member
    obtain ⟨v, inside, here⟩ := List.mem_flatMap.mp member
    obtain ⟨_, _, all⟩ := related_of_mem related inside
    exact all.2 o here

theorem yields_kind (k : FrameKind UInt16) :
    Yields (k.mapPositions (labelAt use)) (Relabels (fun f => k.map f) k.positions) := by
  cases k with
  | sameOneItem v =>
    exact yields_bind (yields_type v) fun _ => yields_pure fun t ⟨same, all⟩ =>
      ⟨by rw [same]; rfl, all⟩
  | append ls =>
    exact yields_bind (yields_types ls) fun _ => yields_pure fun t ⟨same, all⟩ =>
      ⟨by rw [same]; rfl, all⟩
  | full ls ss =>
    refine yields_bind (yields_types ls) fun _ => yields_bind (yields_types ss) fun _ => ?_
    refine yields_pure fun t ⟨same, all⟩ ⟨same', all'⟩ => ⟨by rw [same, same']; rfl, ?_⟩
    intro o member
    rw [FrameKind.positions, List.flatMap_append, List.mem_append] at member
    exact member.elim (all' o) (all o)
  | _ => exact yields_pure fun t => ⟨rfl, fun o member => (List.not_mem_nil member).elim⟩

theorem yields_frame (f : Frame UInt16) :
    Yields (f.mapPositions (labelAt use)) (Relabels (fun g => f.map g) f.positions) := by
  refine yields_bind (yields_kind f.kind) fun _ => yields_bind (yields_labelAt use _) fun _ => ?_
  refine yields_pure fun t ⟨same, here⟩ ⟨same', all⟩ => ⟨by rw [same, same']; rfl, ?_⟩
  intro o member
  rw [Frame.positions, List.mem_append, List.mem_singleton] at member
  rcases member with inside | rfl
  · exact all o inside
  · exact here

end Parts

structure RegionOf (t : Labelling) (h : Handler) (r : Region) : Prop where
  filled : h.start < h.finish
  start : t.NamesInside h.start
  finish : t.Names h.finish
  handler : t.NamesInside h.handler
  same : r = ⟨t.labelFor h.start, t.labelFor h.finish, t.labelFor h.handler,
    if h.catchType = 0 then none else some h.catchType⟩

theorem yields_region (h : Handler) : Yields (region h) fun t r => t.RegionOf h r := by
  unfold region
  dsimp only
  by_cases empty : h.finish ≤ h.start
  · rw [if_pos empty]
    exact yields_throw_bind _ _
  · rw [if_neg empty]
    refine yields_bind (yields_labelAt _ _) fun start => ?_
    refine yields_bind (yields_labelAtOrEnd _ _) fun finish => ?_
    refine yields_bind (yields_labelAt _ _) fun handler => ?_
    refine yields_pure fun t ⟨same₃, here₃⟩ ⟨same₂, here₂⟩ ⟨same₁, here₁⟩ => ?_
    refine ⟨UInt16.not_le.mp empty, here₁, here₂, here₃, ?_⟩
    rw [same₁, same₂, same₃]

theorem yields_line (e : LineEntry) : Yields (line e) fun t l =>
    t.NamesInside e.start ∧ l = ⟨t.labelFor e.start, e.line⟩ :=
  yields_bind (yields_labelAt _ _) fun _ => yields_pure fun _ ⟨same, here⟩ =>
    ⟨here, by rw [same]⟩

structure VariableOf (t : Labelling) (e : VariableEntry) (v : Variable) : Prop where
  bound : e.start.toNat + e.length.toNat ≤ 65535
  start : t.Names e.start
  finish : t.Names (e.start + e.length)
  same : v = ⟨t.labelFor e.start, t.labelFor (e.start + e.length), e.name, e.descriptor, e.index⟩

theorem VariableOf.order {t : Labelling} {e : VariableEntry} {v : Variable}
    (source : t.VariableOf e v) : e.start = e.start + e.length ∨ e.start < e.start + e.length := by
  have bound := source.bound
  by_cases same : e.start = e.start + e.length
  · exact .inl same
  · right
    rw [← UInt16.toNat_inj] at same
    rw [UInt16.lt_iff_toNat_lt]
    rw [UInt16.toNat_add] at same ⊢
    omega

theorem yields_liveRange (e : VariableEntry) :
    Yields (liveRange e) fun t v => t.VariableOf e v := by
  unfold liveRange
  dsimp only
  split
  · exact yields_throw_bind _ _
  · rename_i bound
    have sum : UInt16.ofNat (e.start.toNat + e.length.toNat) = e.start + e.length := by
      rw [UInt16.ofNat_add, UInt16.ofNat_toNat, UInt16.ofNat_toNat]
    refine yields_bind (yields_labelAtOrEnd _ _) fun start => ?_
    refine yields_bind (yields_labelAtOrEnd _ _) fun finish => ?_
    refine yields_pure fun t ⟨same₂, here₂⟩ ⟨same₁, here₁⟩ => ?_
    rw [sum] at same₂ here₂
    exact ⟨Nat.le_of_not_lt bound, here₁, here₂, by rw [same₁, same₂]⟩

end Labelling
end ClassHooks
