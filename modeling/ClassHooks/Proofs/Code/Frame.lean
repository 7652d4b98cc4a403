import ClassHooks.Proofs.Success
import ClassHooks.Code.Frame

/-!
Frames with their positions replaced all at once, and the positions that they name.
-/
namespace ClassHooks

namespace VerificationType

def map (f : π → ρ) : VerificationType π → VerificationType ρ
  | .top => .top
  | .integer => .integer
  | .float => .float
  | .double => .double
  | .long => .long
  | .null => .null
  | .uninitializedThis => .uninitializedThis
  | .object c => .object c
  | .uninitialized p => .uninitialized (f p)

def positions : VerificationType π → List π
  | .uninitialized p => [p]
  | _ => []

theorem map_map (g : ρ → σ) (f : π → ρ) (t : VerificationType π) :
    (t.map f).map g = t.map (fun p => g (f p)) := by
  cases t <;> rfl

@[simp] theorem map_id (t : VerificationType π) : t.map id = t := by
  cases t <;> rfl

theorem map_congr {f g : π → ρ} {t : VerificationType π} (same : ∀ p ∈ t.positions, f p = g p) :
    t.map f = t.map g := by
  cases t with
  | uninitialized p => exact congrArg uninitialized (same p (List.mem_singleton.mpr rfl))
  | _ => rfl

theorem positions_map (f : π → ρ) (t : VerificationType π) :
    (t.map f).positions = t.positions.map f := by
  cases t <;> rfl

theorem mapPosition_ok {f : π → Except ε ρ} {g : π → ρ} {t : VerificationType π}
    (each : ∀ p ∈ t.positions, f p = .ok (g p)) : t.mapPosition f = .ok (t.map g) := by
  cases t with
  | uninitialized p =>
    exact bind_ok_iff.mpr ⟨_, each p (List.mem_singleton.mpr rfl), rfl⟩
  | _ => rfl

theorem mapPosition_succeeds_iff {f : π → Except ε ρ} {t : VerificationType π} :
    (∃ u, t.mapPosition f = .ok u) ↔ ∀ p ∈ t.positions, ∃ r, f p = .ok r := by
  cases t with
  | uninitialized p =>
    constructor
    · rintro ⟨u, run⟩ p' here
      obtain ⟨r, found, _⟩ := bind_ok_iff.mp run
      exact ⟨r, List.mem_singleton.mp here ▸ found⟩
    · intro each
      obtain ⟨r, found⟩ := each p (List.mem_singleton.mpr rfl)
      exact ⟨_, bind_ok_iff.mpr ⟨r, found, rfl⟩⟩
  | _ => exact ⟨fun _ => nofun, fun _ => ⟨_, rfl⟩⟩

end VerificationType

namespace FrameKind
open VerificationType

def map (f : π → ρ) : FrameKind π → FrameKind ρ
  | .same => .same
  | .sameOneItem t => .sameOneItem (t.map f)
  | .chop n => .chop n
  | .append ls => .append (ls.map (VerificationType.map f))
  | .full ls ss => .full (ls.map (VerificationType.map f)) (ss.map (VerificationType.map f))

def positions : FrameKind π → List π
  | .sameOneItem t => t.positions
  | .append ls => ls.flatMap VerificationType.positions
  | .full ls ss => (ls ++ ss).flatMap VerificationType.positions
  | _ => []

theorem types_map_map (g : ρ → σ) (f : π → ρ) (ts : List (VerificationType π)) :
    (ts.map (VerificationType.map f)).map (VerificationType.map g) =
      ts.map (VerificationType.map fun p => g (f p)) := by
  rw [List.map_map]
  exact List.map_congr_left fun t _ => t.map_map g f

theorem map_map (g : ρ → σ) (f : π → ρ) (k : FrameKind π) :
    (k.map f).map g = k.map (fun p => g (f p)) := by
  cases k with
  | sameOneItem t => exact congrArg sameOneItem (t.map_map g f)
  | append ls => exact congrArg append (types_map_map g f ls)
  | full ls ss => exact congrArg₂ full (types_map_map g f ls) (types_map_map g f ss)
  | _ => rfl

theorem types_map_id (ts : List (VerificationType π)) : ts.map (VerificationType.map id) = ts := by
  rw [List.map_congr_left fun t _ => t.map_id, List.map_id']

@[simp] theorem map_id (k : FrameKind π) : k.map id = k := by
  cases k <;> simp [map, types_map_id]

theorem types_map_congr {f g : π → ρ} {ts : List (VerificationType π)}
    (same : ∀ p ∈ ts.flatMap VerificationType.positions, f p = g p) :
    ts.map (VerificationType.map f) = ts.map (VerificationType.map g) :=
  List.map_congr_left fun _ inside => VerificationType.map_congr fun p here =>
    same p (List.mem_flatMap.mpr ⟨_, inside, here⟩)

theorem map_congr {f g : π → ρ} {k : FrameKind π} (same : ∀ p ∈ k.positions, f p = g p) :
    k.map f = k.map g := by
  cases k with
  | sameOneItem t => exact congrArg sameOneItem (VerificationType.map_congr same)
  | append ls => exact congrArg append (types_map_congr same)
  | full ls ss =>
    simp only [positions, List.flatMap_append, List.mem_append] at same
    exact congrArg₂ full (types_map_congr fun p here => same p (.inl here))
      (types_map_congr fun p here => same p (.inr here))
  | _ => rfl

theorem types_mapM_ok {f : π → Except ε ρ} {g : π → ρ} {ts : List (VerificationType π)}
    (each : ∀ p ∈ ts.flatMap VerificationType.positions, f p = .ok (g p)) :
    ts.mapM (·.mapPosition f) = .ok (ts.map (VerificationType.map g)) :=
  mapM_ok_of_forall fun _ inside => mapPosition_ok fun p here =>
    each p (List.mem_flatMap.mpr ⟨_, inside, here⟩)

theorem positions_map (f : π → ρ) (k : FrameKind π) :
    (k.map f).positions = k.positions.map f := by
  have types : ∀ ts : List (VerificationType π),
      (ts.map (VerificationType.map f)).flatMap VerificationType.positions =
        (ts.flatMap VerificationType.positions).map f := by
    intro ts
    rw [List.flatMap_map, List.map_flatMap]
    exact List.flatMap_congr fun v _ => v.positions_map f
  cases k with
  | sameOneItem v => exact v.positions_map f
  | append ls => exact types ls
  | full ls ss => simp only [map, positions, ← List.map_append, types]
  | _ => rfl

theorem mapPositions_ok {f : π → Except ε ρ} {g : π → ρ} {k : FrameKind π}
    (each : ∀ p ∈ k.positions, f p = .ok (g p)) : k.mapPositions f = .ok (k.map g) := by
  cases k with
  | sameOneItem t => exact bind_ok_iff.mpr ⟨_, mapPosition_ok each, rfl⟩
  | append ls => exact bind_ok_iff.mpr ⟨_, types_mapM_ok each, rfl⟩
  | full ls ss =>
    simp only [positions, List.flatMap_append, List.mem_append] at each
    exact bind_ok_iff.mpr ⟨_, types_mapM_ok fun p here => each p (.inl here),
      bind_ok_iff.mpr ⟨_, types_mapM_ok fun p here => each p (.inr here), rfl⟩⟩
  | _ => rfl

theorem types_succeed_iff {f : π → Except ε ρ} {ts : List (VerificationType π)} :
    (∃ us, ts.mapM (·.mapPosition f) = .ok us) ↔
      ∀ p ∈ ts.flatMap VerificationType.positions, ∃ r, f p = .ok r := by
  constructor
  · rintro ⟨us, run⟩ p here
    obtain ⟨t, inside, here⟩ := List.mem_flatMap.mp here
    obtain ⟨u, _, found⟩ := ok_of_mapM_ok run inside
    exact mapPosition_succeeds_iff.mp ⟨u, found⟩ p here
  · intro each
    exact ok_of_forall fun t inside => mapPosition_succeeds_iff.mpr fun p here =>
      each p (List.mem_flatMap.mpr ⟨t, inside, here⟩)

theorem mapPositions_succeeds_iff {f : π → Except ε ρ} {k : FrameKind π} :
    (∃ k', k.mapPositions f = .ok k') ↔ ∀ p ∈ k.positions, ∃ r, f p = .ok r := by
  cases k with
  | sameOneItem t =>
    rw [positions, ← mapPosition_succeeds_iff]
    constructor
    · rintro ⟨_, run⟩
      obtain ⟨u, found, _⟩ := bind_ok_iff.mp run
      exact ⟨u, found⟩
    · rintro ⟨u, found⟩
      exact ⟨_, bind_ok_iff.mpr ⟨u, found, rfl⟩⟩
  | append ls =>
    rw [positions, ← types_succeed_iff]
    constructor
    · rintro ⟨_, run⟩
      obtain ⟨us, found, _⟩ := bind_ok_iff.mp run
      exact ⟨us, found⟩
    · rintro ⟨us, found⟩
      exact ⟨_, bind_ok_iff.mpr ⟨us, found, rfl⟩⟩
  | full ls ss =>
    simp only [positions, List.flatMap_append, List.mem_append, or_imp, forall_and]
    rw [← types_succeed_iff, ← types_succeed_iff]
    constructor
    · rintro ⟨_, run⟩
      obtain ⟨us, first, run⟩ := bind_ok_iff.mp run
      obtain ⟨vs, second, _⟩ := bind_ok_iff.mp run
      exact ⟨⟨us, first⟩, ⟨vs, second⟩⟩
    · rintro ⟨⟨us, first⟩, ⟨vs, second⟩⟩
      exact ⟨_, bind_ok_iff.mpr ⟨us, first, bind_ok_iff.mpr ⟨vs, second, rfl⟩⟩⟩
  | _ => exact ⟨fun _ => nofun, fun _ => ⟨_, rfl⟩⟩

end FrameKind

namespace Frame

def map (f : π → ρ) (frame : Frame π) : Frame ρ := ⟨f frame.position, frame.kind.map f⟩

def positions (frame : Frame π) : List π := frame.kind.positions ++ [frame.position]

theorem map_map (g : ρ → σ) (f : π → ρ) (frame : Frame π) :
    (frame.map f).map g = frame.map (fun p => g (f p)) := by
  simp only [map, FrameKind.map_map]

@[simp] theorem map_id (frame : Frame π) : frame.map id = frame := by
  simp [map]

theorem map_congr {f g : π → ρ} {frame : Frame π} (same : ∀ p ∈ frame.positions, f p = g p) :
    frame.map f = frame.map g := by
  simp only [positions, List.mem_append, List.mem_singleton] at same
  simp only [map, same frame.position (.inr rfl),
    FrameKind.map_congr fun p here => same p (.inl here)]

theorem positions_map (f : π → ρ) (frame : Frame π) :
    (frame.map f).positions = frame.positions.map f := by
  simp [map, positions, FrameKind.positions_map]

theorem mapPositions_ok {f : π → Except ε ρ} {g : π → ρ} {frame : Frame π}
    (each : ∀ p ∈ frame.positions, f p = .ok (g p)) : frame.mapPositions f = .ok (frame.map g) := by
  simp only [positions, List.mem_append, List.mem_singleton] at each
  exact bind_ok_iff.mpr ⟨_, FrameKind.mapPositions_ok fun p here => each p (.inl here),
    bind_ok_iff.mpr ⟨_, each _ (.inr rfl), rfl⟩⟩

theorem mapPositions_succeeds_iff {f : π → Except ε ρ} {frame : Frame π} :
    (∃ g, frame.mapPositions f = .ok g) ↔ ∀ p ∈ frame.positions, ∃ r, f p = .ok r := by
  simp only [positions, List.mem_append, List.mem_singleton, or_imp, forall_and, forall_eq]
  rw [← FrameKind.mapPositions_succeeds_iff]
  constructor
  · rintro ⟨_, run⟩
    obtain ⟨k, kind, run⟩ := bind_ok_iff.mp run
    obtain ⟨r, own, _⟩ := bind_ok_iff.mp run
    exact ⟨⟨k, kind⟩, ⟨r, own⟩⟩
  · rintro ⟨⟨k, kind⟩, ⟨r, own⟩⟩
    exact ⟨_, bind_ok_iff.mpr ⟨k, kind, bind_ok_iff.mpr ⟨r, own, rfl⟩⟩⟩

end Frame
end ClassHooks
