import ClassHooks.Proofs.Success
import ClassHooks.Instruction.Basic

/-!
Replacing the targets of instructions by a function that cannot fail. A replacement that may fail
agrees with it wherever it has a result.
-/
namespace ClassHooks
namespace Operand

def map (f : τ → σ) : Operand τ → Operand σ
  | .nothing => .nothing
  | .byte v => .byte v
  | .short v => .short v
  | .slot i => .slot i
  | .constant i => .constant i
  | .increment i d => .increment i d
  | .branch t => .branch (f t)
  | .tableSwitch d low high ts => .tableSwitch (f d) low high (ts.map f)
  | .lookupSwitch d ps => .lookupSwitch (f d) (ps.map fun p => (p.1, f p.2))
  | .interfaceCall i n => .interfaceCall i n
  | .dynamicCall i => .dynamicCall i
  | .arrayType a => .arrayType a
  | .multiArray i n => .multiArray i n

theorem targets_map (f : τ → σ) (o : Operand τ) : (o.map f).targets = o.targets.map f := by
  cases o <;> simp [map, targets]

theorem map_map (g : σ → ρ) (f : τ → σ) (o : Operand τ) :
    (o.map f).map g = o.map (fun t => g (f t)) := by
  cases o <;> simp [map]

theorem map_congr {f g : τ → σ} {o : Operand τ} (same : ∀ t ∈ o.targets, f t = g t) :
    o.map f = o.map g := by
  cases o with
  | branch t => simpa [map, targets] using same
  | tableSwitch d low high ts => simpa [map, targets] using same
  | lookupSwitch d ps =>
    simp only [targets, List.mem_cons, List.mem_map, forall_eq_or_imp,
      forall_exists_index, and_imp, forall_apply_eq_imp_iff₂] at same
    simpa [map, same.1] using same.2
  | _ => rfl

theorem fits_map (f : τ → σ) (o : Operand τ) (shape : Shape) :
    (o.map f).fits shape = o.fits shape := by
  cases o <;> cases shape <;> simp [map, fits]

theorem mapTargets_ok {f : τ → Except ε σ} {g : τ → σ} {o : Operand τ}
    (each : ∀ t ∈ o.targets, f t = .ok (g t)) : o.mapTargets f = .ok (o.map g) := by
  cases o with
  | branch t => simpa [mapTargets, map, targets, map_ok_iff] using each
  | tableSwitch d low high ts =>
    have first := each d (by simp [targets])
    have rest : ts.mapM f = .ok (ts.map g) :=
      mapM_ok_of_forall fun t ht => each t (by simp [targets, ht])
    simp only [mapTargets, bind_ok_iff]
    exact ⟨_, first, _, rest, rfl⟩
  | lookupSwitch d ps =>
    have first := each d (by simp [targets])
    have pair : ∀ p ∈ ps, (do return (p.1, ← f p.2) : Except ε (Int32 × σ)) = .ok (p.1, g p.2) := by
      intro p hp
      have here := each p.2 (by simp only [targets, List.mem_cons, List.mem_map]; grind)
      exact bind_ok_iff.mpr ⟨_, here, rfl⟩
    have rest := mapM_ok_of_forall pair
    simp only [mapTargets, bind_ok_iff]
    exact ⟨_, first, _, rest, rfl⟩
  | _ => rfl

theorem target_ok_of_mapTargets {f : τ → Except ε σ} {o : Operand τ} {mapped : Operand σ}
    (whole : o.mapTargets f = .ok mapped) : ∀ t ∈ o.targets, ∃ s, f t = .ok s := by
  intro t ht
  cases o with
  | branch t' =>
    obtain ⟨s, first, _⟩ := bind_ok_iff.mp whole
    simp only [targets, List.mem_singleton] at ht
    exact ⟨s, ht ▸ first⟩
  | tableSwitch d low high ts =>
    obtain ⟨s, first, whole⟩ := bind_ok_iff.mp whole
    obtain ⟨ss, rest, _⟩ := bind_ok_iff.mp whole
    simp only [targets, List.mem_cons] at ht
    rcases ht with rfl | ht
    · exact ⟨s, first⟩
    · obtain ⟨s', _, here⟩ := ok_of_mapM_ok rest ht
      exact ⟨s', here⟩
  | lookupSwitch d ps =>
    obtain ⟨s, first, whole⟩ := bind_ok_iff.mp whole
    obtain ⟨ss, rest, _⟩ := bind_ok_iff.mp whole
    simp only [targets, List.mem_cons, List.mem_map] at ht
    rcases ht with rfl | ⟨p, hp, rfl⟩
    · exact ⟨s, first⟩
    · obtain ⟨p', _, here⟩ := ok_of_mapM_ok rest hp
      obtain ⟨s', here, _⟩ := bind_ok_iff.mp here
      exact ⟨s', here⟩
  | _ => simp [targets] at ht

theorem error_of_mapTargets {f : τ → Except ε σ} {o : Operand τ} {e : ε}
    (failed : o.mapTargets f = .error e) : ∃ t ∈ o.targets, f t = .error e := by
  cases o with
  | branch t =>
    rcases bind_error_iff.mp failed with first | ⟨_, _, done⟩
    · exact ⟨t, by simp [targets], first⟩
    · cases done
  | tableSwitch d low high ts =>
    rcases bind_error_iff.mp failed with first | ⟨_, _, failed⟩
    · exact ⟨d, by simp [targets], first⟩
    · rcases bind_error_iff.mp failed with rest | ⟨_, _, done⟩
      · obtain ⟨t, member, here⟩ := error_of_mapM rest
        exact ⟨t, by simp [targets, member], here⟩
      · cases done
  | lookupSwitch d ps =>
    rcases bind_error_iff.mp failed with first | ⟨_, _, failed⟩
    · exact ⟨d, by simp [targets], first⟩
    · rcases bind_error_iff.mp failed with rest | ⟨_, _, done⟩
      · obtain ⟨p, member, here⟩ := error_of_mapM rest
        rcases bind_error_iff.mp here with here | ⟨_, _, done⟩
        · exact ⟨p.2, List.mem_cons_of_mem _ (List.mem_map_of_mem member), here⟩
        · cases done
      · cases done
  | _ => cases failed

theorem eq_map_of_mapTargets {f : τ → Except ε σ} {g : τ → σ} {o : Operand τ}
    {mapped : Operand σ} (agree : ∀ t ∈ o.targets, ∀ s, f t = .ok s → g t = s)
    (whole : o.mapTargets f = .ok mapped) : mapped = o.map g := by
  have each : ∀ t ∈ o.targets, f t = .ok (g t) := by
    intro t ht
    obtain ⟨s, ok⟩ := target_ok_of_mapTargets whole t ht
    rw [ok, agree t ht s ok]
  exact Except.ok.inj (whole.symm.trans (mapTargets_ok each))

end Operand

namespace Instruction

def map (f : τ → σ) (i : Instruction τ) : Instruction σ := ⟨i.opcode, i.operand.map f⟩

@[simp] theorem map_operand (f : τ → σ) (i : Instruction τ) :
    (i.map f).operand = i.operand.map f := rfl

theorem targets_map (f : τ → σ) (i : Instruction τ) : (i.map f).targets = i.targets.map f :=
  i.operand.targets_map f

theorem map_map (g : σ → ρ) (f : τ → σ) (i : Instruction τ) :
    (i.map f).map g = i.map (fun t => g (f t)) := by
  simp [map, Operand.map_map]

theorem map_congr {f g : τ → σ} {i : Instruction τ} (same : ∀ t ∈ i.targets, f t = g t) :
    i.map f = i.map g := by
  rw [map, map, Operand.map_congr same]

theorem mapTargets_ok {f : τ → Except ε σ} {g : τ → σ} {i : Instruction τ}
    (each : ∀ t ∈ i.targets, f t = .ok (g t)) : i.mapTargets f = .ok (i.map g) :=
  bind_ok_iff.mpr ⟨_, Operand.mapTargets_ok each, rfl⟩

theorem target_ok_of_mapTargets {f : τ → Except ε σ} {i : Instruction τ}
    {mapped : Instruction σ} (whole : i.mapTargets f = .ok mapped) :
    ∀ t ∈ i.targets, ∃ s, f t = .ok s := by
  obtain ⟨operand, ok, _⟩ := bind_ok_iff.mp whole
  exact Operand.target_ok_of_mapTargets ok

theorem error_of_mapTargets {f : τ → Except ε σ} {i : Instruction τ} {e : ε}
    (failed : i.mapTargets f = .error e) : ∃ t ∈ i.targets, f t = .error e := by
  rcases bind_error_iff.mp failed with operand | ⟨_, _, done⟩
  · exact Operand.error_of_mapTargets operand
  · cases done

theorem isReturn_of_mapTargets {f : τ → Except ε σ} {i : Instruction τ} {mapped : Instruction σ}
    (whole : i.mapTargets f = .ok mapped) : mapped.isReturn = i.isReturn := by
  obtain ⟨operand, _, made⟩ := bind_ok_iff.mp whole
  cases made
  rfl

theorem eq_map_of_mapTargets {f : τ → Except ε σ} {g : τ → σ} {i : Instruction τ}
    {mapped : Instruction σ} (agree : ∀ t ∈ i.targets, ∀ s, f t = .ok s → g t = s)
    (whole : i.mapTargets f = .ok mapped) : mapped = i.map g := by
  obtain ⟨operand, ok, made⟩ := bind_ok_iff.mp whole
  rw [← pure_ok_iff.mp made, Operand.eq_map_of_mapTargets agree ok]
  rfl

end Instruction
end ClassHooks
