import ClassHooks.Proofs.Weaving.Control
import ClassHooks.Hook.Callback

/-!
Weaving keeps the paths of a method: each is still there with the hooks around it. The woven body has
no others as long as no hook throws, if no hook names a place in the code.
-/
namespace ClassHooks
namespace Interleaving
variable (w : Interleaving)

def moves (move : Move τ) : List (Move τ) :=
  Move.line (w.begin move.place) (w.lead move.place) ++ [⟨w.place move.place, move.thrown⟩]

def ending : Option τ → List (Move τ)
  | none => []
  | some t => Move.line w.finish w.error.length ++ [⟨w.rethrow, some t⟩]

/-- A path of the method in the woven body: the enter hook, the moves with the return hook before
every return, and the ending. -/
def weave (path : List (Move τ)) (outcome : Option τ) : List (Move τ) :=
  Move.line 0 w.enter.length ++ (path.flatMap w.moves ++ w.ending outcome)

def Quiet (path : List (Move τ)) : Prop :=
  ∀ move ∈ path, w.InHook move.place → move.thrown = none

end Interleaving

namespace Weaving
section Paths
variable {b woven : Body} {w : Interleaving} {catches : UInt16 → τ → Prop}
  (shape : Woven b w woven) (straight : w.Straight)
include shape straight

theorem walk_hook (p count : Nat) (hook : ∀ q, p ≤ q → q < p + count → w.InHook q) :
    woven.Walk catches p (Move.line p count) (p + count) :=
  Body.walk_line fun q after before => step_hook shape straight (hook q after before)

theorem walk_enter : woven.Walk catches 0 (Move.line 0 w.enter.length) (w.begin 0) := by
  have walk : woven.Walk catches 0 (Move.line 0 w.enter.length) (0 + w.enter.length) :=
    walk_hook shape straight 0 w.enter.length fun q _ before => .enter (by omega)
  rwa [Nat.zero_add, ← w.begin_zero] at walk

theorem walk_lead {k : Nat} (inside : k < w.original.length) :
    woven.Walk catches (w.begin k) (Move.line (w.begin k) (w.lead k)) (w.place k) :=
  walk_hook shape straight _ _ fun _ after before => .exit inside after before

theorem walk_error :
    woven.Walk catches w.finish (Move.line w.finish w.error.length) w.rethrow :=
  walk_hook shape straight _ _ fun _ after before => .error after before

theorem run_error (t : τ) : woven.Run catches w.finish (w.ending (some t)) (some t) :=
  Body.run_of_walk (walk_error shape straight) (.leave
    (leaves_outside shape (.inr w.finish_le_rethrow) (Nat.lt_succ_self _) t))

/-- Every path of the method is a path of the woven body. -/
theorem run_moves {k : Nat} {path : List (Move τ)} {outcome : Option τ}
    (run : b.Run catches k path outcome) :
    woven.Run catches (w.begin k) (path.flatMap w.moves ++ w.ending outcome) outcome := by
  have here : ∀ {n : Nat}, n < b.instructions.length → n < w.original.length := by
    intro n inside
    rwa [shape.original]
  induction run with
  | @leave n outcome leaves =>
    rw [List.flatMap_singleton, Interleaving.moves, List.append_assoc]
    cases outcome with
    | none =>
      have inside : n < b.instructions.length := by
        cases leaves with
        | returned here _ => exact (List.getElem?_eq_some_iff.mp here).1
      exact Body.run_of_walk (walk_lead shape straight (here inside))
        (.leave (leaves_place shape leaves))
    | some t =>
      have inside : n < b.instructions.length := by
        cases leaves with
        | thrown here _ => exact here
      exact Body.run_of_walk (walk_lead shape straight (here inside))
        (.move (step_escapes shape leaves) (run_error shape straight t))
  | @move n m thrown outcome path step _ ih =>
    have inside : n < b.instructions.length := by
      cases step with
      | next here _ _ | jump here _ _ _ => exact (List.getElem?_eq_some_iff.mp here).1
      | caught here _ _ _ => exact here
    rw [List.flatMap_cons, Interleaving.moves, List.append_assoc, List.append_assoc]
    exact Body.run_of_walk (walk_lead shape straight (here inside))
      (.move (step_place shape step) ih)

section Back
variable (names : w.NamesNothing)
include names

/-- Control that enters a hook in which nothing is thrown runs it to its end. -/
theorem run_hook_inv (p count : Nat) (hook : ∀ q, p ≤ q → q < p + count → w.InHook q)
    {path : List (Move τ)} {outcome : Option τ} (run : woven.Run catches p path outcome)
    (quiet : w.Quiet path) :
    ∃ rest, path = Move.line p count ++ rest ∧ woven.Run catches (p + count) rest outcome ∧
      w.Quiet rest := by
  induction count generalizing p path with
  | zero => exact ⟨path, rfl, run, quiet⟩
  | succ count ih =>
    have here := hook p (Nat.le_refl p) (by omega)
    cases run with
    | leave leaves =>
      obtain rfl : outcome = none := quiet ⟨p, outcome⟩ (by simp) here
      exact absurd leaves (not_returned_hook shape straight here)
    | @move _ m thrown _ path step later =>
      obtain rfl : thrown = none := quiet ⟨p, thrown⟩ (by simp) here
      obtain rfl := step_hook_inv shape names here step
      obtain ⟨rest, rfl, run, quiet⟩ := ih (p + 1)
        (fun q after before => hook q (by omega) (by omega)) later
        fun move member => quiet move (List.mem_cons_of_mem _ member)
      rw [Nat.add_assoc, Nat.add_comm 1] at run
      exact ⟨rest, rfl, run, quiet⟩

theorem run_error_inv {path : List (Move τ)} {outcome : Option τ}
    (run : woven.Run catches w.finish path outcome) (quiet : w.Quiet path) :
    path = w.ending outcome ∧ ∃ t, outcome = some t := by
  obtain ⟨rest, rfl, last, _⟩ := run_hook_inv shape straight names w.finish w.error.length
    (fun q after before => .error after before) run quiet
  cases last with
  | leave leaves =>
    obtain ⟨t, rfl⟩ := leaves_rethrow_inv shape leaves
    exact ⟨rfl, t, rfl⟩
  | move step _ => exact absurd step (not_step_rethrow shape)

/-- The woven body has no other paths, unless a hook throws. -/
theorem run_moves_inv (sound : b.Sound)
    (ends : ∀ i, b.instructions.getLast? = some i → i.isTerminal = true) {k : Nat}
    (inside : k < w.original.length) {path : List (Move τ)} {outcome : Option τ}
    (run : woven.Run catches (w.begin k) path outcome) (quiet : w.Quiet path) :
    ∃ before outcome', b.Run catches k before outcome' ∧
      path = before.flatMap w.moves ++ w.ending outcome ∧
      (outcome = none ↔ outcome' = none) := by
  -- An instruction of the method is a stretch of moves here, so a shorter path is not always one
  -- move shorter.
  induction size : path.length using Nat.strongRecOn generalizing k path with
  | ind n ih =>
    obtain ⟨rest, rfl, atPlace, quiet'⟩ := run_hook_inv shape straight names (w.begin k) (w.lead k)
      (fun q after before => .exit inside after before) run quiet
    change woven.Run catches (w.place k) rest outcome at atPlace
    cases atPlace with
    | leave leaves =>
      obtain ⟨rfl, left⟩ := leaves_place_inv shape inside leaves
      refine ⟨[⟨k, none⟩], none, .leave left, ?_, Iff.rfl⟩
      rw [List.flatMap_singleton]
      exact (List.append_nil _).symm
    | @move _ m thrown _ path step later =>
      have calm : w.Quiet path := fun move member => quiet' move (List.mem_cons_of_mem _ member)
      rcases step_place_inv shape sound ends inside step with
        ⟨m', rfl, inside', stepped⟩ | ⟨t, rfl, rfl, left⟩
      · obtain ⟨before, outcome', ran, rfl, same⟩ := ih path.length
          (by simp only [List.length_append, List.length_cons] at size; omega) inside' later calm rfl
        refine ⟨⟨k, thrown⟩ :: before, outcome', .move stepped ran, ?_, same⟩
        rw [List.flatMap_cons, Interleaving.moves, List.append_assoc, List.append_assoc]
        rfl
      · obtain ⟨rfl, t', rfl⟩ := run_error_inv shape straight names later calm
        refine ⟨[⟨k, some t⟩], some t, .leave left, ?_, by simp⟩
        rw [List.flatMap_singleton, Interleaving.moves, List.append_assoc]
        rfl

end Back
end Paths

/-- The woven body has the paths of the method, with the hooks where they belong. -/
structure KeepsPaths (catches : UInt16 → τ → Prop) (b : Body) (w : Interleaving) (woven : Body) :
    Prop where
  code : woven.instructions = w.instructions
  forth : ∀ path outcome, b.Run catches 0 path outcome →
    woven.Run catches 0 (w.weave path outcome) outcome

/-- Every path of the woven body on which no hook throws is one of the method, with the hooks where
they belong. -/
def NoOtherPaths (catches : UInt16 → τ → Prop) (b : Body) (w : Interleaving) (woven : Body) : Prop :=
  ∀ path outcome, woven.Run catches 0 path outcome → w.Quiet path →
    ∃ before outcome', b.Run catches 0 before outcome' ∧ path = w.weave before outcome ∧
      (outcome = none ↔ outcome' = none)

section Kept
variable {b woven : Body} {w : Interleaving} (shape : Woven b w woven) (straight : w.Straight)
include shape straight

theorem keepsPaths_of_woven (catches : UInt16 → τ → Prop) : KeepsPaths catches b w woven :=
  ⟨shape.code, fun _ _ run =>
    Body.run_of_walk (walk_enter shape straight) (run_moves shape straight run)⟩

theorem noOtherPaths_of_woven (names : w.NamesNothing) (sound : b.Sound)
    (ends : ∀ i, b.instructions.getLast? = some i → i.isTerminal = true)
    (catches : UInt16 → τ → Prop) : NoOtherPaths catches b w woven := by
  intro path outcome run quiet
  obtain ⟨rest, rfl, later, calm⟩ := run_hook_inv shape straight names 0 w.enter.length
    (fun q _ before => .enter (by omega)) run quiet
  rw [Nat.zero_add, ← w.begin_zero] at later
  have inside : 0 < w.original.length := by
    rw [shape.original]
    exact sound.filled
  obtain ⟨before, outcome', ran, rfl, same⟩ :=
    run_moves_inv shape straight names sound ends inside later calm
  exact ⟨before, outcome', ran, rfl, same⟩

end Kept

/-- Weaving keeps the paths of a method, and adds no others if its hooks name no place. -/
theorem weave_keeps_paths {c : CodeAttribute} {pool : Pool} {b : Body}
    (made : Body.ofCode c pool = .ok b)
    (ends : ∀ i, b.instructions.getLast? = some i → i.isTerminal = true)
    {chain : Chain} {requireFrames : Bool} {method : MethodName} {p p' : Pool}
    {woven : WovenMethod} (run : b.weave chain requireFrames method p = .ok woven p')
    (catches : UInt16 → τ → Prop) :
    ∃ descriptor enter exit error p₁, MethodDescriptor.parse method.descriptor = .ok descriptor ∧
      Emits chain method descriptor.returnType b.returnCount p enter exit error p₁ ∧
      KeepsPaths catches b (interleaving b enter exit error) woven.body ∧
      ((interleaving b enter exit error).NamesNothing →
        NoOtherPaths catches b (interleaving b enter exit error) woven.body) := by
  have sound := Body.sound_of_ofCode made
  obtain ⟨enter, exit, error, whole⟩ := made_of_weave run
  obtain ⟨descriptor, p₁, _, parsed, emits, _⟩ := whole.emits
  have shape := woven_of_made sound whole
  have straight : (interleaving b enter exit error).Straight := straight_of_emits emits
  exact ⟨descriptor, enter, exit, error, p₁, parsed, emits,
    keepsPaths_of_woven shape straight catches,
    fun names => noOtherPaths_of_woven shape straight names sound ends catches⟩

def twoReturns : CodeAttribute := ⟨1, 1, [0x03, 0x99, 0, 4, 0xB1, 0xB1], [⟨0, 5, 5, 0⟩], []⟩

def reporting : Chain := ⟨[(Callback.ofClass "R").policy], by simp⟩

theorem twoReturns_weaves : ∃ b woven p', Body.ofCode twoReturns Pool.empty = .ok b ∧
    (∀ i, b.instructions.getLast? = some i → i.isTerminal = true) ∧
    b.weave reporting false ⟨"A", "m", "()V"⟩ Pool.empty = .ok woven p' := by
  have accepted : (Body.ofCode twoReturns Pool.empty).toOption.isSome = true := by decide +kernel
  have closed : (Body.ofCode twoReturns Pool.empty).toOption.any (fun b =>
      b.instructions.getLast?.all Instruction.isTerminal) = true := by decide +kernel
  have weaves : (Body.ofCode twoReturns Pool.empty).toOption.any (fun b =>
      succeeds (b.weave reporting false ⟨"A", "m", "()V"⟩) Pool.empty) = true := by decide +kernel
  obtain ⟨b, made⟩ := ok_of_isSome accepted
  rw [made] at closed weaves
  obtain ⟨woven, p', run⟩ : ∃ woven p', b.weave reporting false ⟨"A", "m", "()V"⟩ Pool.empty =
      .ok woven p' := ok_of_succeeds weaves
  have ends : ∀ i, b.instructions.getLast? = some i → i.isTerminal = true := by
    intro i last
    change b.instructions.getLast?.all Instruction.isTerminal = true at closed
    rwa [last] at closed
  exact ⟨b, woven, p', made, ends, run⟩

theorem twoReturns_keeps_paths : ∃ b woven p', Body.ofCode twoReturns Pool.empty = .ok b ∧
    b.weave reporting false ⟨"A", "m", "()V"⟩ Pool.empty = .ok woven p' ∧
    ∃ enter exit error, (interleaving b enter exit error).NamesNothing ∧
      KeepsPaths (fun c (t : UInt16) => c = t) b (interleaving b enter exit error) woven.body ∧
      NoOtherPaths (fun c (t : UInt16) => c = t) b (interleaving b enter exit error) woven.body := by
  obtain ⟨b, woven, p', made, ends, run⟩ := twoReturns_weaves
  obtain ⟨_, enter, exit, error, _, _, emits, keeps, noOthers⟩ :=
    weave_keeps_paths made ends run fun c (t : UInt16) => c = t
  have names : (interleaving b enter exit error).NamesNothing :=
    names_nothing_of_emits (callbacks_name_nothing (by simp [reporting])) emits
  exact ⟨b, woven, p', made, run, enter, exit, error, names, keeps, noOthers names⟩

/-- A return hook of two instructions that do nothing, of which the first names the label behind
the second. The operand does not fit its opcode, which only encoding would find. -/
def skippingPolicy : Policy := ⟨"p", fun site =>
  match site.event with
  | .return => .ofOperations [.raw ⟨0, .branch ⟨4⟩⟩ [] [], .raw (.plain 0) [] []]
  | _ => .done⟩

def skipping : Chain := ⟨[skippingPolicy], by simp⟩

def soleReturn : CodeAttribute := ⟨0, 1, [0xB1], [], []⟩

def skippedItems : List Item :=
  [.mark ⟨0⟩, .mark ⟨3⟩, .op ⟨0, .branch ⟨4⟩⟩, .op (.plain 0), .mark ⟨4⟩, .op (.plain 0xB1),
    .mark ⟨1⟩, .mark ⟨2⟩, .op (.plain Opcode.athrow)]

theorem skipped_run {woven : Body} (items : woven.items = skippedItems)
    (catches : UInt16 → τ → Prop) : woven.Run catches 0 [⟨0, none⟩, ⟨2, none⟩] none := by
  have code : woven.instructions = Item.code skippedItems := by rw [← items]; rfl
  have marks : Item.Marks woven.items ⟨4⟩ 2 := by
    rw [items]
    exact .pastMark (.pastMark (.pastOp (.pastOp .here)))
  have target : (⟨4⟩ : Label) ∈ Instruction.targets ⟨0, .branch ⟨4⟩⟩ := List.mem_cons_self ..
  have first : woven.instructions[0]? = some ⟨0, .branch ⟨4⟩⟩ := by
    rw [code]
    rfl
  have last : woven.instructions[2]? = some (.plain 0xB1) := by
    rw [code]
    rfl
  have inside : 2 < woven.instructions.length := (List.getElem?_eq_some_iff.mp last).1
  exact .move (.jump first target marks inside) (.leave (.returned last rfl))

theorem skipping_weaves : ∃ b woven p', Body.ofCode soleReturn Pool.empty = .ok b ∧
    b.instructions = [.plain 0xB1] ∧
    b.weave skipping false ⟨"A", "m", "()V"⟩ Pool.empty = .ok woven p' ∧
    woven.body.items = skippedItems := by
  have accepted : (Body.ofCode soleReturn Pool.empty).toOption.any (fun b =>
      b.instructions = [.plain 0xB1]) = true := by decide +kernel
  have weaves : (Body.ofCode soleReturn Pool.empty).toOption.any (fun b =>
      succeeds (b.weave skipping false ⟨"A", "m", "()V"⟩) Pool.empty) = true := by decide +kernel
  have made : (Body.ofCode soleReturn Pool.empty).toOption.all (fun b =>
      match b.weave skipping false ⟨"A", "m", "()V"⟩ Pool.empty with
      | .ok woven _ => woven.body.items = skippedItems
      | .error _ _ => true) = true := by decide +kernel
  obtain ⟨b, read⟩ := ok_of_isSome (Option.isSome_of_any accepted)
  rw [read] at accepted weaves made
  obtain ⟨woven, p', run⟩ : ∃ woven p', b.weave skipping false ⟨"A", "m", "()V"⟩ Pool.empty =
      .ok woven p' := ok_of_succeeds weaves
  change (match b.weave skipping false ⟨"A", "m", "()V"⟩ Pool.empty with
      | .ok woven _ => decide (woven.body.items = skippedItems)
      | .error _ _ => true) = true at made
  rw [run] at made
  exact ⟨b, woven, p', read, of_decide_eq_true accepted, run, of_decide_eq_true made⟩

theorem not_skipped (w : Interleaving) (before : List (Move τ)) :
    Move.line 0 w.enter.length ++ (before ++ w.moves ⟨0, none⟩) ≠ [⟨0, none⟩, ⟨2, none⟩] := by
  intro same
  have last : w.place 0 = 2 := by
    have moves := congrArg (List.getLast? ·) same
    simpa [Interleaving.moves] using moves
  have length := congrArg List.length same
  simp only [Interleaving.moves, Interleaving.place, Interleaving.begin, Instruction.shift_zero,
    Move.line, List.length_append, List.length_map, List.length_range', List.length_cons,
    List.length_nil] at length last
  omega

/-- A hook that names a place can be left before its end, though nothing is thrown. -/
theorem skipping_leaves_path : ∃ b woven p', Body.ofCode soleReturn Pool.empty = .ok b ∧
    (∀ i, b.instructions.getLast? = some i → i.isTerminal = true) ∧
    b.weave skipping false ⟨"A", "m", "()V"⟩ Pool.empty = .ok woven p' ∧
    ∀ enter exit error, ¬ NoOtherPaths (fun _ (_ : Unit) => True) b
      (interleaving b enter exit error) woven.body := by
  obtain ⟨b, woven, p', read, code, run, items⟩ := skipping_weaves
  refine ⟨b, woven, p', read, ?_, run, fun enter exit error noOthers => ?_⟩
  · intro i last
    rw [code] at last
    cases last
    rfl
  · have quiet : (interleaving b enter exit error).Quiet
        ([⟨0, none⟩, ⟨2, none⟩] : List (Move Unit)) := by
      intro move member _
      simp only [List.mem_cons, List.not_mem_nil, or_false] at member
      rcases member with rfl | rfl <;> rfl
    obtain ⟨before, outcome, ran, same, returns⟩ := noOthers _ none (skipped_run items _) quiet
    obtain rfl : outcome = none := returns.mp rfl
    obtain ⟨trace, n, rfl, _, leaves⟩ := Body.walk_of_run ran
    have first : n = 0 := by
      cases leaves with
      | returned here _ =>
        have inside := (List.getElem?_eq_some_iff.mp here).1
        rw [code] at inside
        exact Nat.lt_one_iff.mp inside
    rw [first, Interleaving.weave, Interleaving.ending, List.append_nil, List.flatMap_append,
      List.flatMap_singleton] at same
    exact not_skipped _ _ same.symm

end Weaving
end ClassHooks
