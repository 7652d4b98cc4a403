import ClassHooks.Proofs.Files.Following
import Mathlib.Data.List.DropRight

/-!
Spellings of paths. The components of a path fix its segments but for the blank ones; joining,
going up and going below another path are told by the components.
-/
namespace ClassHooks
namespace Path

theorem innerComponent_name {s : String} (name : isName s = true) :
    innerComponent s = some (.normal s) := by
  obtain ⟨full, here, up⟩ := isName_iff.mp name
  rw [innerComponent, if_neg (by simp [full, here]), if_neg up]

theorem innerComponent_blank {s : String} (blank : s = "" ∨ s = ".") : innerComponent s = none :=
  if_pos blank

theorem innerComponent_up : innerComponent ".." = some .parent := by
  simp [innerComponent]

theorem name_of_innerComponent {s n : String} (normal : innerComponent s = some (.normal n)) :
    s = n ∧ isName s = true := by
  rcases FileTree.segment_cases s with blank | rfl | name
  · rw [innerComponent_blank blank] at normal
    cases normal
  · rw [innerComponent_up] at normal
    cases normal
  · rw [innerComponent_name name] at normal
    cases normal
    exact ⟨rfl, name⟩

theorem firstComponent_of_ne {s : String} (ne : s ≠ ".") : firstComponent s = innerComponent s :=
  if_neg ne

theorem firstComponent_current : firstComponent "." = some .current := if_pos rfl

def trace (steps : List (String × Option Component)) : List Component := steps.filterMap (·.2)

theorem trace_append (xs ys : List (String × Option Component)) :
    trace (xs ++ ys) = trace xs ++ trace ys := List.filterMap_append ..

theorem components_eq (p : Path) :
    p.components = (if p.absolute then [.root] else []) ++ trace p.steps := rfl

theorem map_steps (p : Path) : p.steps.map (·.1) = p.segments := by
  obtain ⟨absolute, segments⟩ := p
  unfold steps
  cases absolute <;> cases segments <;> simp [Function.comp_def]

theorem steps_absolute (segments : List String) :
    steps ⟨true, segments⟩ = segments.map fun s => (s, innerComponent s) := by
  unfold steps
  cases segments <;> rfl

theorem steps_cons (first : String) (rest : List String) :
    steps ⟨false, first :: rest⟩ =
      (first, firstComponent first) :: rest.map fun s => (s, innerComponent s) := rfl

theorem steps_of_first {p : Path} {S : List (String × Option Component)} (first : S <+: p.steps) :
    steps ⟨p.absolute, S.map (·.1)⟩ = S := by
  obtain ⟨absolute, segments⟩ := p
  obtain ⟨rest, whole⟩ := first
  cases absolute with
  | true =>
    rw [steps_absolute] at whole ⊢
    have each : ∀ step ∈ S, (step.1, innerComponent step.1) = step := by
      intro step member
      have inside : step ∈ S ++ rest := List.mem_append_left _ member
      rw [whole] at inside
      obtain ⟨s, _, rfl⟩ := List.mem_map.mp inside
      rfl
    rw [List.map_map]
    exact (List.map_congr_left each).trans (List.map_id' S)
  | false =>
    cases S with
    | nil => rfl
    | cons step S =>
      cases segments with
      | nil => cases whole
      | cons s segments =>
        rw [steps_cons, List.cons_append, List.cons.injEq] at whole
        obtain ⟨rfl, tail⟩ := whole
        rw [List.map_cons, steps_cons, List.map_map]
        have each : ∀ step ∈ S, (step.1, innerComponent step.1) = step := by
          intro step member
          have inside : step ∈ S ++ rest := List.mem_append_left _ member
          rw [tail] at inside
          obtain ⟨s, _, rfl⟩ := List.mem_map.mp inside
          rfl
        exact congrArg _ ((List.map_congr_left each).trans (List.map_id' S))

def significant (segments : List String) : List String := segments.filter fun s => s ≠ "" && s ≠ "."

theorem significant_blank {s : String} (blank : s = "" ∨ s = ".") (rest : List String) :
    significant (s :: rest) = significant rest := by
  refine List.filter_cons_of_neg ?_
  rcases blank with rfl | rfl <;> simp

theorem significant_cons {s : String} (full : ¬ (s = "" ∨ s = ".")) (rest : List String) :
    significant (s :: rest) = s :: significant rest := by
  refine List.filter_cons_of_pos ?_
  simpa [not_or] using full

theorem significant_level {segments : List String} (level : ".." ∉ segments) :
    significant segments = FileTree.namesOf segments := by
  refine List.filter_congr fun s member => ?_
  have up : s ≠ ".." := fun same => level (same ▸ member)
  simp [isName, up]

theorem level_of_significant {segments : List String} (level : ".." ∉ significant segments) :
    ".." ∉ segments := fun member => level (List.mem_filter.mpr ⟨member, by simp⟩)

def segment? : Component → Option String
  | .normal name => some name
  | .parent => some ".."
  | .root | .current => none

theorem segment_innerComponent (s : String) :
    (innerComponent s).bind segment? = if s = "" ∨ s = "." then none else some s := by
  rcases FileTree.segment_cases s with blank | rfl | name
  · rw [innerComponent_blank blank, if_pos blank]
    rfl
  · rw [innerComponent_up, if_neg (by simp)]
    rfl
  · obtain ⟨full, here, _⟩ := isName_iff.mp name
    rw [innerComponent_name name, if_neg (by simp [full, here])]
    rfl

theorem segment_firstComponent (s : String) :
    (firstComponent s).bind segment? = if s = "" ∨ s = "." then none else some s := by
  by_cases current : s = "."
  · subst current
    rw [firstComponent_current, if_pos (.inr rfl)]
    rfl
  · rw [firstComponent_of_ne current, segment_innerComponent]

theorem filterMap_inner (segments : List String) :
    (segments.filterMap innerComponent).filterMap segment? = significant segments := by
  rw [List.filterMap_filterMap]
  induction segments with
  | nil => rfl
  | cons s rest ih =>
    rw [List.filterMap_cons, segment_innerComponent, ih]
    by_cases blank : s = "" ∨ s = "."
    · rw [if_pos blank, significant_blank blank]
    · rw [if_neg blank, significant_cons blank]

theorem trace_inner (segments : List String) :
    trace (segments.map fun s => (s, innerComponent s)) = segments.filterMap innerComponent := by
  unfold trace
  rw [List.filterMap_map]
  rfl

theorem significant_segments (p : Path) :
    significant p.segments = p.components.filterMap segment? := by
  obtain ⟨absolute, segments⟩ := p
  rw [components_eq, List.filterMap_append]
  cases absolute with
  | true =>
    rw [steps_absolute, trace_inner, filterMap_inner]
    rfl
  | false =>
    cases segments with
    | nil => rfl
    | cons s rest =>
      rw [steps_cons]
      change significant (s :: rest) =
        List.filterMap segment? (List.filterMap (·.2) ((s, firstComponent s) :: _))
      have tail : List.filterMap segment? (List.filterMap (·.2)
          (rest.map fun s => (s, innerComponent s))) = significant rest := by
        rw [← filterMap_inner, ← trace_inner]
        rfl
      rw [List.filterMap_filterMap, List.filterMap_cons, ← List.filterMap_filterMap, tail,
        segment_firstComponent]
      by_cases blank : s = "" ∨ s = "."
      · rw [if_pos blank, significant_blank blank]
      · rw [if_neg blank, significant_cons blank]

theorem innerComponent_ne_root (s : String) : innerComponent s ≠ some .root := by
  rcases FileTree.segment_cases s with blank | rfl | name
  · rw [innerComponent_blank blank]
    nofun
  · rw [innerComponent_up]
    nofun
  · rw [innerComponent_name name]
    nofun

theorem root_mem_components {p : Path} : .root ∈ p.components ↔ p.absolute = true := by
  obtain ⟨absolute, segments⟩ := p
  have inner : ∀ segments : List String, .root ∉ segments.filterMap innerComponent := by
    intro segments member
    obtain ⟨s, _, root⟩ := List.mem_filterMap.mp member
    exact innerComponent_ne_root s root
  rw [components_eq]
  cases absolute with
  | true => simp
  | false =>
    cases segments with
    | nil => simp [steps, trace]
    | cons s rest =>
      have first : firstComponent s ≠ some .root := by
        by_cases current : s = "."
        · subst current
          rw [firstComponent_current]
          nofun
        · rw [firstComponent_of_ne current]
          exact innerComponent_ne_root s
      have tail : .root ∉ trace (rest.map fun s => (s, innerComponent s)) := by
        rw [trace_inner]
        exact inner rest
      rw [steps_cons]
      simp only [Bool.false_eq_true, if_false, List.nil_append, iff_false]
      intro member
      obtain ⟨step, inside, root⟩ := List.mem_filterMap.mp member
      rcases List.mem_cons.mp inside with rfl | inside
      · exact first root
      · exact tail (List.mem_filterMap.mpr ⟨step, inside, root⟩)

def named (ns : List String) : List Component := ns.map .normal

theorem named_append (ms ns : List String) : named (ms ++ ns) = named ms ++ named ns :=
  List.map_append

theorem named_injective {ms ns : List String} (same : named ms = named ns) : ms = ns :=
  List.map_inj_right (fun _ _ same => by injection same) |>.mp same

theorem filterMap_named (ns : List String) : (named ns).filterMap segment? = ns := by
  unfold named
  rw [List.filterMap_map]
  exact List.filterMap_some

theorem relative_of_named {p : Path} {ns : List String} (components : p.components = named ns) :
    p.absolute = false := by
  rw [Bool.eq_false_iff]
  intro absolute
  have root := root_mem_components.mpr absolute
  rw [components] at root
  simp [named] at root

theorem name_of_step {p : Path} {step : String × Option Component} {n : String}
    (inside : step ∈ p.steps) (normal : step.2 = some (.normal n)) :
    step.1 = n ∧ isName n = true := by
  have inner : ∀ segments : List String,
      step ∈ segments.map (fun s => (s, innerComponent s)) → step.1 = n ∧ isName n = true := by
    intro segments there
    obtain ⟨s, _, rfl⟩ := List.mem_map.mp there
    obtain ⟨rfl, name⟩ := name_of_innerComponent normal
    exact ⟨rfl, name⟩
  obtain ⟨absolute, segments⟩ := p
  cases absolute with
  | true =>
    rw [steps_absolute] at inside
    exact inner segments inside
  | false =>
    cases segments with
    | nil => cases inside
    | cons s rest =>
      rw [steps_cons] at inside
      rcases List.mem_cons.mp inside with rfl | there
      · dsimp only at normal ⊢
        by_cases current : s = "."
        · subst current
          rw [firstComponent_current] at normal
          cases normal
        · rw [firstComponent_of_ne current] at normal
          obtain ⟨rfl, name⟩ := name_of_innerComponent normal
          exact ⟨rfl, name⟩
      · exact inner rest there

theorem names_of_components {p : Path} {cs : List Component} {ns : List String}
    (spelled : p.components = cs ++ named ns) : ∀ n ∈ ns, isName n = true := by
  intro n member
  have inside : .normal n ∈ (if p.absolute then [.root] else []) ++ trace p.steps := by
    rw [← components_eq, spelled]
    exact List.mem_append_right _ (List.mem_map.mpr ⟨n, member, rfl⟩)
  rcases List.mem_append.mp inside with root | inside
  · split at root <;> simp at root
  · obtain ⟨step, there, normal⟩ := List.mem_filterMap.mp inside
    exact (name_of_step there normal).2

theorem components_cons {s : String} (ne : s ≠ ".") (rest : List String) :
    components ⟨false, s :: rest⟩ = (s :: rest).filterMap innerComponent := by
  rw [components_eq, steps_cons, firstComponent_of_ne ne, ← trace_inner]
  rfl

theorem head_of_named {q : Path} {ns : List String} (spelled : q.components = named ns) :
    q.segments.head? ≠ some "." := by
  have relative := relative_of_named spelled
  obtain ⟨absolute, segments⟩ := q
  dsimp only at relative ⊢
  subst relative
  cases segments with
  | nil => nofun
  | cons s rest =>
    intro current
    cases current
    rw [components_eq, steps_cons, firstComponent_current] at spelled
    cases ns <;> simp [trace, named] at spelled

theorem inner_of_named {q : Path} {ns : List String} (spelled : q.components = named ns) :
    q.segments.filterMap innerComponent = named ns := by
  have relative := relative_of_named spelled
  have head := head_of_named spelled
  obtain ⟨absolute, segments⟩ := q
  dsimp only at relative head ⊢
  subst relative
  cases segments with
  | nil => exact spelled
  | cons s rest => rw [← components_cons (fun same => head (by rw [same]; rfl)), spelled]

theorem components_append (absolute : Bool) {xs below : List String}
    (head : components ⟨absolute, xs⟩ ≠ [] ∨ below.head? ≠ some ".") :
    components ⟨absolute, xs ++ below⟩ =
      components ⟨absolute, xs⟩ ++ below.filterMap innerComponent := by
  cases absolute with
  | true =>
    rw [components_eq, components_eq, steps_absolute, steps_absolute, List.map_append,
      trace_append, trace_inner below, List.append_assoc]
  | false =>
    cases xs with
    | cons s rest =>
      have split := trace_append (steps ⟨false, s :: rest⟩)
        (below.map fun s => (s, innerComponent s))
      rw [trace_inner below] at split
      rw [components_eq, components_eq, List.append_assoc, ← split, List.cons_append, steps_cons,
        List.map_append]
      rfl
    | nil =>
      cases below with
      | nil => rfl
      | cons s rest =>
        have ne : s ≠ "." := by
          rintro rfl
          exact head.elim (absurd rfl) (absurd rfl)
        rw [List.nil_append, components_cons ne]
        rfl

theorem components_join_inner {p q : Path} (relative : q.absolute = false)
    (head : p.components ≠ [] ∨ q.segments.head? ≠ some ".") :
    (p.join q).components = p.components ++ q.segments.filterMap innerComponent := by
  obtain ⟨absolute, segments⟩ := p
  obtain ⟨below, spelled⟩ : ∃ below, below = if q.segments.isEmpty then [""] else q.segments :=
    ⟨_, rfl⟩
  have inner : below.filterMap innerComponent = q.segments.filterMap innerComponent := by
    rw [spelled]
    split
    · rename_i empty
      rw [List.isEmpty_iff.mp empty]
      simp [innerComponent]
    · rfl
  have first : components ⟨absolute, segments⟩ ≠ [] ∨ below.head? ≠ some "." := by
    refine head.imp_right fun other => ?_
    rw [spelled]
    split
    · simp
    · exact other
  unfold join
  rw [if_neg (by simp [relative])]
  dsimp only
  rw [← spelled]
  split
  · rename_i empty
    obtain rfl := List.isEmpty_iff.mp empty
    have joined : components ⟨absolute, [] ++ q.segments⟩ = _ := components_append absolute head
    exact joined
  · rw [← inner]
    split
    · rename_i slash
      obtain ⟨front, rfl⟩ : ∃ front, segments = front ++ [""] :=
        ⟨segments.dropLast, (List.dropLast_append_getLast? _ slash).symm⟩
      have same : components ⟨absolute, front ++ [""]⟩ = components ⟨absolute, front⟩ := by
        rw [components_append absolute (.inr (by simp))]
        simp [innerComponent]
      rw [same] at first ⊢
      rw [List.dropLast_concat, components_append absolute first]
    · exact components_append absolute first

theorem components_join {q : Path} {ns : List String} (spelled : q.components = named ns)
    (p : Path) : (p.join q).components = p.components ++ named ns := by
  rw [components_join_inner (relative_of_named spelled) (.inr (head_of_named spelled)),
    inner_of_named spelled]

theorem join_of_relative (p : Path) : ∃ front, ∀ q : Path, q.absolute = false → q.segments ≠ [] →
    p.join q = ⟨p.absolute, front ++ q.segments⟩ := by
  have below (q : Path) (full : q.segments ≠ []) :
      (if q.segments.isEmpty then [""] else q.segments) = q.segments := if_neg (by simpa using full)
  by_cases empty : p.segments.isEmpty = true
  · refine ⟨[], fun q relative _ => ?_⟩
    rw [join, if_neg (by simp [relative]), if_pos empty]
    rfl
  · by_cases slash : p.segments.getLast? = some ""
    · refine ⟨p.segments.dropLast, fun q relative full => ?_⟩
      rw [join, if_neg (by simp [relative]), if_neg empty, below q full, if_pos slash]
    · refine ⟨p.segments, fun q relative full => ?_⟩
      rw [join, if_neg (by simp [relative]), if_neg empty, below q full, if_neg slash]

theorem join_of_last {p : Path} {below : List String} (full : p.segments ≠ [])
    (last : p.segments.getLast? ≠ some "") (more : below ≠ []) :
    p.join ⟨false, below⟩ = ⟨p.absolute, p.segments ++ below⟩ := by
  unfold join
  simp [full, last, more]

theorem components_names {ns : List String} (names : ∀ n ∈ ns, isName n = true) :
    components ⟨false, ns⟩ = named ns := by
  cases ns with
  | nil => rfl
  | cons n ns =>
    rw [components_cons (isName_iff.mp (names n (by simp))).2.1]
    exact List.filterMap_eq_map_iff_forall_eq_some.mpr fun m inside =>
      innerComponent_name (names m inside)

theorem startsWith_iff {p base : Path} :
    p.startsWith base = true ↔ base.components <+: p.components := List.isPrefixOf_iff_prefix

theorem startsWith_of_spelled {p base : Path} {ns : List String}
    (spelled : p.components = base.components ++ named ns) : p.startsWith base = true :=
  startsWith_iff.mpr (spelled ▸ List.prefix_append _ _)

theorem startsWith_of_names {p q : Path} {cs : List Component} {ms ns : List String}
    (one : p.components = cs ++ named ms) (two : q.components = cs ++ named ns)
    (above : ns <+: ms) : p.startsWith q = true := by
  rw [startsWith_iff, one, two, List.prefix_append_right_inj]
  exact above.map _

theorem startsWith_join (p : Path) {q : Path} (relative : q.absolute = false) :
    (p.join q).startsWith p = true := by
  rw [startsWith_iff]
  by_cases empty : p.components = []
  · rw [empty]
    exact List.nil_prefix
  · rw [components_join_inner relative (.inl empty)]
    exact List.prefix_append _ _

/-- No blank segment stands at the end. -/
def Trimmed (p : Path) : Prop := ∀ step, p.steps.getLast? = some step → step.2 ≠ none

section Trimming
variable {S : List (String × Option Component)}

theorem trimEnd_eq (S : List (String × Option Component)) :
    trimEnd S = S.rdropWhile fun step => step.2.isNone := rfl

theorem trimEnd_first : trimEnd S <+: S := List.rdropWhile_prefix _ _

theorem trace_dropWhile (S : List (String × Option Component)) :
    trace (S.dropWhile fun step => step.2.isNone) = trace S := by
  induction S with
  | nil => rfl
  | cons step S ih =>
    rw [List.dropWhile_cons]
    split
    · rename_i blank
      rw [ih]
      exact (List.filterMap_cons_none (Option.isNone_iff_eq_none.mp blank)).symm
    · rfl

theorem trace_reverse (S : List (String × Option Component)) :
    trace S.reverse = (trace S).reverse := List.filterMap_reverse ..

theorem trace_trimEnd (S : List (String × Option Component)) : trace (trimEnd S) = trace S := by
  unfold trimEnd
  rw [trace_reverse, trace_dropWhile, trace_reverse, List.reverse_reverse]

theorem last_of_trimEnd {step : String × Option Component}
    (last : (trimEnd S).getLast? = some step) : step.2 ≠ none := by
  rw [trimEnd_eq] at last
  have some : S.rdropWhile (fun step => step.2.isNone) ≠ [] := by
    intro empty
    rw [empty] at last
    cases last
  have seen := List.rdropWhile_last_not _ S some
  rw [List.getLast?_eq_some_getLast some] at last
  cases last
  simpa using seen

theorem trace_dropComponents (n : Nat) (S : List (String × Option Component)) :
    trace (dropComponents n S) = (trace S).drop n := by
  induction S generalizing n with
  | nil => cases n <;> simp [dropComponents, trace]
  | cons step S ih =>
    obtain ⟨s, c⟩ := step
    cases n with
    | zero => simp [dropComponents]
    | succ n =>
      cases c with
      | none => simpa [dropComponents, trace] using ih (n + 1)
      | some c => simpa [dropComponents, trace] using ih n

theorem dropComponents_suffix (n : Nat) (S : List (String × Option Component)) :
    dropComponents n S <:+ S := by
  induction S generalizing n with
  | nil => cases n <;> simp [dropComponents]
  | cons step S ih =>
    obtain ⟨s, c⟩ := step
    cases n with
    | zero => simp [dropComponents]
    | succ n =>
      cases c with
      | none => exact (ih (n + 1)).trans (List.suffix_cons _ _)
      | some c => exact (ih n).trans (List.suffix_cons _ _)

theorem dropComponents_tail (n : Nat) (step : String × Option Component)
    (S : List (String × Option Component)) : dropComponents (n + 1) (step :: S) <:+ S := by
  obtain ⟨s, c⟩ := step
  cases c with
  | none => exact dropComponents_suffix (n + 1) S
  | some c => exact dropComponents_suffix n S

end Trimming

theorem trimmed_of_first {p : Path} {S : List (String × Option Component)}
    (first : trimEnd S <+: p.steps) : Trimmed ⟨p.absolute, (trimEnd S).map (·.1)⟩ := by
  intro step last
  rw [steps_of_first first] at last
  exact last_of_trimEnd last

theorem endsNamed_of_trimmed {p : Path} (trimmed : Trimmed p) {cs : List Component}
    {n : String} (spelled : p.components = cs ++ [.normal n]) :
    FileTree.EndsNamed p.segments := by
  intro s last
  rw [← map_steps, List.getLast?_map, Option.map_eq_some_iff] at last
  obtain ⟨step, here, rfl⟩ := last
  obtain ⟨front, split⟩ := List.getLast?_eq_some_iff.mp here
  cases component : step.2 with
  | none => exact absurd component (trimmed step here)
  | some c =>
    have ends : p.components = ((if p.absolute then [.root] else []) ++ trace front) ++ [c] := by
      rw [components_eq, split, trace_append, List.append_assoc]
      simp [trace, component]
    rw [spelled] at ends
    obtain ⟨-, same⟩ := List.append_inj' ends rfl
    cases same
    obtain ⟨same, name⟩ := name_of_step (p := p) (by rw [split]; simp) component
    rw [same]
    exact name

theorem trace_of_components {p : Path} {cs : List Component} {n : String}
    (spelled : p.components = cs ++ [.normal n]) : ∃ ds, trace p.steps = ds ++ [.normal n] ∧
      (if p.absolute then [.root] else []) ++ ds = cs := by
  rw [components_eq] at spelled
  rcases List.eq_nil_or_concat' (trace p.steps) with empty | ⟨ds, c, split⟩
  · rw [empty] at spelled
    split at spelled
    · have split : [] ++ [Component.root] = cs ++ [.normal n] := spelled
      cases (List.append_inj' split rfl).2
    · have length := congrArg List.length spelled
      simp at length
  · rw [split, ← List.append_assoc] at spelled
    obtain ⟨front, last⟩ := List.append_inj' spelled rfl
    cases last
    exact ⟨ds, split, front⟩

theorem steps_before_last {S : List (String × Option Component)} {ds : List Component}
    {c : Component} (traced : trace S = ds ++ [c]) : ∃ step above,
      (S.reverse.dropWhile fun s => s.2.isNone) = step :: above ∧ trace above.reverse = ds ∧
        above.reverse <+: S := by
  have shorter : trace (S.reverse.dropWhile fun s => s.2.isNone) = c :: ds.reverse := by
    rw [trace_dropWhile, trace_reverse, traced]
    simp
  cases front : S.reverse.dropWhile fun s => s.2.isNone with
  | nil =>
    rw [front] at shorter
    cases shorter
  | cons step above =>
    have full : step.2 ≠ none := by
      have head := List.head?_dropWhile_not (fun s : String × Option Component => s.2.isNone)
        S.reverse
      rw [front] at head
      exact Option.isSome_iff_ne_none.mp (by simpa using head)
    obtain ⟨c', component⟩ := Option.ne_none_iff_exists'.mp full
    rw [front] at shorter
    have tail : trace above = ds.reverse := by
      unfold trace at shorter
      rw [List.filterMap_cons_some component] at shorter
      exact (List.cons.inj shorter).2
    refine ⟨step, above, rfl, by rw [trace_reverse, tail, List.reverse_reverse], ?_⟩
    have drop := List.dropWhile_suffix (l := S.reverse) fun s => s.2.isNone
    rw [front] at drop
    have whole := List.reverse_prefix.mpr ((List.suffix_cons step above).trans drop)
    rwa [List.reverse_reverse] at whole

theorem parent_of_components {p : Path} {cs : List Component} {n : String}
    (spelled : p.components = cs ++ [.normal n]) : ∃ above, p.parent? = some above ∧
      above.absolute = p.absolute ∧ above.components = cs ∧ Trimmed above := by
  obtain ⟨ds, traced, rfl⟩ := trace_of_components spelled
  obtain ⟨step, above, front, shorter, inside⟩ := steps_before_last traced
  have first := trimEnd_first.trans inside
  refine ⟨⟨p.absolute, (trimEnd above.reverse).map (·.1)⟩, ?_, rfl, ?_, trimmed_of_first first⟩
  · unfold parent?
    rw [front]
  · rw [components_eq, steps_of_first first, trace_trimEnd, shorter]

theorem steps_of_inner {S : List (String × Option Component)}
    (inner : ∀ step ∈ S, step.2 = innerComponent step.1)
    (head : (S.map (·.1)).head? ≠ some ".") : steps ⟨false, S.map (·.1)⟩ = S := by
  cases S with
  | nil => rfl
  | cons step S =>
    obtain ⟨s, c⟩ := step
    have ne : s ≠ "." := fun same => head (by rw [same]; rfl)
    have tail : (S.map (·.1)).map (fun s => (s, innerComponent s)) = S := by
      rw [List.map_map]
      refine (List.map_congr_left fun step member => ?_).trans (List.map_id' S)
      exact Prod.ext rfl (inner step (List.mem_cons_of_mem _ member)).symm
    rw [List.map_cons, steps_cons, tail, firstComponent_of_ne ne, ← inner _ (List.mem_cons_self ..)]

theorem inner_of_dropComponents {p : Path} {n : Nat} (away : p.absolute = true ∨ n ≠ 0) :
    ∀ step ∈ dropComponents n p.steps, step.2 = innerComponent step.1 := by
  have mapped : ∀ (segments : List String), ∀ step ∈ segments.map fun s => (s, innerComponent s),
      step.2 = innerComponent step.1 := by
    intro segments step member
    obtain ⟨s, _, rfl⟩ := List.mem_map.mp member
    rfl
  intro step member
  obtain ⟨absolute, segments⟩ := p
  cases absolute with
  | true =>
    rw [steps_absolute] at member
    exact mapped segments step ((dropComponents_suffix n _).subset member)
  | false =>
    obtain ⟨n, rfl⟩ := Nat.exists_eq_succ_of_ne_zero (away.resolve_left (by simp))
    cases segments with
    | nil => cases member
    | cons s rest =>
      rw [steps_cons] at member
      exact mapped rest step ((dropComponents_tail n _ _).subset member)

def stepsBehind (p : Path) (n : Nat) : List (String × Option Component) :=
  trimEnd ((dropComponents n p.steps).dropWhile fun s => s.2.isNone)

theorem trace_stepsBehind (p : Path) (n : Nat) :
    trace (p.stepsBehind n) = (trace p.steps).drop n := by
  rw [stepsBehind, trace_trimEnd, trace_dropWhile, trace_dropComponents]

theorem inner_of_stepsBehind {p : Path} {n : Nat} (away : p.absolute = true ∨ n ≠ 0) :
    ∀ step ∈ p.stepsBehind n, step.2 = innerComponent step.1 := fun step member =>
  inner_of_dropComponents away step
    ((List.dropWhile_suffix _).subset (trimEnd_first.subset member))

theorem stepsBehind_head {p : Path} {n : Nat} (away : p.absolute = true ∨ n ≠ 0) :
    ((p.stepsBehind n).map (·.1)).head? ≠ some "." := by
  intro dot
  obtain ⟨step, first, same⟩ := Option.map_eq_some_iff.mp (List.head?_map ▸ dot)
  obtain ⟨others, shape⟩ := List.head?_eq_some_iff.mp first
  have inner := inner_of_stepsBehind away step (by rw [shape]; simp)
  have begins : ((dropComponents n p.steps).dropWhile fun s => s.2.isNone).head? = some step := by
    obtain ⟨more, whole⟩ : p.stepsBehind n <+:
      (dropComponents n p.steps).dropWhile fun s => s.2.isNone := trimEnd_first
    rw [← whole, shape]
    rfl
  have full := List.head?_dropWhile_not (fun s : String × Option Component => s.2.isNone)
    (dropComponents n p.steps)
  rw [begins] at full
  dsimp only at full
  rw [inner, same] at full
  simp [innerComponent] at full

theorem behind_spelled {p : Path} {n : Nat} (away : p.absolute = true ∨ n ≠ 0) :
    components ⟨false, (p.stepsBehind n).map (·.1)⟩ = (trace p.steps).drop n ∧
      Trimmed ⟨false, (p.stepsBehind n).map (·.1)⟩ := by
  have stepped := steps_of_inner (inner_of_stepsBehind away) (stepsBehind_head away)
  constructor
  · rw [components_eq, stepped, trace_stepsBehind]
    rfl
  · intro step last
    rw [stepped] at last
    exact last_of_trimEnd last

theorem relativeTo_spelled {p base below : Path} (rest : p.relativeTo? base = some below) :
    p.components = base.components ++ below.components ∧ Trimmed below := by
  unfold relativeTo? at rest
  split at rest
  · rename_i first
    obtain ⟨cs, split⟩ := List.isPrefixOf_iff_prefix.mp first
    dsimp only at rest
    split at rest
    · rename_i none
      have empty : base.components = [] := List.length_eq_zero_iff.mp none
      obtain rfl := Option.some.inj rest
      refine ⟨?_, trimmed_of_first trimEnd_first⟩
      rw [empty, List.nil_append, components_eq, components_eq ⟨p.absolute, _⟩,
        steps_of_first trimEnd_first, trace_trimEnd]
    · rename_i full
      obtain rfl := Option.some.inj rest
      have away : p.absolute = true ∨
          (if p.absolute then base.components.length - 1 else base.components.length) ≠ 0 := by
        cases absolute : p.absolute with
        | true => exact .inl rfl
        | false => exact .inr full
      obtain ⟨spelled, trimmed⟩ := behind_spelled away
      refine ⟨?_, trimmed⟩
      have follows : cs = (trace p.steps).drop
          (if p.absolute then base.components.length - 1 else base.components.length) := by
        have rest : cs = p.components.drop base.components.length := by
          rw [← split, List.drop_left]
        rw [rest, components_eq p]
        cases p.absolute with
        | true =>
          obtain ⟨m, long⟩ := Nat.exists_eq_succ_of_ne_zero full
          simp [long]
        | false => simp
      rw [← split, follows]
      exact congrArg (base.components ++ ·) spelled.symm
  · cases rest

end Path
end ClassHooks
