import ClassHooks.Proofs.Files.Sound

/-!
How a path is followed. A path leads over directories and links to some directory, its base, and from
there by plain names; what it leads to is then told by the entry at the location made of both.
-/
namespace ClassHooks
namespace FileTree

/-- Segments that lead from one directory to another. Each link on the way takes one of the links
that may still be followed. -/
inductive Follows (t : FileTree) : Nat → Location → List String → Nat → Location → Prop where
  | done {k : Nat} {l : Location} : Follows t k l [] k l
  | stay {k j : Nat} {l m : Location} {s : String} {rest : List String} (blank : s = "" ∨ s = ".")
      (next : Follows t k l rest j m) : Follows t k l (s :: rest) j m
  | up {k j : Nat} {l m : Location} {rest : List String} (next : Follows t k l.dropLast rest j m) :
      Follows t k l (".." :: rest) j m
  | down {k j : Nat} {l m : Location} {s : String} {rest : List String}
      (name : Path.isName s = true) (found : t.find? (l ++ [s]) = some .directory)
      (next : Follows t k (l ++ [s]) rest j m) : Follows t k l (s :: rest) j m
  | through {k j : Nat} {l m : Location} {s : String} {rest : List String} {target : Path}
      (name : Path.isName s = true) (found : t.find? (l ++ [s]) = some (.link target))
      (next : Follows t k (if target.absolute then [] else l) (target.segments ++ rest) j m) :
      Follows t (k + 1) l (s :: rest) j m

def namesOf (segments : List String) : List String := segments.filter Path.isName

@[simp] theorem namesOf_nil : namesOf [] = [] := rfl

theorem namesOf_name {s : String} (name : Path.isName s = true) (rest : List String) :
    namesOf (s :: rest) = s :: namesOf rest := List.filter_cons_of_pos name

theorem namesOf_blank {s : String} (blank : s = "" ∨ s = ".") (rest : List String) :
    namesOf (s :: rest) = namesOf rest := by
  refine List.filter_cons_of_neg ?_
  rcases blank with rfl | rfl <;> simp [Path.isName]

theorem namesOf_empty {rest : List String} (empty : rest.all (· = "") = true) :
    namesOf rest = [] := by
  refine List.filter_eq_nil_iff.mpr fun r member => ?_
  have blank : r = "" := by simpa using List.all_eq_true.mp empty r member
  simp [blank, Path.isName]

theorem segment_cases (s : String) :
    (s = "" ∨ s = ".") ∨ s = ".." ∨ Path.isName s = true := by
  rw [Path.isName_iff]
  tauto

theorem isName_of_not {s : String} (full : ¬ (s = "" ∨ s = ".")) (up : ¬ s = "..") :
    Path.isName s = true := ((segment_cases s).resolve_left full).resolve_left up

section Walk
variable {t : FileTree} {follow : Bool} {k : Nat} {l : Location} {s : String} {rest : List String}

theorem walk_blank (blank : s = "" ∨ s = ".") :
    t.walk follow k l (s :: rest) = t.walk follow k l rest := by
  rw [walk, if_pos blank]

theorem walk_up : t.walk follow k l (".." :: rest) = t.walk follow k l.dropLast rest := by
  rw [walk, if_neg (by simp), if_pos rfl]

theorem walk_name (name : Path.isName s = true) :
    t.walk follow k l (s :: rest) =
      match t.find? (l ++ [s]) with
      | none => if rest.all (· = "") then .ok (.vacant l s) else .error .notFound
      | some .directory => t.walk follow k (l ++ [s]) rest
      | some (.file bytes) =>
        if rest.isEmpty then .ok (.entry (l ++ [s]) (.file bytes)) else .error .notADirectory
      | some (.link target) =>
        if rest.isEmpty && !follow then .ok (.entry (l ++ [s]) (.link target))
        else
          match k with
          | 0 => .error .linkLoop
          | k + 1 => t.walk follow k (if target.absolute then [] else l) (target.segments ++ rest) := by
  obtain ⟨full, here, up⟩ := Path.isName_iff.mp name
  rewrite [walk, if_neg (by simp [full, here]), if_neg up]
  cases t.find? (l ++ [s]) with
  | none => rfl
  | some e =>
    cases e with
    | directory => rfl
    | file bytes => rfl
    | link target => cases k <;> rfl

theorem walk_of_follows {j : Nat} {m : Location} {xs : List String}
    (follows : t.Follows k l xs j m) {zs : List String} (more : zs ≠ [] ∨ follow = true) :
    t.walk follow k l (xs ++ zs) = t.walk follow j m zs := by
  induction follows with
  | done => rfl
  | stay blank _ ih => rw [List.cons_append, walk_blank blank, ih]
  | up _ ih => rw [List.cons_append, walk_up, ih]
  | down name found _ ih =>
    rw [List.cons_append, walk_name name, found]
    exact ih
  | @through k j l m s rest target name found next ih =>
    have onward : ((rest ++ zs).isEmpty && !follow) = false := by
      rcases more with some | yes
      · simp [some]
      · simp [yes]
    rw [List.cons_append, walk_name name, found]
    dsimp only
    rw [onward, if_neg (by simp), ← List.append_assoc]
    exact ih

theorem walk_entry_of_follows {j : Nat} {m : Location} {xs : List String}
    (follows : t.Follows k l xs j m) : ∃ i e, t.walk false k l xs = .ok (.entry i e) := by
  induction follows with
  | done => exact ⟨_, _, walk.eq_1 ..⟩
  | stay blank _ ih =>
    rw [walk_blank blank]
    exact ih
  | up _ ih =>
    rw [walk_up]
    exact ih
  | down name found _ ih =>
    rw [walk_name name, found]
    exact ih
  | @through k j l m s rest target name found next ih =>
    rw [walk_name name, found]
    cases rest with
    | nil => exact ⟨_, _, rfl⟩
    | cons r rest => exact ih

theorem walk_mono {u : FileTree} (kept : ∀ l e, t.find? l = some e → u.find? l = some e)
    {segments : List String} {o : Location} {e : Entry}
    (run : t.walk follow k l segments = .ok (.entry o e)) :
    u.walk follow k l segments = .ok (.entry o e) := by
  fun_induction t.walk follow k l segments with
  | case1 links here =>
    rw [walk]
    exact run
  | case2 links here segment rest blank ih =>
    rw [walk_blank blank]
    exact ih run
  | case3 links here rest _ ih =>
    rw [walk_up]
    exact ih run
  | case4 => cases run
  | case5 => cases run
  | case6 links here segment rest full up found ih =>
    rw [walk_name (isName_of_not full up), kept _ _ found]
    exact ih run
  | case7 links here segment rest full up bytes found last =>
    rw [walk_name (isName_of_not full up), kept _ _ found]
    dsimp only
    rw [if_pos last]
    exact run
  | case8 => cases run
  | case9 links here segment rest full up target found last =>
    rw [walk_name (isName_of_not full up), kept _ _ found]
    dsimp only
    rw [if_pos last]
    exact run
  | case10 => cases run
  | case11 here segment rest full up target found onward links ih =>
    rw [walk_name (isName_of_not full up), kept _ _ found]
    dsimp only
    rw [if_neg onward]
    exact ih run

theorem find?_of_walk (sound : t.Sound) {segments : List String} {o : Location} {e : Entry}
    (run : t.walk follow k l segments = .ok (.entry o e)) (base : t.find? l = some .directory) :
    t.find? o = some e := by
  fun_induction t.walk follow k l segments with
  | case1 links here =>
    cases run
    exact base
  | case2 _ _ _ _ _ ih => exact ih run base
  | case3 links here rest _ ih => exact ih run (sound.dropLast base)
  | case4 => cases run
  | case5 => cases run
  | case6 _ _ _ _ _ _ found ih => exact ih run found
  | case7 _ _ _ _ _ _ bytes found _ =>
    cases run
    exact found
  | case8 => cases run
  | case9 _ _ _ _ _ _ target found _ =>
    cases run
    exact found
  | case10 => cases run
  | case11 here segment rest full up target found onward links ih =>
    refine ih run ?_
    split
    · rfl
    · exact base

end Walk

namespace Follows
variable {t : FileTree} {k j : Nat} {l m : Location} {xs ys : List String}

theorem append {i : Nat} {n : Location} (first : t.Follows k l xs j m)
    (second : t.Follows j m ys i n) : t.Follows k l (xs ++ ys) i n := by
  induction first with
  | done => exact second
  | stay blank _ ih => exact .stay blank (ih second)
  | up _ ih => exact .up (ih second)
  | down name found _ ih => exact .down name found (ih second)
  | through name found _ ih =>
    have onward := ih second
    rw [List.append_assoc] at onward
    exact .through name found onward

theorem split (whole : t.Follows k l (xs ++ ys) j m) :
    ∃ i n, t.Follows k l xs i n ∧ t.Follows i n ys j m := by
  generalize same : xs ++ ys = zs at whole
  induction whole generalizing xs with
  | done =>
    obtain ⟨rfl, rfl⟩ := List.append_eq_nil_iff.mp same
    exact ⟨_, _, .done, .done⟩
  | @stay k j l m s rest blank next ih =>
    rcases List.append_eq_cons_iff.mp same with ⟨rfl, rfl⟩ | ⟨xs, rfl, rfl⟩
    · exact ⟨_, _, .done, .stay blank next⟩
    · obtain ⟨i, n, first, second⟩ := ih rfl
      exact ⟨i, n, .stay blank first, second⟩
  | @up k j l m rest next ih =>
    rcases List.append_eq_cons_iff.mp same with ⟨rfl, rfl⟩ | ⟨xs, rfl, rfl⟩
    · exact ⟨_, _, .done, .up next⟩
    · obtain ⟨i, n, first, second⟩ := ih rfl
      exact ⟨i, n, .up first, second⟩
  | @down k j l m s rest name found next ih =>
    rcases List.append_eq_cons_iff.mp same with ⟨rfl, rfl⟩ | ⟨xs, rfl, rfl⟩
    · exact ⟨_, _, .done, .down name found next⟩
    · obtain ⟨i, n, first, second⟩ := ih rfl
      exact ⟨i, n, .down name found first, second⟩
  | @through k j l m s rest target name found next ih =>
    rcases List.append_eq_cons_iff.mp same with ⟨rfl, rfl⟩ | ⟨xs, rfl, rfl⟩
    · exact ⟨_, _, .done, .through name found next⟩
    · obtain ⟨i, n, first, second⟩ := ih (List.append_assoc ..)
      exact ⟨i, n, .through name found first, second⟩

theorem mono {u : FileTree} (kept : ∀ l e, t.find? l = some e → u.find? l = some e)
    (follows : t.Follows k l xs j m) : u.Follows k l xs j m := by
  induction follows with
  | done => exact .done
  | stay blank _ ih => exact .stay blank ih
  | up _ ih => exact .up ih
  | down name found _ ih => exact .down name (kept _ _ found) ih
  | through name found _ ih => exact .through name (kept _ _ found) ih

theorem directory (sound : t.Sound) (follows : t.Follows k l xs j m)
    (start : t.find? l = some .directory) : t.find? m = some .directory := by
  induction follows with
  | done => exact start
  | stay _ _ ih => exact ih start
  | @up _ _ l _ _ _ ih =>
    exact ih (sound.dropLast start)
  | down _ found _ ih => exact ih found
  | through _ _ _ ih =>
    refine ih ?_
    split
    · rfl
    · exact start

theorem walk_end (follows : t.Follows k l xs j m) :
    t.walk true k l xs = .ok (.entry m .directory) := by
  have walked : t.walk true k l (xs ++ []) = t.walk true j m [] := walk_of_follows follows (.inr rfl)
  rw [List.append_nil, walk] at walked
  exact walked

theorem unique {i : Nat} {n : Location} (one : t.Follows k l xs j m) (two : t.Follows k l xs i n) :
    m = n := by
  have same := one.walk_end.symm.trans two.walk_end
  cases same
  rfl

theorem blank_end (follows : t.Follows k l ys j m) (blank : ∀ s ∈ ys, s = "" ∨ s = ".") :
    k = j ∧ l = m := by
  induction follows with
  | done => exact ⟨rfl, rfl⟩
  | stay _ _ ih => exact ih fun s member => blank s (by simp [member])
  | up _ _ => simpa using blank ".." (by simp)
  | @down _ _ _ _ s _ name _ _ _ =>
    obtain ⟨full, here, _⟩ := Path.isName_iff.mp name
    simpa [full, here] using blank s (by simp)
  | @through _ _ _ _ s _ _ name _ _ _ =>
    obtain ⟨full, here, _⟩ := Path.isName_iff.mp name
    simpa [full, here] using blank s (by simp)

end Follows

def Linkless (t : FileTree) (m l : Location) : Prop :=
  ∀ i, m <+: i → i <+: l → ∀ target, t.find? i ≠ some (.link target)

def EndsNamed (segments : List String) : Prop :=
  ∀ s, segments.getLast? = some s → Path.isName s = true

instance {segments : List String} : Decidable (EndsNamed segments) :=
  inferInstanceAs (Decidable (∀ s ∈ segments.getLast?, Path.isName s = true))

theorem endsNamed_of_suffix {segments post : List String} (ends : EndsNamed segments)
    (part : post <:+ segments) : EndsNamed post := by
  obtain ⟨front, rfl⟩ := part
  intro s last
  refine ends s ?_
  rw [List.getLast?_append, last]
  rfl

theorem endsNamed_tail {s : String} {rest : List String} (ends : EndsNamed (s :: rest)) :
    EndsNamed rest := by
  intro n last
  refine ends n ?_
  cases rest with
  | nil => cases last
  | cons r rest => rwa [List.getLast?_cons_cons]

theorem namesOf_ne_nil {segments : List String} (ends : EndsNamed segments)
    (some : segments ≠ []) : namesOf segments ≠ [] := by
  have last := List.getLast?_eq_some_getLast some
  exact List.ne_nil_of_mem (List.mem_filter.mpr ⟨List.getLast_mem some, ends _ last⟩)

section Plain
variable {t : FileTree} {follow : Bool} {k : Nat} {m : Location} {post : List String}

theorem linkless_tail {s : String} {rest : List String}
    (linkless : t.Linkless m (m ++ s :: rest)) : t.Linkless (m ++ [s]) (m ++ [s] ++ rest) := by
  intro i above below
  refine linkless i ((List.prefix_append m [s]).trans above) ?_
  simpa using below

theorem linkless_head {s : String} {rest : List String}
    (linkless : t.Linkless m (m ++ s :: rest)) (target : Path) :
    t.find? (m ++ [s]) ≠ some (.link target) :=
  linkless _ (List.prefix_append m [s]) ⟨rest, by simp⟩ target

theorem step_above {d : Location} {s n : String} {ns : List String} (more : ns ≠ [])
    (split : m ++ s :: ns = d ++ [n]) : m ++ [s] <+: d := by
  obtain ⟨front, final, rfl⟩ := (List.eq_nil_or_concat' ns).resolve_left more
  rw [show m ++ s :: (front ++ [final]) = m ++ [s] ++ front ++ [final] by simp] at split
  exact ⟨front, (List.append_inj' split rfl).1⟩

theorem walk_plain_ok {place : Place} (level : ".." ∉ post) (base : t.find? m = some .directory)
    (linkless : t.Linkless m (m ++ namesOf post)) (run : t.walk follow k m post = .ok place) :
    (∃ e, place = .entry (m ++ namesOf post) e ∧ t.find? (m ++ namesOf post) = some e) ∨
      ∃ d n, place = .vacant d n ∧ m ++ namesOf post = d ++ [n] ∧
        t.find? d = some .directory ∧ t.find? (d ++ [n]) = none := by
  induction post generalizing m with
  | nil =>
    rw [walk] at run
    cases run
    exact .inl ⟨.directory, by simp, by simpa using base⟩
  | cons s rest ih =>
    rw [List.mem_cons, not_or] at level
    rcases segment_cases s with blank | rfl | name
    · rw [walk_blank blank] at run
      rw [namesOf_blank blank] at linkless ⊢
      exact ih level.2 base linkless run
    · exact absurd rfl level.1
    · rw [walk_name name] at run
      rw [namesOf_name name] at linkless ⊢
      have whole : m ++ s :: namesOf rest = m ++ [s] ++ namesOf rest := by simp
      cases found : t.find? (m ++ [s]) with
      | none =>
        rw [found] at run
        dsimp only at run
        split at run
        · rename_i blanks
          cases run
          exact .inr ⟨m, s, rfl, by rw [namesOf_empty blanks], base, found⟩
        · cases run
      | some e =>
        rw [found] at run
        cases e with
        | directory =>
          rw [whole]
          exact ih level.2 found (linkless_tail linkless) run
        | file bytes =>
          dsimp only at run
          split at run
          · rename_i last
            cases run
            obtain rfl := List.isEmpty_iff.mp last
            exact .inl ⟨_, rfl, found⟩
          · cases run
        | link target => exact absurd found (linkless_head linkless target)

theorem last_of_walk {place : Place} (level : ".." ∉ post)
    (linkless : t.Linkless m (m ++ namesOf post)) (run : t.walk true k m post = .ok place)
    (other : ∀ l, place ≠ .entry l .directory) {s : String} (last : post.getLast? = some s) :
    Path.isName s = true ∨ s = "" := by
  induction post generalizing m with
  | nil => cases last
  | cons r rest ih =>
    rw [List.mem_cons, not_or] at level
    rcases segment_cases r with blank | rfl | name
    · rw [walk_blank blank] at run
      rw [namesOf_blank blank] at linkless
      cases rest with
      | nil =>
        rw [walk] at run
        cases run
        exact absurd rfl (other m)
      | cons _ _ => exact ih level.2 linkless run (by rwa [List.getLast?_cons_cons] at last)
    · exact absurd rfl level.1
    · rw [walk_name name] at run
      rw [namesOf_name name] at linkless
      cases found : t.find? (m ++ [r]) with
      | none =>
        rw [found] at run
        dsimp only at run
        split at run
        · rename_i blanks
          rcases List.mem_cons.mp (List.mem_of_getLast? last) with rfl | inside
          · exact .inl name
          · exact .inr (by simpa using List.all_eq_true.mp blanks s inside)
        · cases run
      | some e =>
        rw [found] at run
        cases e with
        | directory =>
          cases rest with
          | nil =>
            rw [walk] at run
            cases run
            exact absurd rfl (other (m ++ [r]))
          | cons _ _ =>
            exact ih level.2 (linkless_tail linkless) run (by rwa [List.getLast?_cons_cons] at last)
        | file bytes =>
          dsimp only at run
          split at run
          · rename_i final
            obtain rfl := List.isEmpty_iff.mp final
            cases last
            exact .inl name
          · cases run
        | link target => exact absurd found (linkless_head linkless target)

theorem walk_plain_notFound (sound : t.Sound) (level : ".." ∉ post)
    (linkless : t.Linkless m (m ++ namesOf post)) (run : t.walk follow k m post = .error .notFound) :
    t.find? (m ++ namesOf post) = none := by
  induction post generalizing m with
  | nil =>
    rw [walk] at run
    cases run
  | cons s rest ih =>
    rw [List.mem_cons, not_or] at level
    rcases segment_cases s with blank | rfl | name
    · rw [walk_blank blank] at run
      rw [namesOf_blank blank] at linkless ⊢
      exact ih level.2 linkless run
    · exact absurd rfl level.1
    · rw [walk_name name] at run
      rw [namesOf_name name] at linkless ⊢
      have whole : m ++ s :: namesOf rest = m ++ [s] ++ namesOf rest := by simp
      cases found : t.find? (m ++ [s]) with
      | none => exact sound.vacant_below found ⟨namesOf rest, whole.symm⟩
      | some e =>
        rw [found] at run
        cases e with
        | directory =>
          rw [whole]
          exact ih level.2 (linkless_tail linkless) run
        | file bytes =>
          dsimp only at run
          split at run <;> cases run
        | link target => exact absurd found (linkless_head linkless target)

theorem opened_of_notFound (sound : t.Sound) (level : ".." ∉ post)
    (base : t.find? m = some .directory) (linkless : t.Linkless m (m ++ namesOf post))
    (run : t.walk follow k m post = .error .notFound) {i : Location} (from' : m <+: i)
    (to' : i <+: m ++ namesOf post) {e : Entry} (there : t.find? i = some e) : e = .directory := by
  induction post generalizing m with
  | nil =>
    rw [walk] at run
    cases run
  | cons s rest ih =>
    rw [List.mem_cons, not_or] at level
    rcases segment_cases s with blank | rfl | name
    · rw [walk_blank blank] at run
      rw [namesOf_blank blank] at linkless to'
      exact ih level.2 base linkless run from' to'
    · exact absurd rfl level.1
    · rw [walk_name name] at run
      rw [namesOf_name name] at linkless to'
      by_cases here : i = m
      · rw [here, base] at there
        exact (Option.some.inj there).symm
      have whole : m ++ s :: namesOf rest = m ++ [s] ++ namesOf rest := by simp
      have further : m ++ [s] <+: i := by
        obtain ⟨more, rfl⟩ := from'
        rw [List.prefix_append_right_inj] at to' ⊢
        cases more with
        | nil => simp at here
        | cons r more =>
          rw [List.cons_prefix_cons] at to'
          rw [to'.1]
          exact List.prefix_append [s] more
      cases found : t.find? (m ++ [s]) with
      | none =>
        rw [sound.vacant_below found further] at there
        cases there
      | some f =>
        rw [found] at run
        cases f with
        | directory => exact ih level.2 found (linkless_tail linkless) run further (whole ▸ to')
        | file bytes =>
          dsimp only at run
          split at run <;> cases run
        | link target => exact absurd found (linkless_head linkless target)

theorem walk_plain_entry (sound : t.Sound) {e : Entry} (level : ".." ∉ post)
    (linkless : t.Linkless m (m ++ namesOf post)) (found : t.find? (m ++ namesOf post) = some e)
    (whole : e = .directory ∨ EndsNamed post) (base : t.find? m = some .directory) :
    t.walk follow k m post = .ok (.entry (m ++ namesOf post) e) := by
  induction post generalizing m with
  | nil =>
    rw [namesOf_nil, List.append_nil] at found ⊢
    rw [base] at found
    cases found
    rw [walk]
  | cons s rest ih =>
    rw [List.mem_cons, not_or] at level
    have tail : e = .directory ∨ EndsNamed rest := whole.imp id endsNamed_tail
    rcases segment_cases s with blank | rfl | name
    · rw [namesOf_blank blank] at linkless found ⊢
      rw [walk_blank blank]
      exact ih level.2 linkless found tail base
    · exact absurd rfl level.1
    · rw [namesOf_name name] at linkless found ⊢
      have split : m ++ s :: namesOf rest = m ++ [s] ++ namesOf rest := by simp
      rw [walk_name name]
      by_cases last : namesOf rest = []
      · rw [last] at found ⊢
        rw [found]
        cases e with
        | directory =>
          dsimp only
          have more := ih (m := m ++ [s]) level.2 (linkless_tail linkless)
            (by simpa [last] using found) tail found
          simpa [last] using more
        | file bytes =>
          have ends : EndsNamed rest := by simpa using tail
          have empty : rest = [] := by
            by_contra more
            exact namesOf_ne_nil ends more last
          simp [empty]
        | link target => exact absurd found (linkless_head linkless target)
      · have parent : t.find? (m ++ [s]) = some .directory :=
          sound.above found ⟨namesOf rest, split.symm⟩ (by simpa using Ne.symm last)
        rw [parent]
        dsimp only
        rw [split] at found ⊢
        exact ih level.2 (linkless_tail linkless) found tail parent

theorem walk_plain_link (sound : t.Sound) {target : Path} (level : ".." ∉ post)
    (found : t.find? (m ++ namesOf post) = some (.link target)) (ends : EndsNamed post)
    (base : t.find? m = some .directory) :
    t.walk false k m post = .ok (.entry (m ++ namesOf post) (.link target)) := by
  induction post generalizing m with
  | nil =>
    rw [namesOf_nil, List.append_nil, base] at found
    cases found
  | cons s rest ih =>
    rw [List.mem_cons, not_or] at level
    have tail := endsNamed_tail ends
    rcases segment_cases s with blank | rfl | name
    · rw [namesOf_blank blank] at found ⊢
      rw [walk_blank blank]
      exact ih level.2 found tail base
    · exact absurd rfl level.1
    · rw [namesOf_name name] at found ⊢
      have split : m ++ s :: namesOf rest = m ++ [s] ++ namesOf rest := by simp
      rw [walk_name name]
      by_cases last : namesOf rest = []
      · have empty : rest = [] := by
          by_contra more
          exact namesOf_ne_nil tail more last
        rw [last] at found ⊢
        rw [found]
        simp [empty]
      · have parent : t.find? (m ++ [s]) = some .directory :=
          sound.above found ⟨namesOf rest, split.symm⟩ (by simpa using Ne.symm last)
        rw [parent]
        dsimp only
        rw [split] at found ⊢
        exact ih level.2 found tail parent

theorem walk_plain_vacant (sound : t.Sound) {d : Location} {n : String} (level : ".." ∉ post)
    (linkless : t.Linkless m (m ++ namesOf post)) (split : m ++ namesOf post = d ++ [n])
    (above : m <+: d) (parent : t.find? d = some .directory) (free : t.find? (d ++ [n]) = none)
    (ends : EndsNamed post) : t.walk follow k m post = .ok (.vacant d n) := by
  induction post generalizing m with
  | nil =>
    rw [namesOf_nil, List.append_nil] at split
    subst split
    exact absurd above.length_le (by simp)
  | cons s rest ih =>
    rw [List.mem_cons, not_or] at level
    rcases segment_cases s with blank | rfl | name
    · rw [namesOf_blank blank] at linkless split
      rw [walk_blank blank]
      exact ih level.2 linkless split above (endsNamed_tail ends)
    · exact absurd rfl level.1
    · rw [namesOf_name name] at linkless split
      have whole : m ++ s :: namesOf rest = m ++ [s] ++ namesOf rest := by simp
      rw [walk_name name]
      by_cases last : namesOf rest = []
      · rw [last] at split
        obtain ⟨rfl, same⟩ := List.append_inj' split rfl
        cases same
        have empty : rest = [] := by
          by_contra more
          exact namesOf_ne_nil (endsNamed_tail ends) more last
        rw [free, empty]
        rfl
      · have further := step_above last split
        have house : t.find? (m ++ [s]) = some .directory := by
          by_cases same : m ++ [s] = d
          · rw [same]
            exact parent
          · exact sound.above parent further same
        rw [house]
        dsimp only
        rw [whole] at split
        exact ih level.2 (linkless_tail linkless) split further (endsNamed_tail ends)

theorem walk_plain_missing (sound : t.Sound) {d : Location} {n : String} (level : ".." ∉ post)
    (linkless : t.Linkless m (m ++ namesOf post)) (split : m ++ namesOf post = d ++ [n])
    (base : t.find? m = some .directory) (missing : t.find? d = none) :
    t.walk follow k m post = .error .notFound ∨
      ∃ i bytes, m <+: i ∧ i <+: d ∧ t.find? i = some (.file bytes) := by
  induction post generalizing m with
  | nil =>
    rw [namesOf_nil, List.append_nil] at split
    rw [split] at base
    rw [sound.housed _ _ _ base] at missing
    cases missing
  | cons s rest ih =>
    rw [List.mem_cons, not_or] at level
    rcases segment_cases s with blank | rfl | name
    · rw [namesOf_blank blank] at linkless split
      rw [walk_blank blank]
      exact ih level.2 linkless split base
    · exact absurd rfl level.1
    · rw [namesOf_name name] at linkless split
      have whole : m ++ s :: namesOf rest = m ++ [s] ++ namesOf rest := by simp
      have last : namesOf rest ≠ [] := by
        intro last
        rw [last] at split
        rw [(List.append_inj' split rfl).1, missing] at base
        cases base
      have further := step_above last split
      rw [walk_name name]
      cases found : t.find? (m ++ [s]) with
      | none =>
        left
        dsimp only
        rw [if_neg fun blanks => last (namesOf_empty blanks)]
      | some e =>
        cases e with
        | directory =>
          rw [whole] at split
          rcases ih level.2 (linkless_tail linkless) split found with lost | ⟨i, bytes, from', to', file⟩
          · exact .inl lost
          · exact .inr ⟨i, bytes, (List.prefix_append m [s]).trans from', to', file⟩
        | file bytes => exact .inr ⟨_, bytes, List.prefix_append m [s], further, found⟩
        | link target => exact absurd found (linkless_head linkless target)

end Plain
end FileTree
end ClassHooks
