import ClassHooks.Proofs.Files.Walking

/-!
A listing turn by turn. Each turn enters a directory that was not entered before or passes over a
path, so a walk ends whatever links it follows, and lists no path twice. Nothing but a link that
leads nowhere can stop it.
-/
namespace ClassHooks
namespace FileTree

open ClassHooks.Path (named)

/-- How far a listing has come: the directories that were entered, the last one first, the files
that were found, and the paths that are to be entered. -/
structure Tour where
  entered : List Location
  files : List Path
  pending : List Path

namespace Tour

def start (root : Path) : Tour := ⟨[], [], [root]⟩

/-- The next path is entered, or passed over if its directory was entered before. -/
inductive Turn (t : FileTree) : Tour → Tour → Prop
  | enter {entered : List Location} {files pending : List Path} {directory : Path} {l : Location}
      {found : Contents} (leads : t.entry directory = .ok (l, .directory)) (new : l ∉ entered)
      (contributed : t.contents directory (t.children l) = .ok found) :
      Turn t ⟨entered, files, directory :: pending⟩
        ⟨l :: entered, files ++ found.files, found.below.reverse ++ pending⟩
  | skip {entered : List Location} {files pending : List Path} {directory : Path} {l : Location}
      (leads : t.entry directory = .ok (l, .directory)) (old : l ∈ entered) :
      Turn t ⟨entered, files, directory :: pending⟩ ⟨entered, files, pending⟩

inductive Turns (t : FileTree) : Nat → Tour → Tour → Prop
  | none {u : Tour} : Turns t 0 u u
  | more {n : Nat} {u v w : Tour} (turn : Turn t u v) (rest : Turns t n v w) : Turns t (n + 1) u w

inductive Stops (t : FileTree) : Tour → Error → Prop
  | lost {entered : List Location} {files pending : List Path} {directory : Path}
      {fault : FileFault}
      (missing : t.entry directory = .error fault) :
      Stops t ⟨entered, files, directory :: pending⟩ (.file fault)
  | plain {entered : List Location} {files pending : List Path} {directory : Path} {l : Location}
      {e : Entry} (leads : t.entry directory = .ok (l, e)) (other : e ≠ .directory) :
      Stops t ⟨entered, files, directory :: pending⟩ (.file .notADirectory)
  | unread {entered : List Location} {files pending : List Path} {directory : Path} {l : Location}
      {err : Error} (leads : t.entry directory = .ok (l, .directory)) (new : l ∉ entered)
      (failed : t.contents directory (t.children l) = .error err) :
      Stops t ⟨entered, files, directory :: pending⟩ err

/-- What comes of a walk: all files when nothing is left to be entered, or what has stopped it. -/
inductive Ends (t : FileTree) (u : Tour) : Except Error (List Path) → Prop
  | whole {n : Nat} {entered : List Location} {files : List Path}
      (turns : Turns t n u ⟨entered, files, []⟩) : Ends t u (.ok files)
  | stopped {n : Nat} {w : Tour} {err : Error} (turns : Turns t n u w) (stops : Stops t w err) :
      Ends t u (.error err)

theorem Ends.turn {t : FileTree} {u v : Tour} {result : Except Error (List Path)}
    (turn : Turn t u v) (ends : Ends t v result) : Ends t u result := by
  cases ends with
  | whole turns => exact .whole (.more turn turns)
  | stopped turns stops => exact .stopped (.more turn turns) stops

end Tour

open Tour

section Bound
variable {t : FileTree} {directory : Path} {found : Contents} {entries : List (String × Entry)}

theorem contents_sublists (run : t.contents directory entries = .ok found) :
    found.below.Sublist (entries.map fun c => directory.join ⟨false, [c.1]⟩) ∧
      found.files.Sublist (entries.map fun c => directory.join ⟨false, [c.1]⟩) := by
  induction entries generalizing found with
  | nil =>
    cases run
    simp
  | cons c entries ih =>
    obtain ⟨e, rest, _, others, rfl⟩ := contents_cons_ok run
    obtain ⟨below, files⟩ := ih others
    cases e with
    | directory => exact ⟨below.cons_cons _, files.cons _⟩
    | file bytes => exact ⟨below.cons _, files.cons_cons _⟩
    | link target => exact ⟨below.cons _, files.cons _⟩

theorem countP_add_le {α : Type} {p q r : α → Bool} (first : ∀ x, p x = true → r x = true)
    (second : ∀ x, q x = true → r x = true) (apart : ∀ x, p x = true → q x = false) (xs : List α) :
    xs.countP p + xs.countP q ≤ xs.countP r := by
  induction xs with
  | nil => simp
  | cons x xs ih =>
    have one := first x
    have two := second x
    have other := apart x
    simp only [List.countP_cons]
    cases here : p x with
    | true =>
      rw [one here, other here]
      simp
      omega
    | false =>
      cases there : q x with
      | true =>
        rw [two there]
        simp
        omega
      | false =>
        simp
        omega

theorem children_sublist (t : FileTree) (l : Location) :
    ((t.children l).map fun c => l ++ [c.1]).Sublist (t.entries.map Prod.fst) := by
  unfold children
  induction t.entries with
  | nil => exact .slnil
  | cons e entries ih =>
    rw [List.filterMap_cons, List.map_cons]
    split
    · exact ih.cons _
    · rename_i c child
      split at child
      · split at child
        · rename_i name last same
          cases child
          rw [List.map_cons, same]
          exact ih.cons_cons _
        · cases child
      · cases child

def unspent (t : FileTree) (entered : List Location) : Nat :=
  t.entries.countP fun e => !entered.contains e.1.dropLast

theorem unspent_enter {entered : List Location} {l : Location} (new : l ∉ entered) :
    (t.children l).length + t.unspent (l :: entered) ≤ t.unspent entered := by
  have own : (t.children l).length ≤ t.entries.countP fun e => e.1.dropLast == l := by
    have part := (children_sublist t l).countP_le (p := fun m => m.dropLast == l)
    rw [List.countP_map, List.countP_map] at part
    have each : ∀ c ∈ t.children l, ((fun m => m.dropLast == l) ∘ fun c => l ++ [c.1]) c = true := by
      intro c _
      simp
    rw [List.countP_eq_length.mpr each] at part
    exact part
  refine (Nat.add_le_add_right own _).trans (countP_add_le ?_ ?_ ?_ _)
  · intro e here
    rw [eq_of_beq here]
    simpa using new
  · intro e outside
    simp only [List.contains_cons, Bool.not_or, Bool.and_eq_true] at outside
    exact outside.2
  · intro e here
    rw [List.contains_cons, here]
    rfl

/-- No more turns are left than paths to be entered and entries that were not seen. -/
def effort (t : FileTree) (u : Tour) : Nat := u.pending.length + t.unspent u.entered

theorem Tour.Turn.effort {u v : Tour} (turn : Turn t u v) : t.effort v < t.effort u := by
  cases turn with
  | @enter entered files pending directory l found leads new contributed =>
    have below := (contents_sublists contributed).1.length_le
    have spent := unspent_enter (t := t) new
    rw [List.length_map] at below
    simp only [FileTree.effort, List.length_append, List.length_reverse, List.length_cons]
    omega
  | skip leads old =>
    simp only [FileTree.effort, List.length_cons]
    omega

theorem Tour.Turns.effort {n : Nat} {u v : Tour} (turns : Turns t n u v) :
    n + t.effort v ≤ t.effort u := by
  induction turns with
  | none => omega
  | more turn rest ih =>
    have less := turn.effort
    omega

theorem Tour.Turn.once {u v : Tour} (turn : Turn t u v) (once : u.entered.Nodup) :
    v.entered.Nodup := by
  cases turn with
  | enter leads new contributed => exact once.cons new
  | skip leads old => exact once

theorem Tour.Turns.once {n : Nat} {u v : Tour} (turns : Turns t n u v) (once : u.entered.Nodup) :
    v.entered.Nodup := by
  induction turns with
  | none => exact once
  | more turn rest ih => exact ih (turn.once once)

theorem effort_start (t : FileTree) (root : Path) :
    t.effort (.start root) ≤ t.entries.length + 1 := by
  have unspent : t.unspent [] ≤ t.entries.length := List.countP_le_length
  simp only [effort, start, List.length_singleton]
  omega

end Bound

section Tidy
variable {t : FileTree} {root : Path}

/-- A file of a directory that was entered, listed by the way by which it was entered. -/
def Noted (t : FileTree) (root : Path) (entered : List Location) (p : Path) : Prop :=
  ∃ qs n l m bytes, p = root.descend (qs ++ [n]) ∧ (∀ s ∈ qs ++ [n], Path.isName s = true) ∧
    t.entry (root.descend qs) = .ok (l, .directory) ∧ l ∈ entered ∧ t.entry p = .ok (m, .file bytes)

structure Tidy (t : FileTree) (root : Path) (u : Tour) : Prop where
  waits : ∀ p ∈ u.pending, ∃ qs l, p = root.descend qs ∧ (∀ s ∈ qs, Path.isName s = true) ∧
    t.entry p = .ok (l, .directory)
  noted : ∀ p ∈ u.files, t.Noted root u.entered p
  distinct : (u.files.map Path.components).Nodup

theorem Sound.children_nodup (sound : t.Sound) (l : Location) :
    ((t.children l).map Prod.fst).Nodup := by
  have distinct := (children_sublist t l).nodup sound.distinct
  rw [List.Nodup, List.pairwise_map] at distinct ⊢
  apply distinct.imp
  intro c d other same
  exact other (by rw [same])

theorem files_distinct (sound : t.Sound) {directory : Path} {l : Location} {found : Contents}
    (run : t.contents directory (t.children l) = .ok found) :
    (found.files.map Path.components).Nodup := by
  have part := (contents_sublists run).2.map Path.components
  apply part.nodup
  rw [List.map_map, List.Nodup, List.pairwise_map]
  have names := sound.children_nodup l
  rw [List.Nodup, List.pairwise_map] at names
  apply names.imp_of_mem
  intro c d inside there other same
  have spelled (c : String × Entry) (inside : c ∈ t.children l) :
      (directory.join ⟨false, [c.1]⟩).components = directory.components ++ named [c.1] := by
    have name := sound.names (sound.mem_children.mp inside)
    apply Path.components_join
    apply Path.components_names
    intro n member
    rw [List.mem_singleton.mp member]
    exact name c.1 (by simp)
  dsimp only [Function.comp_apply] at same
  rw [spelled c inside, spelled d there] at same
  have one := Path.named_injective (List.append_cancel_left same)
  exact other (List.cons.inj one).1

theorem Tour.Turn.tidy (sound : t.Sound) {u v : Tour} (turn : Turn t u v) (tidy : t.Tidy root u) :
    t.Tidy root v := by
  cases turn with
  | skip leads old =>
    exact ⟨fun p inside => tidy.waits p (List.mem_cons_of_mem _ inside), tidy.noted, tidy.distinct⟩
  | @enter entered files pending directory l found leads new contributed =>
    obtain ⟨qs, _, rfl, names, _⟩ := tidy.waits _ List.mem_cons_self
    have contributes := contents_of_children sound leads contributed
    have further {n : String} {e : Entry} (stands : t.find? (l ++ [n]) = some e) :
        ∀ s ∈ qs ++ [n], Path.isName s = true := by
      intro s member
      rcases List.mem_append.mp member with before | last
      · exact names s before
      · exact sound.names stands s (List.mem_append_right _ last)
    constructor
    case waits =>
      intro p inside
      rcases List.mem_append.mp inside with below | waiting
      · obtain ⟨n, e, stands, spelled, m, house⟩ := (contributes p).1.mp (List.mem_reverse.mp below)
        rw [Path.descend_name root names] at spelled
        exact ⟨qs ++ [n], m, spelled, further stands, house⟩
      · exact tidy.waits p (List.mem_cons_of_mem _ waiting)
    case noted =>
      intro p inside
      rcases List.mem_append.mp inside with before | here
      · obtain ⟨qs', n, l', m, bytes, spelled, names', house, old, file⟩ := tidy.noted p before
        exact ⟨qs', n, l', m, bytes, spelled, names', house, List.mem_cons_of_mem _ old, file⟩
      · obtain ⟨n, e, stands, spelled, m, bytes, file⟩ := (contributes p).2.mp here
        rw [Path.descend_name root names] at spelled
        exact ⟨qs, n, l, m, bytes, spelled, further stands, leads, List.mem_cons_self, file⟩
    case distinct =>
      dsimp only
      rw [List.map_append]
      apply tidy.distinct.append (files_distinct sound contributed)
      -- A file found before stands in a directory entered before, so by other names.
      intro cs before here
      obtain ⟨p, old, rfl⟩ := List.mem_map.mp before
      obtain ⟨q, there, same⟩ := List.mem_map.mp here
      obtain ⟨qs', n', l', _, _, rfl, names', house, visited, _⟩ := tidy.noted p old
      obtain ⟨n, e, stands, spelled, _⟩ := (contributes q).2.mp there
      rw [Path.descend_name root names] at spelled
      rw [spelled, Path.components_descend root (further stands),
        Path.components_descend root names'] at same
      have whole := Path.named_injective (List.append_cancel_left same)
      obtain ⟨rfl, _⟩ := List.append_inj' whole rfl
      rw [leads] at house
      cases house
      exact new visited

theorem Tour.Turns.tidy (sound : t.Sound) {n : Nat} {u v : Tour} (turns : Turns t n u v)
    (tidy : t.Tidy root u) : t.Tidy root v := by
  induction turns with
  | none => exact tidy
  | more turn rest ih => exact ih (turn.tidy sound tidy)

theorem tidy_start {R : Location} (there : t.entry root = .ok (R, .directory)) :
    t.Tidy root (.start root) where
  waits p inside := by
    obtain rfl := List.mem_singleton.mp inside
    exact ⟨[], R, rfl, nofun, there⟩
  noted := nofun
  distinct := .nil

end Tidy

section Stop
variable {t : FileTree} {root : Path}

/-- By the path that goes through these names a link is met that leads nowhere. -/
def Dangles (t : FileTree) (root : Path) (qs : List String) (n : String)
    (fault : FileFault) : Prop :=
  ∃ l target, t.entry (root.descend qs) = .ok (l, .directory) ∧
    t.find? (l ++ [n]) = some (.link target) ∧
    t.entry (root.descend (qs ++ [n])) = .error fault

/-- A walk stops at nothing else. -/
theorem Tidy.stops (sound : t.Sound) {u : Tour} {err : Error} (tidy : t.Tidy root u)
    (stops : Stops t u err) : ∃ qs n fault, t.Dangles root qs n fault ∧
      err = (Error.file fault).within (root.descend (qs ++ [n])).text := by
  cases stops with
  | lost missing =>
    obtain ⟨_, _, _, _, leads⟩ := tidy.waits _ List.mem_cons_self
    rw [missing] at leads
    cases leads
  | plain found other =>
    obtain ⟨_, _, _, _, leads⟩ := tidy.waits _ List.mem_cons_self
    rw [found] at leads
    cases leads
    exact absurd rfl other
  | @unread _ _ _ directory l _ leads new failed =>
    obtain ⟨qs, _, rfl, names, _⟩ := tidy.waits _ List.mem_cons_self
    obtain ⟨n, target, fault, inside, nowhere, rfl⟩ := contents_error failed
    rw [Path.descend_name root names] at nowhere ⊢
    exact ⟨qs, n, fault, ⟨l, target, leads, sound.mem_children.mp inside, nowhere⟩, rfl⟩

end Stop

section Run
variable {t : FileTree} {root : Path}

/-- Where what was not entered is told by what is left to be entered. -/
theorem ends_listFrom (sound : t.Sound) {unvisited entered : List Location}
    {files pending : List Path} (once : unvisited.Nodup)
    (agree : ∀ l, t.find? l = some .directory → (l ∈ unvisited ↔ l ∉ entered)) :
    Ends t ⟨entered, files, pending⟩ (t.listFrom unvisited files pending) := by
  fun_induction t.listFrom unvisited files pending generalizing entered with
  | case1 unvisited files => exact .whole .none
  | case2 unvisited files directory pending fault missing => exact .stopped .none (.lost missing)
  | case3 unvisited files directory pending l bytes leads =>
    exact .stopped .none (.plain leads (by simp))
  | case4 unvisited files directory pending l target leads =>
    exact .stopped .none (.plain leads (by simp))
  | case5 unvisited files directory pending l leads visited err failed =>
    have new := (agree l (find?_of_entry sound leads)).mp visited
    exact .stopped .none (.unread leads new failed)
  | case6 unvisited files directory pending l leads visited found contributed ih =>
    have new := (agree l (find?_of_entry sound leads)).mp visited
    apply Ends.turn (.enter leads new contributed)
    apply ih (once.erase l)
    intro m there
    rw [once.mem_erase_iff, agree m there, List.mem_cons, not_or]
  | case7 unvisited files directory pending l leads gone ih =>
    have old : l ∈ entered := by
      by_contra new
      exact gone ((agree l (find?_of_entry sound leads)).mpr new)
    exact Ends.turn (.skip leads old) (ih once agree)

theorem ends_start (sound : t.Sound) (root : Path) :
    Ends t (.start root) (t.listFrom t.directories [] [root]) := by
  apply ends_listFrom sound (directories_nodup sound)
  intro l there
  simp [mem_directories there]

theorem directory_of_turns {n : Nat} {entered : List Location} {files : List Path}
    (turns : Turns t n (.start root) ⟨entered, files, []⟩) :
    ∃ R, t.entry root = .ok (R, .directory) := by
  cases turns with
  | more turn rest =>
    cases turn with
    | enter leads _ _ => exact ⟨_, leads⟩
    | skip leads _ => exact ⟨_, leads⟩

end Run

/-- However many links there are, and wherever they lead, a walk ends: it takes at most one turn
more than the tree has entries, and enters no directory twice. What it lists is strictly sorted, and
each path in it stands below the root and leads to a file. From a root that is a directory it fails
only where it meets a link that leads nowhere by the path that the walk has taken. -/
theorem listing_ends {t : FileTree} {root : Path} (sound : t.Sound) :
    (∀ n u, Turns t n (.start root) u → n ≤ t.entries.length + 1 ∧ u.entered.Nodup) ∧
    (∀ listed, t.listFiles root = .ok listed →
      (∃ n entered files, Turns t n (.start root) ⟨entered, files, []⟩ ∧ listed.Perm files) ∧
      listed.Pairwise (fun p q => p.compare q = .lt) ∧ listed.Nodup ∧
      ∀ p ∈ listed, (∃ ns, ns ≠ [] ∧ p.components = root.components ++ named ns) ∧
        ∃ l bytes, t.entry p = .ok (l, .file bytes)) ∧
    ∀ R err, t.entry root = .ok (R, .directory) → t.listFiles root = .error err →
      ∃ n u qs name fault, Turns t n (.start root) u ∧ Stops t u err ∧
        t.Dangles root qs name fault ∧
        err = (Error.file fault).within (root.descend (qs ++ [name])).text := by
  have ends := ends_start sound root
  refine ⟨?_, ?_, ?_⟩
  · intro n u turns
    have left := turns.effort
    have whole := effort_start t root
    exact ⟨by omega, turns.once .nil⟩
  · intro listed run
    obtain ⟨files, walked, sorted⟩ := bind_ok_iff.mp run
    cases sorted
    rw [walked] at ends
    cases ends with
    | @whole n entered _ turns =>
      obtain ⟨R, there⟩ := directory_of_turns turns
      have tidy := turns.tidy sound (tidy_start there)
      have strict := Path.strictly_sorted tidy.distinct
      have perm := List.mergeSort_perm files fun p q => (p.compare q).isLE
      refine ⟨⟨n, entered, files, turns, perm⟩, strict, ?_, ?_⟩
      · exact perm.nodup_iff.mpr (.of_map _ tidy.distinct)
      · intro p inside
        obtain ⟨qs, name, _, m, bytes, spelled, names, _, _, file⟩ :=
          tidy.noted p (perm.mem_iff.mp inside)
        refine ⟨⟨qs ++ [name], by simp, ?_⟩, m, bytes, file⟩
        rw [spelled, Path.components_descend root names]
  · intro R err there run
    rcases bind_error_iff.mp run with failed | ⟨_, _, done⟩
    · rw [failed] at ends
      cases ends with
      | @stopped n u _ turns stops =>
        have tidy := turns.tidy sound (tidy_start there)
        obtain ⟨qs, name, fault, dangles, message⟩ := tidy.stops sound stops
        exact ⟨n, u, qs, name, fault, turns, stops, dangles, message⟩
    · cases done

theorem crossed_ends :
    (crossed "p" "q").listFiles (.parse "/in") = .ok [.parse "/in/q/m/g", .parse "/in/q/z/m"] ∧
    (∀ n u, Turns (crossed "p" "q") n (.start (.parse "/in")) u → n ≤ 9 ∧ u.entered.Nodup) ∧
    [Path.parse "/in/q/m/g", Path.parse "/in/q/z/m"].Pairwise (fun p q => p.compare q = .lt) ∧
    ∃ l bytes, (crossed "p" "q").entry (.parse "/in/q/z/m") = .ok (l, .file bytes) := by
  have sound : (crossed "p" "q").Sound := by decide
  have run : (crossed "p" "q").listFiles (.parse "/in") =
      .ok [.parse "/in/q/m/g", .parse "/in/q/z/m"] := by cbv
  obtain ⟨bounded, lists, _⟩ := @listing_ends _ (.parse "/in") sound
  obtain ⟨_, strict, _, each⟩ := lists _ run
  exact ⟨run, bounded, strict, (each (.parse "/in/q/z/m") (by simp)).2⟩

/-- Each link leads somewhere by its own path. -/
def Firm (t : FileTree) : Prop :=
  ∀ l target, t.find? l = some (.link target) → ∃ x, t.entry ⟨true, l⟩ = .ok x

def detour : FileTree :=
  ⟨[(["in"], .directory), (["in", "a"], .link (.parse ".")),
    (["in", "b"], .link ⟨false, List.replicate 30 "a" ++ ["..", "far"]⟩), (["far"], .directory),
    (["far", "f"], .file [1]),
    (["far", "c"], .link ⟨false, ["..", "in"] ++ List.replicate 30 "a" ++ ["..", "far"]⟩)], []⟩

/-- On the path through two of its links there are more than may be followed. -/
theorem detour_unlisted : detour.Sound ∧ detour.Firm ∧
    detour.entry (.parse "/in") = .ok (["in"], .directory) ∧
    detour.listFiles (.parse "/in") = .error (.inUnit "/in/b/c" (.file .linkLoop)) := by
  refine ⟨by decide, ?_, by cbv, by cbv⟩
  intro l target found
  have more : l ≠ [] := by
    rintro rfl
    cases found
  have inside := mem_of_find? more found
  simp only [detour, List.mem_cons, Prod.mk.injEq, reduceCtorEq, and_false, false_or,
    List.not_mem_nil, or_false] at inside
  rcases inside with ⟨rfl, _⟩ | ⟨rfl, _⟩ | ⟨rfl, _⟩
  · exact ⟨(["in"], .directory), by cbv⟩
  · exact ⟨(["far"], .directory), by cbv⟩
  · exact ⟨(["far"], .directory), by cbv⟩

end FileTree
end ClassHooks
