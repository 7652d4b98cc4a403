import ClassHooks.Files.Tree
import Mathlib.Data.List.Infix
import Mathlib.Data.List.Nodup

/-!
File trees as maps: what is found at a location after each change. In a sound tree every entry has a
name and stands in a directory, so that nothing stands below a file. All changes keep trees sound.
-/
namespace ClassHooks

def Path.isName (segment : String) : Bool := segment ≠ "" && segment ≠ "." && segment ≠ ".."

theorem Path.isName_iff {s : String} : isName s = true ↔ s ≠ "" ∧ s ≠ "." ∧ s ≠ ".." := by
  simp [isName, and_assoc]

namespace FileTree

def fileAt (t : FileTree) (location : Location) : Option Bytes :=
  match t.find? location with
  | some (.file bytes) => some bytes
  | _ => none

theorem fileAt_eq_some_iff {t : FileTree} {l : Location} {bytes : Bytes} :
    t.fileAt l = some bytes ↔ t.find? l = some (.file bytes) := by
  unfold fileAt
  split
  · rename_i other found
    simp [found]
  · rename_i other
    simpa using other bytes

theorem fileAt_congr {t u : FileTree} {l m : Location} (same : t.find? l = u.find? m) :
    t.fileAt l = u.fileAt m := by
  unfold fileAt
  rw [same]

theorem find?_root (t : FileTree) : t.find? [] = some .directory := rfl

theorem find?_of_ne {t : FileTree} {l : Location} (inside : l ≠ []) :
    t.find? l = t.entries.lookup l := if_neg inside

theorem isDirectoryAt_iff {t : FileTree} {l : Location} :
    t.isDirectoryAt l = true ↔ t.find? l = some .directory := beq_iff_eq

theorem lookup_cons_entry (m l : Location) (e : Entry) (entries : List (Location × Entry)) :
    ((m, e) :: entries).lookup l = if l = m then some e else entries.lookup l := by
  rw [List.lookup_cons]
  by_cases same : l = m
  · simp [same]
  · rw [beq_false_of_ne same, if_neg same]

theorem lookup_map_entry (entries : List (Location × Entry)) (location l : Location) (e : Entry) :
    (entries.map fun f => if f.1 = location then (f.1, e) else f).lookup l =
      if l = location then (entries.lookup l).map fun _ => e else entries.lookup l := by
  induction entries with
  | nil => simp
  | cons f entries ih =>
    obtain ⟨m, g⟩ := f
    have head : (if (m, g).1 = location then ((m, g).1, e) else (m, g)) =
        (m, if m = location then e else g) := by
      dsimp only
      split <;> rfl
    rw [List.map_cons, head, lookup_cons_entry, lookup_cons_entry, ih]
    by_cases sought : l = m
    · subst sought
      by_cases here : l = location <;> simp [here]
    · simp only [if_neg sought]

theorem lookup_filter_entry (entries : List (Location × Entry)) (keep : Location → Bool)
    (l : Location) : (entries.filter fun f => keep f.1).lookup l =
      if keep l then entries.lookup l else none := by
  induction entries with
  | nil => simp
  | cons f entries ih =>
    obtain ⟨m, g⟩ := f
    rw [List.filter_cons, lookup_cons_entry]
    by_cases sought : l = m
    · subst sought
      by_cases kept : keep l = true
      · rw [if_pos kept, lookup_cons_entry, if_pos rfl, if_pos kept, if_pos rfl]
      · rw [if_neg kept, ih, if_neg kept, if_neg kept]
    · rw [if_neg sought, ← ih]
      split
      · rw [lookup_cons_entry, if_neg sought]
      · rfl

theorem find?_congr {t u : FileTree} {zone l : Location} (proper : zone ≠ [])
    (same : (t.entries.filter fun e => zone.isPrefixOf e.1) =
      u.entries.filter fun e => zone.isPrefixOf e.1) (inside : zone <+: l) :
    t.find? l = u.find? l := by
  have more : l ≠ [] := by
    rintro rfl
    exact proper (List.prefix_nil.mp inside)
  have kept : zone.isPrefixOf l = true := by rwa [ List.isPrefixOf_iff_prefix]
  have one := lookup_filter_entry t.entries (zone.isPrefixOf ·) l
  have two := lookup_filter_entry u.entries (zone.isPrefixOf ·) l
  rw [if_pos kept] at one two
  rw [find?_of_ne more, find?_of_ne more, ← one, ← two, same]

section Changes
variable (t : FileTree) {location : Location}

@[simp] theorem insert_home (e : Entry) :
    (t.insert location e).workingDirectory = t.workingDirectory := by
  unfold insert
  split <;> rfl

theorem find?_insert (inside : location ≠ []) (e : Entry) (l : Location) :
    (t.insert location e).find? l = if l = location then some e else t.find? l := by
  by_cases root : l = []
  · subst root
    rw [if_neg (Ne.symm inside)]
    rfl
  unfold insert
  rw [find?_of_ne root]
  split
  · rename_i there
    dsimp only
    rw [lookup_map_entry, ← find?_of_ne root]
    split
    · rename_i same
      subst same
      rw [Option.isSome_iff_exists] at there
      obtain ⟨old, found⟩ := there
      rw [found]
      rfl
    · rfl
  · rename_i absent
    rw [Option.not_isSome_iff_eq_none, find?_of_ne inside] at absent
    dsimp only
    rw [List.lookup_append, ← find?_of_ne root]
    by_cases same : l = location
    · subst same
      rw [find?_of_ne root, absent, if_pos rfl]
      simp
    · rw [if_neg same]
      simp [List.lookup_cons, beq_false_of_ne same]

theorem find?_eraseTree (l : Location) :
    (t.eraseTree location).find? l = if l ≠ [] ∧ location <+: l then none else t.find? l := by
  by_cases root : l = []
  · subst root
    rfl
  rw [find?_of_ne root, find?_of_ne root]
  unfold eraseTree
  dsimp only
  rw [lookup_filter_entry t.entries (fun m => !location.isPrefixOf m)]
  by_cases below : location <+: l
  · simp [root, below, List.isPrefixOf_iff_prefix.mpr below]
  · have other : location.isPrefixOf l = false := by
      rw [Bool.eq_false_iff]
      exact fun yes => below ( List.isPrefixOf_iff_prefix.mp yes)
    simp [root, below, other]

end Changes

/-- Entries have names of their own, and stand in directories. -/
structure Sound (t : FileTree) : Prop where
  distinct : (t.entries.map Prod.fst).Nodup
  named : ∀ e ∈ t.entries, e.1 ≠ [] ∧ ∀ n ∈ e.1, Path.isName n = true
  housed : ∀ (l : Location) (n : String) (e : Entry),
    t.find? (l ++ [n]) = some e → t.find? l = some .directory

theorem mem_of_find? {t : FileTree} {l : Location} {e : Entry} (inside : l ≠ [])
    (found : t.find? l = some e) : (l, e) ∈ t.entries := by
  rw [find?_of_ne inside] at found
  obtain ⟨_, _, split, _⟩ := List.lookup_eq_some_iff.mp found
  rw [split]
  simp

theorem lookup_of_mem {entries : List (Location × Entry)} (distinct : (entries.map Prod.fst).Nodup)
    {l : Location} {e : Entry} (member : (l, e) ∈ entries) : entries.lookup l = some e := by
  induction entries with
  | nil => cases member
  | cons f entries ih =>
    rw [List.map_cons, List.nodup_cons] at distinct
    rcases List.mem_cons.mp member with rfl | later
    · simp
    · have other : l ≠ f.1 := by
        rintro rfl
        exact distinct.1 (List.mem_map.mpr ⟨_, later, rfl⟩)
      rw [List.lookup_cons, beq_false_of_ne other]
      exact ih distinct.2 later

namespace Sound
variable {t : FileTree} (sound : t.Sound)
include sound

theorem find?_of_mem {l : Location} {e : Entry} (member : (l, e) ∈ t.entries) :
    t.find? l = some e := by
  rw [find?_of_ne (sound.named _ member).1]
  exact lookup_of_mem sound.distinct member

theorem names {l : Location} {e : Entry} (found : t.find? l = some e) :
    ∀ n ∈ l, Path.isName n = true := by
  by_cases root : l = []
  · subst root
    exact nofun
  · exact (sound.named _ (mem_of_find? root found)).2

theorem above {l m : Location} {e : Entry} (found : t.find? m = some e) (below : l <+: m)
    (strict : l ≠ m) : t.find? l = some .directory := by
  obtain ⟨rest, rfl⟩ := below
  induction rest using List.reverseRecOn generalizing e with
  | nil => simp at strict
  | append_singleton rest n ih =>
    rw [← List.append_assoc] at found
    have parent := sound.housed _ n e found
    by_cases last : rest = []
    · subst last
      simpa using parent
    · exact ih parent (by simpa using last)

theorem dropLast {l : Location} (there : t.find? l = some .directory) :
    t.find? l.dropLast = some .directory := by
  by_cases root : l = []
  · rw [root]
    rfl
  · rw [← List.dropLast_append_getLast root] at there
    exact sound.housed _ _ _ there

theorem blank_below {l m : Location} {bytes : Bytes} (found : t.find? l = some (.file bytes))
    (below : l <+: m) (strict : l ≠ m) : t.find? m = none := by
  cases there : t.find? m with
  | none => rfl
  | some e =>
    rw [sound.above there below strict] at found
    cases found

theorem vacant_below {l m : Location} (absent : t.find? l = none) (below : l <+: m) :
    t.find? m = none := by
  cases there : t.find? m with
  | none => rfl
  | some e =>
    by_cases same : l = m
    · rw [same, there] at absent
      cases absent
    · rw [sound.above there below same] at absent
      cases absent

theorem insert_distinct (l : Location) (e : Entry) :
    ((t.insert l e).entries.map Prod.fst).Nodup := by
  unfold FileTree.insert
  split
  · have same : (t.entries.map fun f => if f.1 = l then (f.1, e) else f).map Prod.fst =
        t.entries.map Prod.fst := by
      rw [List.map_map]
      refine List.map_congr_left fun f _ => ?_
      dsimp only [Function.comp]
      split <;> rfl
    dsimp only
    rw [same]
    exact sound.distinct
  · rename_i absent
    rw [Option.not_isSome_iff_eq_none] at absent
    dsimp only
    rw [List.map_append, List.nodup_append]
    refine ⟨sound.distinct, by simp, ?_⟩
    rintro m member m' single rfl
    obtain ⟨f, there, rfl⟩ := List.mem_map.mp member
    have here : f.1 = l := by simpa using single
    rw [← here, sound.find?_of_mem there] at absent
    cases absent

theorem insert_named {l : Location} (proper : l ≠ [] ∧ ∀ n ∈ l, Path.isName n = true) (e : Entry) :
    ∀ f ∈ (t.insert l e).entries, f.1 ≠ [] ∧ ∀ n ∈ f.1, Path.isName n = true := by
  unfold FileTree.insert
  split
  · intro f member
    obtain ⟨g, there, rfl⟩ := List.mem_map.mp member
    have old := sound.named g there
    split <;> exact old
  · intro f member
    rcases List.mem_append.mp member with old | last
    · exact sound.named f old
    · obtain rfl := List.mem_singleton.mp last
      exact proper

theorem insert {directory : Location} {n : String} {e : Entry} (name : Path.isName n = true)
    (parent : t.find? directory = some .directory)
    (free : e = .directory ∨ t.find? (directory ++ [n]) ≠ some .directory) :
    (t.insert (directory ++ [n]) e).Sound := by
  have inside : directory ++ [n] ≠ [] := by simp
  refine ⟨sound.insert_distinct _ e, sound.insert_named ⟨inside, fun m member => ?_⟩ e, ?_⟩
  · rcases List.mem_append.mp member with old | last
    · exact sound.names parent m old
    · rw [List.mem_singleton.mp last]
      exact name
  · intro l m f found
    rw [find?_insert _ inside] at found ⊢
    split at found
    · rename_i same
      obtain ⟨rfl, -⟩ := List.append_inj' same rfl
      rw [if_neg (by simp), parent]
    · have held := sound.housed l m f found
      split
      · rename_i same
        subst same
        rcases free with rfl | other
        · rfl
        · exact absurd held other
      · exact held

theorem eraseTree (location : Location) : (t.eraseTree location).Sound := by
  refine ⟨?_, ?_, ?_⟩
  · exact sound.distinct.sublist (List.filter_sublist.map _)
  · exact fun e member => sound.named e (List.mem_filter.mp member).1
  · intro l n e found
    rw [find?_eraseTree] at found ⊢
    split at found
    · cases found
    · rename_i outside
      rw [sound.housed l n e found, if_neg]
      rintro ⟨-, inside⟩
      exact outside ⟨by simp, inside.trans (List.prefix_append l [n])⟩

theorem erase_eq_eraseTree {location : Location} (leaf : t.find? location ≠ some .directory) :
    t.erase location = t.eraseTree location := by
  unfold FileTree.erase FileTree.eraseTree
  congr 1
  refine List.filter_congr fun e member => ?_
  by_cases same : e.1 = location
  · simp [same]
  · have apart : ¬ location <+: e.1 := fun below =>
      leaf (sound.above (sound.find?_of_mem member) below (Ne.symm same))
    have none : location.isPrefixOf e.1 = false := by
      rw [Bool.eq_false_iff]
      exact fun yes => apart (List.isPrefixOf_iff_prefix.mp yes)
    simp [same, none]

theorem erase {location : Location} (leaf : t.find? location ≠ some .directory) :
    (t.erase location).Sound := by
  rw [sound.erase_eq_eraseTree leaf]
  exact sound.eraseTree location

end Sound

theorem sound_iff {t : FileTree} : t.Sound ↔ (t.entries.map Prod.fst).Nodup ∧
    (∀ e ∈ t.entries, e.1 ≠ [] ∧ ∀ n ∈ e.1, Path.isName n = true) ∧
    ∀ e ∈ t.entries, t.find? e.1.dropLast = some .directory := by
  constructor
  · intro sound
    refine ⟨sound.distinct, sound.named, fun e inside => ?_⟩
    have found := sound.find?_of_mem inside
    rw [← List.dropLast_append_getLast (sound.named e inside).1] at found
    exact sound.housed _ _ _ found
  · rintro ⟨distinct, named, housed⟩
    refine ⟨distinct, named, fun l n e found => ?_⟩
    have house := housed _ (mem_of_find? (by simp) found)
    rwa [List.dropLast_concat] at house

instance (t : FileTree) : Decidable t.Sound := decidable_of_iff _ sound_iff.symm

end FileTree

def Entry.isLink : Entry → Bool
  | .link _ => true
  | _ => false

theorem FileTree.linkless_of_entries {t : FileTree} (none : ∀ e ∈ t.entries, e.2.isLink = false)
    (l : Location) (target : Path) : t.find? l ≠ some (.link target) := by
  intro found
  by_cases root : l = []
  · rw [root, find?_root] at found
    cases found
  · cases none _ (mem_of_find? root found)

end ClassHooks
