import ClassHooks.Proofs.Build.Order
import ClassHooks.Proofs.Build.Repacking
import ClassHooks.Proofs.Failure
import ClassHooks.Proofs.Files.Parsing

/-!
Loose files and the entries of a jar are woven alike. Both are told by their names to be classes or
resources; the two ways to tell agree but for a name that is an extension and nothing else. What is
told alike fails alike, and is stored and counted alike.
-/
namespace ClassHooks

open ClassHooks.Path (named)

namespace Path

theorem last_of_endsNamed {p : Path} {ms : List String} {n : String}
    (spelled : p.components = named (ms ++ [n])) (ends : FileTree.EndsNamed p.segments) :
    p.segments.getLast? = some n := by
  have names : significant p.segments = ms ++ [n] := by
    rw [significant_segments, spelled, filterMap_named]
  rcases List.eq_nil_or_concat' p.segments with empty | ⟨front, s, split⟩
  · rw [empty] at names
    simp [significant] at names
  · have last : p.segments.getLast? = some s := by simp [split]
    have name := isName_iff.mp (ends s last)
    have here : significant (front ++ [s]) = significant front ++ [s] := by
      simp [significant, name]
    rw [split, here] at names
    obtain ⟨_, same⟩ := List.append_inj' names rfl
    cases same
    exact last

theorem extension_eq_iff {p : Path} {cs : List Component} {n e : String}
    (spelled : p.components = cs ++ [.normal n]) (plain : '.' ∉ e.toList) :
    p.extension? = some e ↔ '.' :: e.toList <:+ n.toList ∧ n.toList ≠ '.' :: e.toList := by
  have name : p.fileName? = some n := by simp [fileName?, spelled]
  have undotted : ∀ c ∈ e.toList.reverse, (decide (c ≠ '.')) = true := by
    intro c inside
    rw [decide_eq_true_eq]
    rintro rfl
    exact plain (List.mem_reverse.mp inside)
  unfold extension?
  rw [name]
  dsimp only
  constructor
  · intro found
    have whole := List.takeWhile_append_dropWhile (p := (· ≠ '.')) (l := n.toList.reverse)
    split at found
    · cases found
    · cases found
    · rename_i x y rest dropped
      have dot : x = '.' := by
        have first := List.head?_dropWhile_not (· ≠ '.') n.toList.reverse
        rw [dropped] at first
        simpa using first
      have ext := congrArg String.toList (Option.some.inj found)
      rw [String.toList_ofList] at ext
      rw [dropped, dot] at whole
      have split := congrArg List.reverse whole
      rw [List.reverse_append, List.reverse_reverse, ext] at split
      rw [← split]
      refine ⟨⟨(y :: rest).reverse, by simp⟩, fun same => ?_⟩
      have length := congrArg List.length same
      simp at length
      omega
  · rintro ⟨⟨stem, split⟩, proper⟩
    have more : stem ≠ [] := by
      rintro rfl
      exact proper split.symm
    obtain ⟨above, c, rfl⟩ := (List.eq_nil_or_concat' stem).resolve_left more
    have backward : n.toList.reverse = e.toList.reverse ++ '.' :: c :: above.reverse := by
      rw [← split]
      simp
    have taken : n.toList.reverse.takeWhile (· ≠ '.') = e.toList.reverse := by
      rw [backward, List.takeWhile_append_of_pos undotted]
      simp
    have dropped : n.toList.reverse.dropWhile (· ≠ '.') = '.' :: c :: above.reverse := by
      rw [backward, List.dropWhile_append_of_pos undotted]
      simp
    rw [dropped, taken]
    simp

end Path

namespace Jar

/-- An entry is a class if its file is one, or if the last component of its name is the extension of
classes and nothing else. -/
theorem isClass_iff {e : Entry} {source : Path} {cs : List Component} {n : String}
    (file : e.isDirectory = false) (last : (Path.parse e.name).segments.getLast? = some n)
    (spelled : source.components = cs ++ [.normal n]) :
    e.isClass = true ↔ source.extension? = some "class" ∨ n = ".class" := by
  have named : e.isClass = true ↔ ".class".toList <:+ n.toList := by
    unfold Entry.isClass
    rw [file, Bool.not_false, Bool.true_and, String.endsWith_eq_endsWith_toSlice,
      String.Slice.endsWith_string_iff, String.copy_toSlice,
      Path.suffix_of_parse last (by decide)]
  have dotted : ".class".toList = '.' :: "class".toList := by decide
  rw [named, Path.extension_eq_iff spelled (by decide), dotted]
  constructor
  · intro ends
    by_cases same : n.toList = '.' :: "class".toList
    · right
      rw [← String.toList_inj, same, dotted]
    · exact .inl ⟨ends, same⟩
  · rintro (⟨ends, _⟩ | rfl)
    · exact ends
    · exact List.suffix_refl _

end Jar

namespace FileTree

def Takes (t : FileTree) (p : Path) : Prop :=
  ∃ made, t.createParent p = .ok made ∧ ∀ bytes, ∃ u, made.writeFile p bytes = .ok u

def Puts (t : FileTree) (p : Path) (bytes : Bytes) (u : FileTree) : Prop :=
  ∃ made, t.createParent p = .ok made ∧ made.writeFile p bytes = .ok u

theorem Takes.puts {t : FileTree} {p : Path} (takes : t.Takes p) (bytes : Bytes) :
    ∃ made u, t.createParent p = .ok made ∧ made.writeFile p bytes = .ok u := by
  obtain ⟨made, parent, stores⟩ := takes
  obtain ⟨u, stored⟩ := stores bytes
  exact ⟨made, u, parent, stored⟩

end FileTree

inductive Treats (weave : Bytes → Except Error Outcome) (bytes : Bytes) :
    (isClass : Bool) → Deed → Prop
  | wove {outcome : Outcome} (woven : weave bytes = .ok outcome) :
      Treats weave bytes true (.wove outcome (outcome.written bytes))
  | resource : Treats weave bytes false (.resource bytes)

def Deed.data : Deed → Bytes
  | .wove _ bytes | .resource bytes | .copied bytes => bytes
  | .kept | .removed | .missed => []

theorem treats_or_fails (weave : Bytes → Except Error Outcome) (bytes : Bytes) (kind : Bool) :
    (∃ deed, Treats weave bytes kind deed) ∨
      (kind = true ∧ ∃ cause, weave bytes = .error cause) := by
  cases kind with
  | false => exact .inl ⟨_, .resource⟩
  | true =>
    cases run : weave bytes with
    | ok outcome => exact .inl ⟨_, .wove run⟩
    | error cause => exact .inr ⟨rfl, cause, rfl⟩

namespace Build
variable {weave : Bytes → Except Error Outcome} {source target : Path} {s : Session}
  {bytes : Bytes} {deed : Deed} (read : s.tree.readFile source = .ok bytes)
include read

theorem weaveFile_of_treats (takes : s.tree.Takes target)
    (treats : Treats weave bytes (source.extension? = some "class") deed) :
    ∃ s', weaveFile weave source target s = .ok () s' ∧
      s.tree.Puts target deed.data s'.tree ∧ s'.ledger = deed.note s.ledger := by
  obtain ⟨made, u, parent, stored⟩ := takes.puts deed.data
  have looked : RunM.look (·.readFile source) (some source.text) s = .ok bytes s :=
    RunM.look_ok_iff.mpr ⟨read, rfl⟩
  have changed : RunM.change (·.createParent target) none s = .ok () { s with tree := made } :=
    RunM.change_ok_iff.mpr ⟨made, parent, rfl⟩
  refine ⟨⟨u, deed.note s.ledger, s.warnings⟩, ?_, ⟨made, parent, stored⟩, rfl⟩
  unfold weaveFile
  rw [state_bind_of_ok looked, state_bind_of_ok changed]
  generalize kind : decide (source.extension? = some "class") = isClass at treats
  cases treats with
  | wove woven =>
    rename_i outcome
    rw [if_pos (of_decide_eq_true kind)]
    refine state_bind_ok_iff.mpr ⟨outcome, _, RunM.lift_ok_iff.mpr ⟨?_, rfl⟩, ?_⟩
    · exact mapError_ok_iff.mpr woven
    refine state_bind_ok_iff.mpr ⟨(), _, RunM.record_ok_iff.mpr rfl, ?_⟩
    refine RunM.change_ok_iff.mpr ⟨u, ?_, rfl⟩
    cases outcome <;> exact stored
  | resource =>
    rw [if_neg (of_decide_eq_false kind)]
    refine state_bind_ok_iff.mpr ⟨(), _, RunM.change_ok_iff.mpr ⟨u, stored, rfl⟩, ?_⟩
    exact RunM.record_ok_iff.mpr rfl

theorem weaveFile_of_fails (takes : s.tree.Takes target) (kind : source.extension? = some "class")
    {cause : Error} (fails : weave bytes = .error cause) :
    ∃ s', weaveFile weave source target s = .error (cause.within source.text) s' := by
  obtain ⟨made, parent, _⟩ := takes
  have looked : RunM.look (·.readFile source) (some source.text) s = .ok bytes s :=
    RunM.look_ok_iff.mpr ⟨read, rfl⟩
  have changed : RunM.change (·.createParent target) none s = .ok () { s with tree := made } :=
    RunM.change_ok_iff.mpr ⟨made, parent, rfl⟩
  refine ⟨{ s with tree := made }, ?_⟩
  unfold weaveFile
  rw [state_bind_of_ok looked, state_bind_of_ok changed, if_pos kind]
  refine state_bind_of_error ?_
  rw [fails]
  rfl

end Build

namespace Jar

namespace Library

def Holds (library : Library) (t : FileTree) (jar : Path) (entries : List Entry) : Prop :=
  ∃ place bytes, t.entry jar = .ok (place, .file bytes) ∧ library.read bytes = .ok entries

def Packs (library : Library) (entries : List Entry) : Prop :=
  ∀ out : List Entry, out.map Entry.name = entries.map Entry.name →
    ∃ bytes, library.write out = .ok bytes

end Library

section Repacking
variable {weave : Bytes → Except Error Outcome} {e : Entry} {deed : Deed}
  {before after : List Entry}

def tally (weave : Bytes → Except Error Outcome) (entries : List Entry) (ledger : Ledger) :
    Ledger :=
  (entries.filter Entry.isResource).foldl (fun l _ => l.recordResource)
    ((classesFrom 0 entries).foldl (note weave) ledger)

theorem notes_eq (entries : List Entry) (ledger : Ledger) :
    (classesFrom 0 entries).foldl (note weave) ledger =
      (entries.filter Entry.isClass).foldl (fun l e => l.recordUnit (outcomeOf weave e))
        ledger := by
  rw [← classesFrom_entries 0, List.foldl_map]
  rfl

theorem name_handed (e : Entry) (replacement : Option Bytes) :
    (e.handed replacement).name = e.name := by
  unfold Entry.handed
  split <;> rfl

theorem handed_of_treats (file : e.isDirectory = false)
    (treats : Treats weave e.data e.isClass deed) :
    e.handed (replacementOf weave e) = ⟨e.name, deed.data, e.stored, .earliest⟩ := by
  unfold Entry.handed replacementOf
  rw [if_neg (ne_true_of_eq_false file)]
  generalize kind : e.isClass = isClass at treats
  cases treats with
  | wove woven =>
    rw [if_pos rfl, outcomeOf_eq woven, Outcome.getD_replacement]
    rfl
  | resource =>
    rw [if_neg Bool.false_ne_true]
    rfl

theorem tally_of_treats (file : e.isDirectory = false)
    (treats : Treats weave e.data e.isClass deed) (ledger : Ledger) :
    tally weave (before ++ e :: after) ledger =
      deed.note (tally weave (before ++ after) ledger) := by
  have units : ∀ (entries : List Entry) (l : Ledger),
      (entries.foldl (fun l e => l.recordUnit (outcomeOf weave e)) (deed.note l)) =
        deed.note (entries.foldl (fun l e => l.recordUnit (outcomeOf weave e)) l) := by
    intro entries l
    refine List.foldl_hom deed.note fun l e => ?_
    exact Build.note_comm (.wove (outcomeOf weave e) []) deed l
  have resources : ∀ (entries : List Entry) (l : Ledger),
      (entries.foldl (fun l _ => l.recordResource) (deed.note l)) =
        deed.note (entries.foldl (fun l _ => l.recordResource) l) := by
    intro entries l
    refine List.foldl_hom deed.note fun l e => ?_
    exact Build.note_comm (.resource []) deed l
  have resource : e.isResource = !e.isClass := by
    unfold Entry.isResource
    rw [file, Bool.not_false, Bool.true_and]
  unfold tally
  rw [notes_eq, notes_eq]
  simp only [List.filter_append, List.filter_cons, resource, List.foldl_append]
  generalize e.isClass = kind at treats
  cases treats with
  | @wove outcome woven =>
    have here : ∀ l : Ledger, l.recordUnit outcome =
        (Deed.wove outcome (outcome.written e.data)).note l := fun _ => rfl
    rw [if_pos rfl, if_neg (by simp), List.foldl_cons, outcomeOf_eq woven, here, units, resources,
      resources]
  | resource =>
    have here : ∀ l : Ledger, l.recordResource = (Deed.resource e.data).note l := fun _ => rfl
    rw [if_neg Bool.false_ne_true, if_pos (by simp), List.foldl_cons, here, resources]

variable {library : Library} {schedule : Schedule} {jar destination : Path} {s s' : Session}

theorem repack_of_treats (schedule : Schedule) {entries : List Entry}
    (holds : library.Holds s.tree jar entries)
    (packs : library.Packs entries) (takes : s.tree.Takes destination)
    (weaves : ∀ x ∈ entries, x.isClass = true → ∃ outcome, weave x.data = .ok outcome) :
    ∃ new s', repack library schedule weave jar destination s = .ok () s' ∧
      library.write (entries.map fun x => x.handed (replacementOf weave x)) = .ok new ∧
      s.tree.Puts destination new s'.tree ∧ s'.ledger = tally weave entries s.ledger := by
  obtain ⟨place, bytes, found, read⟩ := holds
  have names : (entries.map fun x => x.handed (replacementOf weave x)).map Entry.name =
      entries.map Entry.name := by
    rw [List.map_map]
    exact List.map_congr_left fun x _ => name_handed x _
  obtain ⟨new, packed⟩ := packs _ names
  obtain ⟨made, u, parent, stored⟩ := takes.puts new
  have woven : ∀ x ∈ entries, x.isClass = true → weave x.data = .ok (outcomeOf weave x) := by
    intro x inside kind
    obtain ⟨outcome, run⟩ := weaves x inside kind
    rw [outcomeOf_eq run, run]
  exact ⟨new, _, repack_ok_iff.mpr (.mk found read woven packed parent stored), packed,
    ⟨made, parent, stored⟩, rfl⟩

theorem ledger_of_repack {entries : List Entry} (holds : library.Holds s.tree jar entries)
    (run : repack library schedule weave jar destination s = .ok () s') :
    s'.ledger = tally weave entries s.ledger := by
  obtain ⟨place, bytes, found, read⟩ := holds
  cases repack_ok_iff.mp run with
  | mk found' read' _ _ _ _ =>
    rw [found] at found'
    cases found'
    rw [read] at read'
    cases read'
    rfl

theorem weaveEntry_error {err : Error} (run : weaveEntry weave jar e s = .error err s') :
    ∃ cause, weave e.data = .error cause ∧ err = cause.within (jar.text ++ "!" ++ e.name) := by
  rcases state_bind_error_iff.mp run with failed | ⟨_, _, _, noted⟩
  · cases woven : weave e.data with
    | ok outcome =>
      rw [woven] at failed
      cases failed
    | error cause =>
      rw [woven] at failed
      cases failed
      exact ⟨cause, rfl, rfl⟩
  · rcases state_bind_error_iff.mp noted with recorded | ⟨_, _, _, ended⟩
    · cases recorded
    · cases ended

/-- If one class of a jar cannot be woven, packing the jar anew fails, and the class is named. -/
theorem repack_of_fails (schedule : Schedule)
    (holds : library.Holds s.tree jar (before ++ e :: after))
    (others : ∀ x ∈ before ++ after, x.isClass = true → ∃ outcome, weave x.data = .ok outcome)
    (kind : e.isClass = true) {cause : Error} (fails : weave e.data = .error cause) :
    ∃ s', repack library schedule weave jar destination s =
      .error (cause.within (jar.text ++ "!" ++ e.name)) s' := by
  obtain ⟨place, bytes, found, read⟩ := holds
  have loaded : library.load jar s = .ok (before ++ e :: after) s :=
    library_load_ok_iff.mpr ⟨rfl, place, bytes, found, read⟩
  cases run : weaveClasses weave jar (schedule.work (before ++ e :: after))
      { s with warnings := warnings jar (before ++ e :: after) s.warnings } with
  | ok results s₁ =>
    have all := (weaveClasses_ok_iff.mp run).1
    have woven := (forall_work_iff fun x => weave x.data = .ok (outcomeOf weave x)).mp all e
      (by simp) kind
    rw [fails] at woven
    cases woven
  | error err s₁ =>
    obtain ⟨front, p, back, _, t, split, _, failed⟩ := mapM_error run
    have entry : weaveEntry weave jar p.1 t = .error err s₁ := by
      rcases state_bind_error_iff.mp failed with entry | ⟨_, _, _, ended⟩
      · exact entry
      · cases ended
    obtain ⟨cause', fails', rfl⟩ := weaveEntry_error entry
    have here : p.1 = e := by
      have classes : ∀ q ∈ schedule.work (before ++ e :: after),
          q.1 ∈ before ++ e :: after ∧ q.1.isClass = true :=
        (forall_work_iff fun x => x ∈ before ++ e :: after ∧ x.isClass = true).mpr
          fun x inside isClass => ⟨inside, isClass⟩
      have among := classes p (by rw [split]; simp)
      by_contra other
      obtain ⟨outcome, woven⟩ := others p.1 (by simpa [other] using among.1) among.2
      rw [fails'] at woven
      cases woven
    rw [here, fails] at fails'
    cases fails'
    refine ⟨s₁, ?_⟩
    unfold repack
    rw [state_bind_of_ok loaded, state_when_bind_of_ok (warn_eq jar _ s),
      ← congrArg Entry.name here]
    exact state_bind_of_error run

end Repacking
end Jar

namespace Build

/-- A loose file to be woven, and the entry of a jar that has its content, where no fault of the
file system is in the way and the other classes of the jar can be woven. -/
structure Likened (b : Build) (library : Jar.Library) (source target jar destination : Path)
    (before after : List Jar.Entry) (e : Jar.Entry) (s u : Session) : Prop where
  read : s.tree.readFile source = .ok e.data
  takes : s.tree.Takes target
  holds : library.Holds u.tree jar (before ++ e :: after)
  packs : library.Packs (before ++ e :: after)
  taken : u.tree.Takes destination
  others : ∀ x ∈ before ++ after, x.isClass = true → ∃ outcome, b.weave x.data = .ok outcome

namespace Likened
variable {b : Build} {library : Jar.Library} {source target jar destination : Path}
  {before after : List Jar.Entry} {e : Jar.Entry} {s u : Session}
  (likened : b.Likened library source target jar destination before after e s u)
  (schedule : Jar.Schedule)
include likened

theorem woven {deed : Deed} (treats : Treats b.weave e.data e.isClass deed) :
    ∀ x ∈ before ++ e :: after, x.isClass = true → ∃ outcome, b.weave x.data = .ok outcome := by
  intro x inside isClass
  by_cases here : x = e
  · rw [here] at isClass ⊢
    rw [isClass] at treats
    cases treats with
    | wove woven => exact ⟨_, woven⟩
  · exact likened.others x (by simpa [here] using inside) isClass

theorem stored (file : e.isDirectory = false)
    (kind : decide (source.extension? = some "class") = e.isClass) {deed : Deed}
    (treats : Treats b.weave e.data e.isClass deed) :
    ∃ (s' u' : Session) (out : List Jar.Entry) (new : Bytes),
      b.processItem ⟨source, target, .weave⟩ s = .ok () s' ∧
      Jar.repack library schedule b.weave jar destination u = .ok () u' ∧
      s.tree.Puts target deed.data s'.tree ∧ s'.ledger = deed.note s.ledger ∧
      library.write out = .ok new ∧ u.tree.Puts destination new u'.tree ∧
      out[before.length]? = some ⟨e.name, deed.data, e.stored, .earliest⟩ ∧
      u'.ledger = deed.note (Jar.tally b.weave (before ++ after) u.ledger) := by
  obtain ⟨s', run, puts, noted⟩ := weaveFile_of_treats likened.read likened.takes (kind ▸ treats)
  obtain ⟨new, u', packed, written, puts', noted'⟩ :=
    Jar.repack_of_treats schedule likened.holds likened.packs likened.taken (likened.woven treats)
  refine ⟨s', u', _, new, run, packed, puts, noted, written, puts', ?_, ?_⟩
  · rw [List.getElem?_map, List.getElem?_append_right (Nat.le_refl _), Nat.sub_self,
      List.getElem?_cons_zero, Option.map_some, Jar.handed_of_treats file treats]
  · rw [noted', Jar.tally_of_treats file treats]

theorem refused (kind : decide (source.extension? = some "class") = e.isClass)
    (isClass : e.isClass = true) {cause : Error} (fails : b.weave e.data = .error cause) :
    ∃ s' u' : Session,
      b.processItem ⟨source, target, .weave⟩ s = .error (cause.within source.text) s' ∧
      Jar.repack library schedule b.weave jar destination u =
        .error (cause.within (jar.text ++ "!" ++ e.name)) u' := by
  obtain ⟨s', run⟩ := weaveFile_of_fails likened.read likened.takes
    (of_decide_eq_true (kind.trans isClass)) fails
  obtain ⟨u', packed⟩ := Jar.repack_of_fails schedule likened.holds likened.others isClass fails
  exact ⟨s', u', run, packed⟩

end Likened

/-- A loose file to be woven and the entry of a jar with its name and content, where the last
component of the name is not merely the extension of classes: both succeed, or both fail for the
same cause. If they succeed, the same bytes are stored for both, and the file counts as much as the
entry adds to what a jar counts that is without it. -/
theorem units_alike {b : Build} {library : Jar.Library} (schedule : Jar.Schedule)
    {source target jar destination : Path} {before after : List Jar.Entry} {e : Jar.Entry}
    {cs : List Component} {ms : List String} {n : String} {s u : Session}
    (names : (Path.parse e.name).components = named (ms ++ [n]))
    (ends : FileTree.EndsNamed (Path.parse e.name).segments) (file : e.isDirectory = false)
    (proper : n ≠ ".class") (spelled : source.components = cs ++ named (ms ++ [n]))
    (likened : b.Likened library source target jar destination before after e s u) :
    (∃ (deed : Deed) (s' u' : Session) (out : List Jar.Entry) (new : Bytes),
      b.processItem ⟨source, target, .weave⟩ s = .ok () s' ∧
      Jar.repack library schedule b.weave jar destination u = .ok () u' ∧
      Treats b.weave e.data e.isClass deed ∧
      s.tree.Puts target deed.data s'.tree ∧ s'.ledger = deed.note s.ledger ∧
      library.write out = .ok new ∧ u.tree.Puts destination new u'.tree ∧
      out[before.length]? = some ⟨e.name, deed.data, e.stored, .earliest⟩ ∧
      ∀ (library' : Jar.Library) (schedule' : Jar.Schedule) (jar' destination' : Path)
        (v v' : Session), library'.Holds v.tree jar' (before ++ after) → v.ledger = u.ledger →
        Jar.repack library' schedule' b.weave jar' destination' v = .ok () v' →
        u'.ledger = deed.note v'.ledger) ∨
    ∃ (cause : Error) (s' u' : Session),
      b.processItem ⟨source, target, .weave⟩ s = .error (cause.within source.text) s' ∧
      Jar.repack library schedule b.weave jar destination u =
        .error (cause.within (jar.text ++ "!" ++ e.name)) u' := by
  have last := Path.last_of_endsNamed names ends
  have whole : source.components = (cs ++ named ms) ++ [.normal n] := by
    rw [spelled, Path.named_append, List.append_assoc]
    rfl
  have kind : decide (source.extension? = some "class") = e.isClass := by
    have classified := Jar.isClass_iff file last whole
    rw [or_iff_left proper] at classified
    rw [Bool.eq_iff_iff, decide_eq_true_iff, classified]
  rcases treats_or_fails b.weave e.data e.isClass with ⟨deed, treats⟩ | ⟨isClass, cause, fails⟩
  · left
    obtain ⟨s', u', out, new, run, packed, puts, noted, written, puts', here, noted'⟩ :=
      likened.stored schedule file kind treats
    refine ⟨deed, s', u', out, new, run, packed, treats, puts, noted, written, puts', here, ?_⟩
    intro library' schedule' jar' destination' v v' holds same rest
    rw [noted', Jar.ledger_of_repack holds rest, same]
  · right
    obtain ⟨s', u', run, packed⟩ := likened.refused schedule kind isClass fails
    exact ⟨cause, s', u', run, packed⟩

def reporter : Build := { hookless .always with chain := Weaving.reporting }

def fileAlone (name : String) (bytes : Bytes) : Session :=
  ⟨⟨[(["in"], .directory), (["in", name], .file bytes)], []⟩, .start .full, []⟩

theorem likened_alone {source target : Path} (before after : List Jar.Entry) (e : Jar.Entry)
    {s : Session} (read : s.tree.readFile source = .ok e.data) (takes : s.tree.Takes target)
    (others : ∀ x ∈ before ++ after, x.isClass = true →
      ∃ outcome, reporter.weave x.data = .ok outcome) :
    reporter.Likened (Jar.knowing (before ++ e :: after)) source target (.parse "/in.jar")
      (.parse "/out.jar") before after e s
      (Jar.jarAlone (Jar.writeEntries (before ++ e :: after))) := by
  have found : ∀ bytes, (Jar.jarAlone bytes).tree.entry (.parse "/in.jar") =
      .ok (["in.jar"], .file bytes) := by
    intro bytes
    cbv
  have parent : ∀ bytes, (Jar.jarAlone bytes).tree.createParent (.parse "/out.jar") =
      .ok (Jar.jarAlone bytes).tree := by
    intro bytes
    cbv
  have stored : ∀ bytes new, (Jar.jarAlone bytes).tree.writeFile (.parse "/out.jar") new =
      .ok ⟨[(["in.jar"], .file bytes), (["out.jar"], .file new)], []⟩ := by
    intro bytes new
    cbv
  exact ⟨read, takes, ⟨_, _, found _, if_pos rfl⟩, fun out _ => ⟨_, rfl⟩,
    ⟨_, parent _, fun new => ⟨_, stored _ new⟩⟩, others⟩

theorem twoClasses_alike : ∃ (deed : Deed) (s' u' : Session) (out : List Jar.Entry),
    reporter.processItem ⟨.parse "/in/C.class", .parse "/out.class", .weave⟩
      (fileAlone "C.class" Weaving.threeMethods) = .ok () s' ∧
    Jar.repack (Jar.knowing Jar.twoClasses) Jar.backwards reporter.weave (.parse "/in.jar")
      (.parse "/out.jar") (Jar.jarAlone (Jar.writeEntries Jar.twoClasses)) = .ok () u' ∧
    Treats reporter.weave Weaving.threeMethods true deed ∧
    s'.ledger = deed.note (.start .full) ∧
    out[3]? = some ⟨"C.class", deed.data, false, .earliest⟩ := by
  let e : Jar.Entry := ⟨"C.class", Weaving.threeMethods, false, .earliest⟩
  have read : (fileAlone "C.class" Weaving.threeMethods).tree.readFile (.parse "/in/C.class") =
      .ok e.data := by cbv
  have takes : (fileAlone "C.class" Weaving.threeMethods).tree.Takes (.parse "/out.class") := by
    refine ⟨(fileAlone "C.class" Weaving.threeMethods).tree, by cbv, fun new => ?_⟩
    refine ⟨⟨[(["in"], .directory), (["in", "C.class"], .file Weaving.threeMethods),
      (["out.class"], .file new)], []⟩, ?_⟩
    cbv
  have weaves : (reporter.weave Weaving.threeMethods).toOption.isSome = true := by decide +kernel
  obtain ⟨outcome, woven⟩ := ok_of_isSome weaves
  have others : ∀ x ∈ Jar.twoClasses.dropLast ++ [], x.isClass = true →
      ∃ outcome, reporter.weave x.data = .ok outcome := by
    intro x inside kind
    simp only [Jar.twoClasses, List.dropLast, List.append_nil, List.mem_cons, List.not_mem_nil,
      or_false] at inside
    rcases inside with rfl | rfl | rfl
    · exact absurd kind (by decide)
    · exact ⟨outcome, woven⟩
    · exact absurd kind (by decide)
  have likened := likened_alone Jar.twoClasses.dropLast [] e read takes others
  have names : (Path.parse e.name).components = named ([] ++ ["C.class"]) := by decide
  have spelled : (Path.parse "/in/C.class").components =
      [.root, .normal "in"] ++ named ([] ++ ["C.class"]) := by decide
  rcases units_alike Jar.backwards names (by decide) (by decide) (by decide) spelled likened with
    ⟨deed, s', u', out, new, run, packed, treats, _, noted, _, _, here, _⟩ | ⟨cause, s', _, run, _⟩
  · have kind : e.isClass = true := by cbv
    rw [kind] at treats
    exact ⟨deed, s', u', out, run, packed, treats, noted, here⟩
  · obtain ⟨_, done, _⟩ := weaveFile_of_treats read takes (.wove woven)
    cases done.symm.trans run

/-- A file whose name is the extension of classes and nothing else is copied, but a jar with an
entry of that name and content is refused. -/
theorem bareExtension_unlike : (Path.parse ".class").components = named [".class"] ∧
    reporter.Likened (Jar.knowing [⟨".class", [1], true, .earliest⟩]) (.parse "/in/.class")
      (.parse "/out.class") (.parse "/in.jar") (.parse "/out.jar") [] []
      ⟨".class", [1], true, .earliest⟩ (fileAlone ".class" [1])
      (Jar.jarAlone (Jar.writeEntries [⟨".class", [1], true, .earliest⟩])) ∧
    (∃ s', reporter.processItem ⟨.parse "/in/.class", .parse "/out.class", .weave⟩
      (fileAlone ".class" [1]) = .ok () s') ∧
    ¬ ∃ u', Jar.repack (Jar.knowing [⟨".class", [1], true, .earliest⟩]) .sequential reporter.weave
      (.parse "/in.jar") (.parse "/out.jar")
      (Jar.jarAlone (Jar.writeEntries [⟨".class", [1], true, .earliest⟩])) = .ok () u' := by
  have read : (fileAlone ".class" [1]).tree.readFile (.parse "/in/.class") = .ok [1] := by cbv
  have takes : (fileAlone ".class" [1]).tree.Takes (.parse "/out.class") := by
    refine ⟨(fileAlone ".class" [1]).tree, by cbv, fun new => ?_⟩
    refine ⟨⟨[(["in"], .directory), (["in", ".class"], .file [1]), (["out.class"], .file new)], []⟩,
      ?_⟩
    cbv
  have likened := likened_alone [] [] ⟨".class", [1], true, .earliest⟩ read takes (by simp)
  have fails : (reporter.weave [1]).toOption = none := by decide +kernel
  refine ⟨by decide, likened, ?_, ?_⟩
  · have treats : Treats reporter.weave [1]
        (decide ((Path.parse "/in/.class").extension? = some "class")) (.resource [1]) := .resource
    obtain ⟨s', run, _⟩ := weaveFile_of_treats read takes treats
    exact ⟨s', run⟩
  · cases run : reporter.weave [1] with
    | ok outcome =>
      rw [run] at fails
      cases fails
    | error cause =>
      rintro ⟨u', done⟩
      obtain ⟨u₁, failed⟩ := Jar.repack_of_fails .sequential likened.holds
        likened.others (by cbv) run
      rw [List.nil_append, done] at failed
      cases failed

end Build
end ClassHooks
