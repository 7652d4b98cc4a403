import ClassHooks.Proofs.Build.Isolation
import ClassHooks.Proofs.Build.Layout

/-!
What a full build leaves below the root of the output layout: for each input its output at the
path where the layout puts it, and nothing else, whatever was there before. Only the sources of the
inputs tell, not what has changed in them.
-/
namespace ClassHooks

open ClassHooks.Path (named)

def Input.mirror (destination : Path) (ns : List String) : Input → Except Error Path
  | .archive _ => .ok destination
  | .directory d => counterpart d.root destination (d.root.descend ns)

def Input.bare : Input → Input
  | .archive jar => .archive { jar with status := .addedOrChanged }
  | .directory d => .directory { d with changes := [] }

namespace Build

section Bare
variable {b : Build} {inputs others : List Input} {t : FileTree}

end Bare

section Taken
variable {b : Build} {mode : BuildMode} {i : Input} {inputs : List Input} {s s' : Session}

theorem claimed_of_items {order : List PlannedFile} {done : PUnit}
    (run : order.forM b.processItem s = .ok done s') : s'.ledger.claimed = s.ledger.claimed := by
  refine holds_of_keeps (I := fun s' => s'.ledger.claimed = s.ledger.claimed)
    (keeps_forM (fun item u holds => ?_) order) rfl run
  cases ran : b.processItem item u with
  | ok done v => exact ((touches_processItem b item).ok ran).2.trans holds
  | error e v => exact ((touches_processItem b item).error ran).2.trans holds

theorem taken_of_processes (run : b.Processes mode i s s') :
    ∃ p, b.resolver.resolve i.name i.format = .ok p ∧
      (∀ c ∈ s.ledger.claimed, c.components ≠ p.components) ∧
      p ∈ s'.ledger.claimed ∧ s.ledger.claimed ⊆ s'.ledger.claimed := by
  cases run with
  | @archive jar p _ s₁ _ resolved claimed run =>
    obtain ⟨free, rfl⟩ := RunM.claim_ok_iff.mp claimed
    have kept : s'.ledger.claimed = p :: s.ledger.claimed :=
      ((touches_processArchive b mode jar p).ok run).2
    rw [kept]
    exact ⟨p, resolved, free, List.mem_cons_self .., List.subset_cons_self ..⟩
  | @directory d p _ s₁ s₂ _ planned order resolved claimed plan any run =>
    obtain ⟨free, rfl⟩ := RunM.claim_ok_iff.mp claimed
    obtain ⟨files, _, _, rfl⟩ := schedule_ok_iff.mp plan
    have kept : s'.ledger.claimed =
        (planned.map PlannedFile.target).reverse ++ p :: s.ledger.claimed := claimed_of_items run
    rw [kept]
    refine ⟨p, resolved, free, by simp, fun c inside => ?_⟩
    exact List.mem_append_right _ (List.mem_cons_of_mem _ inside)

theorem destinations_of_all {f : Input → List Component}
    (spelled : ∀ i p, b.resolver.resolve i.name i.format = .ok p → p.components = f i)
    (run : b.ProcessesAll mode inputs s s') :
    (∀ i ∈ inputs, ∃ p, b.resolver.resolve i.name i.format = .ok p) ∧
      (∀ i ∈ inputs, ∀ c ∈ s.ledger.claimed, c.components ≠ f i) ∧ (inputs.map f).Nodup := by
  induction run with
  | nil => exact ⟨nofun, nofun, .nil⟩
  | @cons i inputs s s₁ s' first rest ih =>
    obtain ⟨p, resolved, free, taken, kept⟩ := taken_of_processes first
    obtain ⟨others, fresh, distinct⟩ := ih
    have goes := spelled i p resolved
    refine ⟨fun j inside => ?_, fun j inside c old => ?_,
      List.nodup_cons.mpr ⟨fun again => ?_, distinct⟩⟩
    · rcases List.mem_cons.mp inside with rfl | later
      · exact ⟨p, resolved⟩
      · exact others j later
    · rcases List.mem_cons.mp inside with rfl | later
      · rw [← goes]
        exact free c old
      · exact fresh j later c (kept old)
    · obtain ⟨j, later, same⟩ := List.mem_map.mp again
      exact fresh j later p taken (goes.trans same.symm)

end Taken

/-- A build whose outputs go to the layout, and a tree where its root leads to the area. -/
structure Laid (b : Build) (layout : OutputLayout) (inputs : List Input) (area : Location)
    (t : FileTree) : Prop where
  resolver : b.resolver = layout.resolver
  sound : t.Sound
  root : t.Target area layout.root area
  /-- The root may be a link if nothing is spelled behind its name, not even a slash. -/
  ends : ∀ target, t.find? area = some (.link target) → FileTree.EndsNamed layout.root.segments
  apart : ∀ i ∈ inputs, i.Apart t area .full

def namesOf (i : Input) : List String := OutputLayout.names i.name i.format

namespace Laid
variable {b : Build} {layout : OutputLayout} {inputs : List Input} {area : Location} {t : FileTree}
  {s' : Session} (laid : Laid b layout inputs area t)
include laid

theorem spelled {i : Input} {p : Path} (resolved : b.resolver.resolve i.name i.format = .ok p) :
    p.components = layout.root.components ++ named (namesOf i) := by
  rw [laid.resolver] at resolved
  exact OutputLayout.components_of_resolve resolved

theorem target {i : Input} {p q : Path} {ns : List String}
    (resolved : b.resolver.resolve i.name i.format = .ok p)
    (below : q.components = p.components ++ named ns) :
    t.Target area q (area ++ (namesOf i ++ ns)) := by
  refine .of_leads laid.root.leads (List.prefix_refl _) (by simp [namesOf, OutputLayout.names]) ?_
  rw [below, laid.spelled resolved, List.append_assoc, Path.named_append]

theorem names_nodup (run : b.Runs .full inputs t s') :
    (∀ i ∈ inputs, ∃ p, b.resolver.resolve i.name i.format = .ok p) ∧
      (inputs.map namesOf).Nodup := by
  obtain ⟨s, _, all⟩ := run
  obtain ⟨resolved, _, distinct⟩ := destinations_of_all (fun i p => laid.spelled) all
  refine ⟨resolved, List.Nodup.of_map (fun ns => layout.root.components ++ named ns) ?_⟩
  rw [List.map_map]
  exact distinct

theorem places (run : b.Runs .full inputs t s') : Places inputs area
    fun id => area ++ OutputLayout.names id.1 id.2 where
  inside i _ := List.prefix_append area _
  apart i one j two above := by
    have above' : namesOf i <+: namesOf j := (List.prefix_append_right_inj area).mp above
    have same : namesOf i = namesOf j := above'.eq_of_length rfl
    have equal := List.inj_on_of_nodup_map (laid.names_nodup run).2 one two same
    rw [equal]

theorem site (run : b.Runs .full inputs t s') :
    Site b .full inputs area (fun id => area ++ OutputLayout.names id.1 id.2) t where
  sound := laid.sound
  distinct := by
    refine List.Nodup.of_map (fun id => OutputLayout.names id.1 id.2) ?_
    rw [List.map_map]
    exact (laid.names_nodup run).2
  cleared := ⟨layout.root, by rw [laid.resolver]; rfl, laid.root⟩
  ends p target root link := by
    rw [laid.resolver] at root
    cases root
    exact laid.ends target link
  leads i _ p resolved := by
    have below : p.components = p.components ++ named [] := (List.append_nil _).symm
    have target := laid.target resolved below
    rw [List.append_nil] at target
    exact target.leads
  apart := laid.apart

end Laid

/-- What a full build leaves: each content of an input has its output at the path that mirrors it,
and a file below the root of the layout is one of these outputs, of one content alone. -/
structure Delivered (b : Build) (inputs : List Input) (t : FileTree) (area : Location)
    (u : FileTree) : Prop where
  complete : ∀ i ∈ inputs, ∀ ns content, i.content t ns = some content →
    ∃ p q new, b.resolver.resolve i.name i.format = .ok p ∧ i.mirror p ns = .ok q ∧
      b.output i.format ns content = .ok new ∧ u.readFile q = .ok new
  exhaustive : ∀ ms bytes, u.fileAt (area ++ ms) = some bytes ↔ ∃ i ∈ inputs, ∃ ns content,
    i.content t ns = some content ∧ b.output i.format ns content = .ok bytes ∧ ms = namesOf i ++ ns
  distinct : (inputs.map Input.identity).Nodup
  separate : ∀ i ∈ inputs, ∀ j ∈ inputs, ∀ ns ms, namesOf i ++ ns = namesOf j ++ ms →
    i = j ∧ ns = ms

theorem names_of_content {t : FileTree} {i : Input} {ns : List String} {content : Bytes}
    (held : i.content t ns = some content) :
    match i with
    | .archive _ => ns = []
    | .directory _ => ns ≠ [] ∧ ∀ n ∈ ns, Path.isName n = true := by
  cases i with
  | archive jar =>
    by_contra more
    unfold Input.content at held
    dsimp only at held
    rw [if_neg more] at held
    cases held
  | directory d =>
    unfold Input.content at held
    dsimp only at held
    split at held
    · rename_i both
      exact ⟨both.1, List.all_eq_true.mp both.2⟩
    · cases held

namespace Laid
variable {b : Build} {layout : OutputLayout} {inputs : List Input} {area : Location} {t : FileTree}
  {s' : Session} (laid : Laid b layout inputs area t)
include laid

section Ran
variable (run : b.Runs .full inputs t s')
include run

theorem mirrored {i : Input} (inside : i ∈ inputs) {ns : List String} {content : Bytes}
    (held : i.content t ns = some content) :
    ∃ p q, b.resolver.resolve i.name i.format = .ok p ∧ i.mirror p ns = .ok q ∧
      t.Target area q (area ++ (namesOf i ++ ns)) ∧ FileTree.EndsNamed q.segments := by
  obtain ⟨p, resolved⟩ := (laid.names_nodup run).1 i inside
  cases i with
  | archive jar =>
    obtain rfl : ns = [] := names_of_content held
    have below : p.components = p.components ++ named [] := (List.append_nil _).symm
    exact ⟨p, p, resolved, rfl, laid.target resolved below,
      endsNamed_of_full (laid.places run) (laid.site run) run inside resolved⟩
  | directory d =>
    obtain ⟨more, names⟩ := names_of_content held
    have spelled := Path.components_descend d.root names
    obtain ⟨q, goes⟩ := counterpart_ok more spelled p
    have under : (d.root.descend ns).startsWith d.root = true := Path.startsWith_of_spelled spelled
    obtain ⟨ms, _, spelled', below, ends⟩ := counterpart_spelled (.inr under) goes
    obtain rfl := names_of_spelled ms spelled' spelled
    exact ⟨p, q, resolved, goes, laid.target resolved below, ends⟩

/-- What stands below the root mirrors the contents of the inputs. -/
theorem mirrors {i : Input} (inside : i ∈ inputs) (ns : List String) :
    b.Mirrors i.format ns (i.content t ns) (s'.tree.fileAt (area ++ (namesOf i ++ ns))) := by
  obtain ⟨each, _, _⟩ := files_of_full (laid.places run) (laid.site run) run
  rw [← List.append_assoc]
  exact each i inside ns

theorem placed {ms : List String} {bytes : Bytes}
    (file : s'.tree.fileAt (area ++ ms) = some bytes) :
    ∃ i ∈ inputs, ∃ ns, ms = namesOf i ++ ns := by
  obtain ⟨_, beside, _⟩ := files_of_full (laid.places run) (laid.site run) run
  by_contra none
  have empty := beside (area ++ ms) (List.prefix_append area ms) fun i inside above => by
    obtain ⟨ns, rfl⟩ := (List.prefix_append_right_inj area).mp above
    exact none ⟨i, inside, ns, rfl⟩
  rw [empty] at file
  cases file

theorem fileAt_iff (ms : List String) (bytes : Bytes) :
    s'.tree.fileAt (area ++ ms) = some bytes ↔ ∃ i ∈ inputs, ∃ ns content,
      i.content t ns = some content ∧ b.output i.format ns content = .ok bytes ∧
        ms = namesOf i ++ ns := by
  constructor
  · intro file
    obtain ⟨i, inside, ns, rfl⟩ := laid.placed run file
    have mirrors := laid.mirrors run inside ns
    rw [file] at mirrors
    cases held : i.content t ns with
    | none =>
      rw [held] at mirrors
      cases mirrors
    | some content =>
      rw [held] at mirrors
      obtain ⟨new, made, same⟩ := mirrors
      cases same
      exact ⟨i, inside, ns, content, held, made, rfl⟩
  · rintro ⟨i, inside, ns, content, held, made, rfl⟩
    have mirrors := laid.mirrors run inside ns
    rw [held] at mirrors
    obtain ⟨new, made', file⟩ := mirrors
    rw [made] at made'
    cases made'
    exact file

theorem output_read {i : Input} (inside : i ∈ inputs) {ns : List String} {content : Bytes}
    (held : i.content t ns = some content) :
    ∃ p q new, b.resolver.resolve i.name i.format = .ok p ∧ i.mirror p ns = .ok q ∧
      b.output i.format ns content = .ok new ∧ s'.tree.readFile q = .ok new := by
  obtain ⟨_, _, within⟩ := files_of_full (laid.places run) (laid.site run) run
  obtain ⟨p, q, resolved, goes, target, ends⟩ := laid.mirrored run inside held
  have mirrors := laid.mirrors run inside ns
  rw [held] at mirrors
  obtain ⟨new, made, file⟩ := mirrors
  refine ⟨p, q, new, resolved, goes, made, ?_⟩
  rw [target.readFile_iff laid.sound within ends, ← FileTree.fileAt_eq_some_iff]
  exact file

theorem delivered : Delivered b inputs t area s'.tree where
  complete _ inside _ _ held := laid.output_read run inside held
  exhaustive := laid.fileAt_iff run
  distinct := (laid.site run).distinct
  separate := by
    intro i one j two ns ms same
    obtain ⟨names, rest⟩ := List.append_inj same rfl
    exact ⟨List.inj_on_of_nodup_map (laid.names_nodup run).2 one two names, rest⟩

end Ran
end Laid

end Build
end ClassHooks
