import ClassHooks.Proofs.Build.Mirroring

/-!
Whole runs, the files of each directory in any order. After a full run the output area mirrors the
inputs; an incremental run that is told the changes leaves what a full run over the new inputs would.
-/
namespace ClassHooks

open ClassHooks.Path (named)

/-- What the destination of an input is resolved from. -/
abbrev Identity := String × Format

def Input.identity (i : Input) : Identity := (i.name, i.format)

namespace Build

def contentOf (inputs : List Input) (t : FileTree) (id : Identity) (ns : List String) :
    Option Bytes :=
  match inputs.find? (·.identity = id) with
  | some i => i.content t ns
  | none => none

theorem contentOf_mem {inputs : List Input} {t : FileTree} {i : Input}
    (distinct : (inputs.map Input.identity).Nodup) (inside : i ∈ inputs) :
    contentOf inputs t i.identity = i.content t := by
  have found : inputs.find? (·.identity = i.identity) = some i := by
    cases same : inputs.find? (·.identity = i.identity) with
    | none =>
      rw [List.find?_eq_none] at same
      exact absurd (decide_eq_true rfl) (same i inside)
    | some j =>
      have identity := List.find?_some same
      exact congrArg some (List.inj_on_of_nodup_map distinct (List.mem_of_find?_eq_some same) inside
        (of_decide_eq_true identity))
  unfold contentOf
  rw [found]

theorem contentOf_absent {inputs : List Input} {t : FileTree} {id : Identity}
    (absent : ∀ i ∈ inputs, i.identity ≠ id) : contentOf inputs t id = fun _ => none := by
  have none : inputs.find? (·.identity = id) = none := by
    rw [List.find?_eq_none]
    exact fun i inside same => absent i inside (of_decide_eq_true same)
  unfold contentOf
  rw [none]

theorem exists_of_contentOf {inputs : List Input} {t : FileTree} {id : Identity} {ns : List String}
    (full : contentOf inputs t id ns ≠ none) : ∃ i ∈ inputs, i.identity = id := by
  by_contra absent
  refine full ?_
  rw [contentOf_absent fun i inside same => absent ⟨i, inside, same⟩]

/-- One input of a run; the planned files of a directory are processed in any order. -/
inductive Processes (b : Build) (mode : BuildMode) : Input → Session → Session → Prop
  | archive {jar : ArchiveInput} {destination : Path} {s s₁ s' : Session}
      (resolved : b.resolver.resolve jar.name .archive = .ok destination)
      (claimed : RunM.claim destination s = .ok () s₁)
      (run : b.processArchive mode jar destination s₁ = .ok () s') :
      Processes b mode (.archive jar) s s'
  | directory {d : DirectoryInput} {destination : Path} {s s₁ s₂ s' : Session}
      {planned order : List PlannedFile}
      (resolved : b.resolver.resolve d.name .directory = .ok destination)
      (claimed : RunM.claim destination s = .ok () s₁)
      (plan : schedule mode d destination s₁ = .ok planned s₂) (any : order.Perm planned)
      (run : order.forM b.processItem s₂ = .ok () s') : Processes b mode (.directory d) s s'

inductive ProcessesAll (b : Build) (mode : BuildMode) : List Input → Session → Session → Prop
  | nil {s : Session} : ProcessesAll b mode [] s s
  | cons {i : Input} {inputs : List Input} {s s₁ s' : Session} (first : Processes b mode i s s₁)
      (rest : ProcessesAll b mode inputs s₁ s') : ProcessesAll b mode (i :: inputs) s s'

def prepare (b : Build) (mode : BuildMode) : RunM Unit :=
  if mode.isIncremental then pure () else b.resolver.area.forM clearArea

def Runs (b : Build) (mode : BuildMode) (inputs : List Input) (t : FileTree) (s' : Session) : Prop :=
  ∃ s, b.prepare mode ⟨t, .start mode, []⟩ = .ok () s ∧ b.ProcessesAll mode inputs s s'

theorem processes_of_processInput {b : Build} {mode : BuildMode} {i : Input} {s s' : Session}
    (run : b.processInput mode i s = .ok () s') : b.Processes mode i s s' := by
  obtain ⟨destination, s₁, lifted, run⟩ := state_bind_ok_iff.mp run
  obtain ⟨resolved, rfl⟩ := RunM.lift_ok_iff.mp lifted
  obtain ⟨_, s₂, claimed, run⟩ := state_bind_ok_iff.mp run
  cases i with
  | archive jar => exact .archive resolved claimed run
  | directory d =>
    obtain ⟨planned, s₃, plan, run⟩ := processDirectory_ok_iff.mp run
    exact .directory resolved claimed plan (.refl planned) run

theorem processesAll_of_forM {b : Build} {mode : BuildMode} {inputs : List Input} {s s' : Session}
    (run : inputs.forM (b.processInput mode) s = .ok () s') : b.ProcessesAll mode inputs s s' := by
  induction inputs generalizing s with
  | nil =>
    cases run
    exact .nil
  | cons i inputs ih =>
    obtain ⟨s₁, first, rest⟩ := forM_cons_ok_iff.mp run
    exact .cons (processes_of_processInput first) (ih rest)

/-- A run that reports is one of these, with the files in the order of the plan. -/
theorem runs_of_run {b : Build} {mode : BuildMode} {inputs : List Input} {t : FileTree}
    {report : Report} {s' : Session} (run : b.run mode inputs t = (.ok report, s')) :
    b.Runs mode inputs t s' := by
  unfold Build.run at run
  split at run
  · rename_i r s processed
    cases run
    unfold process at processed
    obtain ⟨s₁, cleared, processed⟩ := state_when_bind_ok_iff.mp processed
    obtain ⟨_, s₂, all, ended⟩ := state_bind_ok_iff.mp processed
    cases ended
    refine ⟨s₁, ?_, processesAll_of_forM all⟩
    unfold prepare
    cases mode with
    | full => exact cleared
    | incremental => exact cleared
  · cases run

/-- The output area, and the places of the destinations in it: none lies in another one. -/
structure Places (inputs : List Input) (area : Location) (place : Identity → Location) : Prop where
  inside : ∀ i ∈ inputs, area <+: place i.identity
  apart : ∀ i ∈ inputs, ∀ j ∈ inputs, place i.identity <+: place j.identity → i.identity = j.identity

/-- A tree in which the paths of a run lead where they should. -/
structure Site (b : Build) (mode : BuildMode) (inputs : List Input) (area : Location)
    (place : Identity → Location) (t : FileTree) : Prop where
  sound : t.Sound
  distinct : (inputs.map Input.identity).Nodup
  cleared : ∃ p, b.resolver.area = some p ∧ t.Target area p area
  /-- The output area may be a link if nothing is spelled behind its name, not even a slash. -/
  ends : ∀ p target, b.resolver.area = some p → t.find? area = some (.link target) →
    FileTree.EndsNamed p.segments
  leads : ∀ i ∈ inputs, ∀ p, b.resolver.resolve i.name i.format = .ok p →
    t.Leads area p (place i.identity)
  apart : ∀ i ∈ inputs, i.Apart t area mode

theorem decide_full (status : ChangeStatus) : Action.decide status .full = .weave := by
  cases status <;> rfl

section Decided
variable {status : ChangeStatus}

theorem decide_weave_iff :
    Action.decide status .incremental = .weave ↔ status = .addedOrChanged := by
  cases status <;> simp [Action.decide]

theorem decide_copyThrough_iff :
    Action.decide status .incremental = .copyThrough ↔ status = .unchanged := by
  cases status <;> simp [Action.decide]

theorem decide_delete_iff : Action.decide status .incremental = .delete ↔ status = .removed := by
  cases status <;> simp [Action.decide]

end Decided

section Clearing
variable {t : FileTree} {area : Location}

theorem within_of_clears {u : FileTree} (clears : FileTree.Clears t u area) :
    FileTree.Within area t u := by
  refine ⟨clears.sound, clears.home, fun l e outside found => ?_, fun l e outside found => ?_,
    fun l inside target found => ?_⟩
  · rw [clears.found, if_neg outside]
    exact found
  · rw [clears.found, if_neg outside] at found
    exact .inl found
  · rw [clears.found, if_pos inside] at found
    cases found

theorem reaches_area {p : Path} (sound : t.Sound) (target : t.Target area p area)
    (solid : ∀ target, t.find? area ≠ some (.link target)) : ∃ base ns, area = base ++ ns ∧
      t.Reaches p base ns ∧ t.Linkless base (base ++ ns) ∧ ns ≠ [] := by
  obtain ⟨base, ns, erased, rfl, clear⟩ := target.leads
  refine ⟨base, ns, rfl, erased.mono (fun _ _ => FileTree.find?_of_erased) rfl, ?_, ?_⟩
  · intro i from' to' link
    by_cases here : i = base ++ ns
    · rw [here]
      exact solid link
    · rw [← FileTree.find?_outside fun below => here (to'.eq_of_length_le below.length_le)]
      exact clear i from' to' link
  · rintro rfl
    have proper := target.proper
    rw [List.append_nil] at proper
    have there := erased.base_directory (sound.eraseTree _)
    rw [FileTree.find?_eraseTree, if_pos ⟨proper, by simp⟩] at there
    cases there

theorem removeDirectory_link {p other : Path} (sound : t.Sound) (target : t.Target area p area)
    (link : t.find? area = some (.link other)) (ends : FileTree.EndsNamed p.segments) :
    t.removeDirectory p = .ok (t.eraseTree area) := by
  have cleared := FileTree.clears_eraseTree sound target.proper
  obtain ⟨base, ms, n, reaches, rfl, _⟩ := target.reaches sound (within_of_clears cleared)
  have before : t.Reaches p base (ms ++ [n]) :=
    reaches.mono (fun _ _ => FileTree.find?_of_erased) rfl
  unfold FileTree.removeDirectory
  rw [before.resolve_link sound (by simp) link ends]
  dsimp only
  rw [sound.erase_eq_eraseTree (by rw [link]; nofun)]

theorem clearArea_clears {p : Path} {s s' : Session} (sound : t.Sound) (target : t.Target area p area)
    (ends : ∀ other, t.find? area = some (.link other) → FileTree.EndsNamed p.segments)
    (tree : s.tree = t) (run : clearArea p s = .ok () s') :
    FileTree.Within area t s'.tree ∧ (∀ l, area <+: l → s'.tree.find? l = none) ∧
      ∀ m, m <+: area → m ≠ area → ∀ e, t.find? m = some e → e = .directory := by
  unfold clearArea at run
  rw [tree] at run
  by_cases linked : ∃ other, t.find? area = some (.link other)
  · obtain ⟨other, link⟩ := linked
    rw [removeDirectory_link sound target link (ends other link)] at run
    cases run
    have cleared := FileTree.clears_eraseTree sound target.proper
    refine ⟨within_of_clears cleared, fun l inside => by rw [cleared.found, if_pos inside],
      fun m above below e found => ?_⟩
    rw [sound.above link above below] at found
    exact (Option.some.inj found).symm
  · obtain ⟨base, ns, rfl, reaches, linkless, more⟩ := reaches_area sound target
      fun other link => linked ⟨other, link⟩
    obtain ⟨clears, missing⟩ := FileTree.removeDirectory_clears sound reaches linkless more
    split at run
    · rename_i u removed
      cases run
      have cleared := clears u removed
      exact ⟨within_of_clears cleared, fun l inside => by rw [cleared.found, if_pos inside],
        fun m above _ e =>
          FileTree.removeDirectory_opened sound reaches linkless more (.inl ⟨u, removed⟩) above⟩
    · rename_i absent
      cases run
      have none : ∀ l, base ++ ns <+: l → t.find? l = none := fun l =>
        sound.vacant_below (missing absent)
      rw [tree]
      exact ⟨.refl sound fun l inside target => by rw [none l inside]; nofun, none,
        fun m above _ e =>
          FileTree.removeDirectory_opened sound reaches linkless more (.inr absent) above⟩
    · cases run

end Clearing

theorem Places.beside {inputs : List Input} {area : Location} {place : Identity → Location}
    (places : Places inputs area place) {i j : Input} (one : i ∈ inputs) (two : j ∈ inputs)
    (other : i.identity ≠ j.identity) (ns : List String) :
    ¬ place i.identity <+: place j.identity ++ ns := by
  intro below
  rcases List.prefix_or_prefix_of_prefix below (List.prefix_append (place j.identity) ns) with
    up | down
  · exact other (places.apart i one j two up)
  · exact other (places.apart j two i one down).symm

section Run
variable {b : Build} {mode : BuildMode} {all inputs : List Input} {area : Location}
  {place : Identity → Location} {t : FileTree} {s s' : Session}
  (places : Places all area place) (site : Site b mode all area place t)
  (ends : ∀ jar, .archive jar ∈ all → Action.decide jar.status mode = .copyThrough →
    ∀ p, b.resolver.resolve jar.name .archive = .ok p → FileTree.EndsNamed p.segments)
include places site

theorem proper_place {i : Input} (inside : i ∈ all) : place i.identity ≠ [] := by
  obtain ⟨p, _, target⟩ := site.cleared
  intro empty
  exact target.proper (List.prefix_nil.mp (empty ▸ places.inside i inside))

include ends

theorem handled_of_processes {i : Input} (inside : i ∈ all)
    (within : FileTree.Within area t s.tree) (run : b.Processes mode i s s') :
    ∃ work, Handled b t mode i (place i.identity) s.tree s'.tree work ∧
      FileTree.Within area t s'.tree := by
  have zone := places.inside i inside
  have proper := proper_place places site inside
  have source := site.apart i inside
  cases run with
  | @archive _ _ _ s₁ _ resolved claimed run =>
    have tree : s₁.tree = s.tree := by rw [(RunM.claim_ok_iff.mp claimed).2]
    rw [← tree] at within ⊢
    exact archive_handled site.sound within ⟨site.leads _ inside _ resolved, zone, proper⟩ source
      (fun copies => ends _ inside copies _ resolved) run
  | @directory _ _ _ s₁ _ _ _ _ resolved claimed plan any run =>
    have tree : s₁.tree = s.tree := by rw [(RunM.claim_ok_iff.mp claimed).2]
    rw [← tree] at within ⊢
    obtain ⟨R, source⟩ := source
    exact directory_handled site.sound within (site.leads _ inside _ resolved) zone source plan any
      run

/-- What each input does at its place, and nowhere else, all inputs do together. -/
theorem files_of_all (Before After : Input → List String → Option Bytes → Prop)
    (step : ∀ i ∈ all, ∀ v v' work, v.Sound →
      Handled b t mode i (place i.identity) v v' work →
      (∀ ns, Before i ns (v.fileAt (place i.identity ++ ns))) →
      FileTree.Orderly v work ∧ ∀ ns, After i ns (v'.fileAt (place i.identity ++ ns)))
    (part : inputs ⊆ all) (distinct : (inputs.map Input.identity).Nodup)
    (run : b.ProcessesAll mode inputs s s') (within : FileTree.Within area t s.tree)
    (start : ∀ i ∈ inputs, ∀ ns, Before i ns (s.tree.fileAt (place i.identity ++ ns))) :
    (∀ i ∈ inputs, ∀ ns, After i ns (s'.tree.fileAt (place i.identity ++ ns))) ∧
      (∀ m, (∀ i ∈ inputs, ¬ place i.identity <+: m) → s'.tree.fileAt m = s.tree.fileAt m) ∧
      FileTree.Within area t s'.tree := by
  induction run with
  | nil => exact ⟨nofun, fun _ _ => rfl, within⟩
  | @cons i inputs s s₁ s' first rest ih =>
    have member : i ∈ all := part (by simp)
    rw [List.map_cons, List.nodup_cons] at distinct
    have other : ∀ j ∈ inputs, i.identity ≠ j.identity := fun j inside same =>
      distinct.1 (List.mem_map.mpr ⟨j, inside, same.symm⟩)
    have beside : ∀ j ∈ inputs, ∀ ns, ¬ place i.identity <+: place j.identity ++ ns :=
      fun j inside => places.beside member (part (by simp [inside])) (other j inside)
    obtain ⟨work, handled, within₁⟩ := handled_of_processes places site ends member within first
    obtain ⟨orderly, done⟩ :=
      step i member s.tree s₁.tree work within.sound handled (start i (by simp))
    -- What this input does is beside the places of the others, and what they do is beside its own.
    have kept {m : Location} (outside : ¬ place i.identity <+: m) :=
      handled.beside within.sound orderly outside
    obtain ⟨each, apart, within'⟩ := ih (fun j inside => part (by simp [inside])) distinct.2 within₁
      fun j inside ns => by
        rw [kept (beside j inside ns)]
        exact start j (by simp [inside]) ns
    refine ⟨fun j inside ns => ?_, fun m outside => ?_, within'⟩
    · rcases List.mem_cons.mp inside with rfl | inside
      · rw [apart _ fun k later => places.beside (part (by simp [later])) member
          (other k later).symm ns]
        exact done ns
      · exact each j inside ns
    · rw [apart m fun j inside => outside j (by simp [inside]), kept (outside i (by simp))]

end Run

section Full
variable {b : Build} {inputs : List Input} {area : Location} {place : Identity → Location}
  {t : FileTree} {s s' : Session} (places : Places inputs area place)
  (site : Site b .full inputs area place t)
include site

theorem prepare_full (run : b.prepare .full ⟨t, .start .full, []⟩ = .ok () s) :
    FileTree.Within area t s.tree ∧ (∀ l, area <+: l → s.tree.find? l = none) ∧
      ∀ m, m <+: area → m ≠ area → ∀ e, t.find? m = some e → e = .directory := by
  obtain ⟨p, area, target⟩ := site.cleared
  change b.resolver.area.forM clearArea _ = _ at run
  rw [area] at run
  exact clearArea_clears site.sound target (fun other => site.ends p other area) rfl run

include places

/-- After a full run the output area mirrors the inputs, and holds nothing else. -/
theorem files_of_full (run : b.Runs .full inputs t s') :
    (∀ i ∈ inputs, ∀ ns, b.Mirrors i.format ns (i.content t ns)
      (s'.tree.fileAt (place i.identity ++ ns))) ∧
    (∀ m, area <+: m → (∀ i ∈ inputs, ¬ place i.identity <+: m) → s'.tree.fileAt m = none) ∧
    FileTree.Within area t s'.tree := by
  obtain ⟨s, cleared, all⟩ := run
  obtain ⟨within, none, _⟩ := prepare_full site cleared
  have empty (l : Location) (inside : area <+: l) : s.tree.fileAt l = Option.none := by
    unfold FileTree.fileAt
    rw [none l inside]
  obtain ⟨each, apart, within'⟩ := files_of_all places site (fun jar _ copies => by
      rw [decide_full] at copies
      cases copies)
    (fun _ _ file => file = Option.none)
    (fun i ns file => b.Mirrors i.format ns (i.content t ns) file)
    (fun i _ v v' work sound handled before => ⟨handled.full_orderly, handled.full sound before⟩)
    (List.Subset.refl _) site.distinct all within
    (fun i inside ns => empty _ ((places.inside i inside).trans (List.prefix_append _ ns)))
  exact ⟨each, fun m inside outside => (apart m outside).trans (empty m inside), within'⟩

end Full

section Full
variable {b : Build} {all inputs : List Input} {area : Location} {place : Identity → Location}
  {t : FileTree} {s s' : Session}

theorem Places.part (places : Places all area place) (part : inputs ⊆ all) :
    Places inputs area place where
  inside i member := places.inside i (part member)
  apart i one j two := places.apart i (part one) j (part two)

theorem mirrors_of_full (places : Places all area place) (part : inputs ⊆ all)
    (site : Site b .full inputs area place t) (run : b.Runs .full inputs t s') :
    (∀ i ∈ all, ∀ ns, b.Mirrors i.format ns (contentOf inputs t i.identity ns)
      (s'.tree.fileAt (place i.identity ++ ns))) ∧
    ∀ m, area <+: m → (∀ i ∈ all, ¬ place i.identity <+: m) → s'.tree.fileAt m = none := by
  obtain ⟨each, apart, _⟩ := files_of_full (places.part part) site run
  refine ⟨fun i inside ns => ?_, fun m below outside =>
    apart m below fun j member => outside j (part member)⟩
  by_cases known : ∃ j ∈ inputs, j.identity = i.identity
  · obtain ⟨j, member, same⟩ := known
    have format : j.format = i.format := congrArg Prod.snd same
    rw [← same, ← format, contentOf_mem site.distinct member]
    exact each j member ns
  · have absent : ∀ j ∈ inputs, j.identity ≠ i.identity := fun j member same =>
      known ⟨j, member, same⟩
    rw [contentOf_absent absent]
    exact apart _ ((places.inside i inside).trans (List.prefix_append _ ns)) fun j member =>
      places.beside (part member) inside (absent j member) ns

theorem endsNamed_of_all (places : Places all area place) (site : Site b .full all area place t)
    (part : inputs ⊆ all) {jar : ArchiveInput} (inside : .archive jar ∈ inputs) {p : Path}
    (resolved : b.resolver.resolve jar.name .archive = .ok p)
    (run : b.ProcessesAll .full inputs s s') (within : FileTree.Within area t s.tree) :
    FileTree.EndsNamed p.segments := by
  induction run with
  | nil => cases inside
  | @cons i inputs s w s' first rest ih =>
    have here : i ∈ all := part (by simp)
    rcases List.mem_cons.mp inside with rfl | inside
    · cases first with
      | @archive _ destination _ w₁ _ resolved' claimed run =>
        rw [resolved] at resolved'
        cases resolved'
        have tree : w₁.tree = s.tree := by rw [(RunM.claim_ok_iff.mp claimed).2]
        unfold processArchive at run
        rw [decide_full] at run
        obtain ⟨o, content, found⟩ := site.apart _ here (by rw [decide_full]; nofun)
        obtain ⟨_, _, _, _, _, ends⟩ := Jar.renew_stores site.sound (tree ▸ within)
          ⟨site.leads _ here _ resolved, places.inside _ here, proper_place places site here⟩
          (FileTree.readsAt_of_entry site.sound found) run
        exact ends
    · obtain ⟨_, _, within'⟩ := handled_of_processes places site (fun jar _ copies => by
        rw [decide_full] at copies
        cases copies) here within first
      exact ih (fun j later => part (by simp [later])) inside within'

theorem endsNamed_of_full (places : Places inputs area place)
    (site : Site b .full inputs area place t) (run : b.Runs .full inputs t s') {jar : ArchiveInput}
    (inside : .archive jar ∈ inputs) {p : Path}
    (resolved : b.resolver.resolve jar.name .archive = .ok p) : FileTree.EndsNamed p.segments := by
  obtain ⟨s, cleared, run⟩ := run
  exact endsNamed_of_all places site (List.Subset.refl _) inside resolved run
    (prepare_full site cleared).1

end Full

section Incremental
variable {b : Build} {inputs : List Input} {area : Location} {place : Identity → Location}
  {t : FileTree} {s s' : Session}

/-- An incremental run that is told the changes makes them. -/
theorem files_of_incremental (places : Places inputs area place)
    (site : Site b .incremental inputs area place t) (policy : b.config.copyUnchanged ≠ .always)
    (ends : ∀ jar, .archive jar ∈ inputs → Action.decide jar.status .incremental = .copyThrough →
      ∀ p, b.resolver.resolve jar.name .archive = .ok p → FileTree.EndsNamed p.segments)
    (linkless : ∀ l, area <+: l → ∀ target, t.find? l ≠ some (.link target))
    {before after : Identity → List String → Option Bytes}
    (accurate : ∀ i ∈ inputs, Accurate t i (before i.identity) (after i.identity))
    (old : ∀ i ∈ inputs, ∀ ns, b.Mirrors i.format ns (before i.identity ns)
      (t.fileAt (place i.identity ++ ns)))
    (run : b.Runs .incremental inputs t s') :
    (∀ i ∈ inputs, ∀ ns, b.Mirrors i.format ns (after i.identity ns)
      (s'.tree.fileAt (place i.identity ++ ns))) ∧
    ∀ m, (∀ i ∈ inputs, ¬ place i.identity <+: m) → s'.tree.fileAt m = t.fileAt m := by
  obtain ⟨s, started, all⟩ := run
  cases started
  obtain ⟨each, apart, _⟩ := files_of_all places site ends
    (fun i ns file => b.Mirrors i.format ns (before i.identity ns) file)
    (fun i ns file => b.Mirrors i.format ns (after i.identity ns) file)
    (fun i inside v v' work sound handled start =>
      ⟨handled.incremental_orderly (accurate i inside) start,
        handled.incremental sound (accurate i inside) start policy⟩)
    (List.Subset.refl _) site.distinct all (.refl site.sound linkless) old
  exact ⟨each, apart⟩

end Incremental

theorem endsNamed_of_copied {b : Build} {inputs : List Input} {area : Location}
    {place : Identity → Location} {t u : FileTree} {s : Session} (places : Places inputs area place)
    (site : Site b .full inputs area place t) (run : b.Runs .full inputs t s) {jar : ArchiveInput}
    {after : List String → Option Bytes}
    (accurate : Accurate u (.archive jar) (contentOf inputs t (Input.archive jar).identity) after)
    (copies : Action.decide jar.status .incremental = .copyThrough) {p : Path}
    (resolved : b.resolver.resolve jar.name .archive = .ok p) : FileTree.EndsNamed p.segments := by
  have described := accurate.described [] _ (.jar jar)
  rw [decide_copyThrough_iff.mp copies] at described
  obtain ⟨j, member, identity⟩ := exists_of_contentOf described.1
  cases j with
  | archive jar' =>
    have name : jar'.name = jar.name := congrArg Prod.fst identity
    exact endsNamed_of_full places site run member (name ▸ resolved)
  | directory d => cases congrArg Prod.snd identity

/-- Incremental equals full. An output area that a full run has made is brought up to date by an
incremental run that is told the changes: the files in it are those of a full run over the inputs as
they are now, in whatever order each run processes the files of a directory. -/
theorem incremental_agrees {b : Build} {c₀ c₂ : Config} {I₀ I₁ I₂ : List Input} {area : Location}
    {place : Identity → Location} {t₀ t₁ t₂ : FileTree} {s₀ s₁ s₂ : Session}
    (policy : b.config.copyUnchanged ≠ .always) (places : Places (I₀ ++ I₁ ++ I₂) area place)
    (site₀ : Site { b with config := c₀ } .full I₀ area place t₀)
    (site₁ : Site b .incremental I₁ area place t₁)
    (site₂ : Site { b with config := c₂ } .full I₂ area place t₂)
    (first : Runs { b with config := c₀ } .full I₀ t₀ s₀)
    (same : ∀ l, area <+: l → t₁.find? l = s₀.tree.find? l)
    (accurate : ∀ i ∈ I₁,
      Accurate t₁ i (contentOf I₀ t₀ i.identity) (contentOf I₂ t₂ i.identity))
    (omitted : ∀ id, (∀ i ∈ I₁, i.identity ≠ id) → contentOf I₀ t₀ id = contentOf I₂ t₂ id)
    (run : b.Runs .incremental I₁ t₁ s₁)
    (again : Runs { b with config := c₂ } .full I₂ t₂ s₂) :
    ∀ l, area <+: l → s₁.tree.fileAt l = s₂.tree.fileAt l := by
  have part₀ : I₀ ⊆ I₀ ++ I₁ ++ I₂ := fun i inside => by simp [inside]
  have part₁ : I₁ ⊆ I₀ ++ I₁ ++ I₂ := fun i inside => by simp [inside]
  have part₂ : I₂ ⊆ I₀ ++ I₁ ++ I₂ := fun i inside => by simp [inside]
  obtain ⟨old, none₀⟩ := mirrors_of_full places part₀ site₀ first
  obtain ⟨new, none₂⟩ := mirrors_of_full places part₂ site₂ again
  have files (l : Location) (inside : area <+: l) : t₁.fileAt l = s₀.tree.fileAt l :=
    FileTree.fileAt_congr (same l inside)
  have below {i : Input} (member : i ∈ I₀ ++ I₁ ++ I₂) (ns : List String) :
      area <+: place i.identity ++ ns :=
    (places.inside i member).trans (List.prefix_append _ ns)
  have linkless : ∀ l, area <+: l → ∀ target, t₁.find? l ≠ some (.link target) := by
    intro l inside target
    rw [same l inside]
    exact (files_of_full (places.part part₀) site₀ first).2.2.linkless l inside target
  have ends : ∀ jar, .archive jar ∈ I₁ → Action.decide jar.status .incremental = .copyThrough →
      ∀ p, b.resolver.resolve jar.name .archive = .ok p → FileTree.EndsNamed p.segments :=
    fun jar inside copies p => endsNamed_of_copied (places.part part₀) site₀ first
      (accurate _ inside) copies
  obtain ⟨each, apart⟩ := files_of_incremental (places.part part₁) site₁ policy ends linkless
    accurate (fun i inside ns => by
      rw [files _ (below (part₁ inside) ns)]
      exact old i (part₁ inside) ns) run
  intro l inside
  by_cases placed : ∃ i ∈ I₀ ++ I₁ ++ I₂, place i.identity <+: l
  · obtain ⟨i, member, ns, rfl⟩ := placed
    refine Mirrors.unique (b := b) ?_ (new i member ns)
    by_cases told : ∃ j ∈ I₁, j.identity = i.identity
    · obtain ⟨j, inside, same⟩ := told
      have format : j.format = i.format := congrArg Prod.snd same
      rw [← same, ← format]
      exact each j inside ns
    · have other : ∀ j ∈ I₁, j.identity ≠ i.identity := fun j inside same =>
        told ⟨j, inside, same⟩
      rw [apart _ fun j inside => places.beside (part₁ inside) member (other j inside) ns,
        files _ inside, ← omitted i.identity other]
      exact old i member ns
  · have outside : ∀ i ∈ I₀ ++ I₁ ++ I₂, ¬ place i.identity <+: l := fun i member above =>
      placed ⟨i, member, above⟩
    rw [apart l fun i member => outside i (part₁ member), files l inside, none₀ l inside outside,
      none₂ l inside outside]

def reported (b : Build) (mode : BuildMode) (inputs : List Input) (t : FileTree) : Option Session :=
  match b.run mode inputs t with
  | (.ok _, s) => some s
  | (.error _, _) => none

theorem run_of_reported {b : Build} {mode : BuildMode} {inputs : List Input} {t : FileTree}
    {s : Session} (told : b.reported mode inputs t = some s) :
    ∃ report, b.run mode inputs t = (.ok report, s) := by
  unfold reported at told
  split at told
  · rename_i report _ run
    cases told
    exact ⟨report, run⟩
  · cases told

theorem runs_of_reported {b : Build} {mode : BuildMode} {inputs : List Input} {t : FileTree}
    {s : Session} (told : b.reported mode inputs t = some s) : b.Runs mode inputs t s := by
  obtain ⟨report, run⟩ := run_of_reported told
  exact runs_of_run run

section Workspace
variable {entries : List (Location × Entry)}
  (none : ∀ e ∈ (workspace entries).entries, e.2.isLink = false)
  (home : ((workspace entries).eraseTree ["w", "out"]).find? ["w"] = some .directory)
include none home

theorem leads_of_workspace (p : Path) (ns : List String) (spelled : p.components = named ns) :
    (workspace entries).Leads ["w", "out"] p ("w" :: ns) :=
  FileTree.leads_of_named spelled home (FileTree.linkless_of_entries none)

theorem source_of_workspace : SourceAt (workspace entries) ["w", "out"] (.parse "in") ["w", "in"] :=
  ⟨leads_of_workspace none home _ ["in"] (by decide), by decide, by decide,
    fun l _ => FileTree.linkless_of_entries none l⟩

theorem site_of_workspace {mode : BuildMode} {policy : CopyPolicy}
    {changes : List (String × ChangeStatus)} (sound : (workspace entries).Sound) :
    Site (hookless policy) mode [.directory (directoryWith "in" changes)] ["w", "out"]
      (fun _ => ["w", "out", "in"]) (workspace entries) := by
  refine ⟨sound, by simp, ⟨.parse "out", rfl,
    leads_of_workspace none home _ ["out"] (by decide), List.prefix_refl _, by decide⟩,
    fun _ _ _ link => absurd link (FileTree.linkless_of_entries none _ _),
    fun i inside p resolved => ?_, fun i inside => ?_⟩
  · obtain rfl := List.mem_singleton.mp inside
    cases resolved
    exact leads_of_workspace none home (.parse "out/in") ["out", "in"] (by decide)
  · obtain rfl := List.mem_singleton.mp inside
    exact ⟨["w", "in"], source_of_workspace none home⟩

theorem content_of_workspace (sound : (workspace entries).Sound) {ns : List String}
    (more : ns ≠ []) : (Input.directory (directoryWith "in" [])).content (workspace entries) ns =
      (workspace entries).fileAt ("w" :: "in" :: ns) :=
  SourceAt.content (d := directoryWith "in" []) (source_of_workspace none home) sound more

end Workspace

def firstTree : FileTree :=
  workspace [(["in"], .directory), (["in", "a"], .file [1]), (["in", "b"], .file [2]),
    (["in", "d"], .file [9])]

def staleTree : FileTree :=
  workspace [(["in"], .directory), (["in", "a"], .file [3]), (["in", "b"], .directory),
    (["in", "b", "c"], .file [4]), (["in", "d"], .file [9]), (["out"], .directory),
    (["out", "in"], .directory), (["out", "in", "a"], .file [1]), (["out", "in", "b"], .file [2]),
    (["out", "in", "d"], .file [9])]

def secondTree : FileTree :=
  workspace [(["in"], .directory), (["in", "a"], .file [3]), (["in", "b"], .directory),
    (["in", "b", "c"], .file [4]), (["in", "d"], .file [9])]

def toldChanges : DirectoryInput :=
  directoryWith "in" [("a", .addedOrChanged), ("b", .removed), ("b/c", .addedOrChanged)]

theorem marks_toldChanges {ns : List String} {status : ChangeStatus} :
    (Input.directory toldChanges).Marks ns status ↔ (ns = ["a"] ∧ status = .addedOrChanged) ∨
      (ns = ["b"] ∧ status = .removed) ∨ (ns = ["b", "c"] ∧ status = .addedOrChanged) := by
  constructor
  · intro marks
    cases marks with
    | file inside more spelled =>
      simp only [toldChanges, directoryWith, List.map_cons, List.map_nil, List.mem_cons,
        Prod.mk.injEq, List.not_mem_nil, or_false] at inside
      rcases inside with ⟨rfl, rfl⟩ | ⟨rfl, rfl⟩ | ⟨rfl, rfl⟩
      · exact .inl ⟨names_of_spelled ["a"] (by decide) spelled, rfl⟩
      · exact .inr (.inl ⟨names_of_spelled ["b"] (by decide) spelled, rfl⟩)
      · exact .inr (.inr ⟨names_of_spelled ["b", "c"] (by decide) spelled, rfl⟩)
  · rintro (⟨rfl, rfl⟩ | ⟨rfl, rfl⟩ | ⟨rfl, rfl⟩)
    · exact .file (List.mem_cons_self ..) (by decide) (by decide)
    · exact .file (List.mem_cons_of_mem _ (List.mem_cons_self ..)) (by decide) (by decide)
    · exact .file (List.mem_cons_of_mem _ (List.mem_cons_of_mem _ (List.mem_cons_self ..)))
        (by decide) (by decide)

theorem toldChanges_accurate : Accurate staleTree (.directory toldChanges)
    ((Input.directory (directoryWith "in" [])).content firstTree)
    ((Input.directory (directoryWith "in" [])).content secondTree) where
  described ns status marks := by
    rcases marks_toldChanges.mp marks with ⟨rfl, rfl⟩ | ⟨rfl, rfl⟩ | ⟨rfl, rfl⟩
    · exact Option.isSome_iff_ne_none.mp (by cbv)
    · exact ⟨Option.isSome_iff_ne_none.mp (by cbv), by cbv⟩
    · exact Option.isSome_iff_ne_none.mp (by cbv)
  current ns status marks kept := by
    rcases marks_toldChanges.mp marks with ⟨rfl, rfl⟩ | ⟨rfl, rfl⟩ | ⟨rfl, rfl⟩
    · cbv
    · exact absurd rfl kept
    · cbv
  omitted ns unmarked := by
    by_cases more : ns = []
    · rw [more]
      rfl
    simp only [marks_toldChanges] at unmarked
    have others : ns ≠ ["a"] ∧ ns ≠ ["b"] ∧ ns ≠ ["b", "c"] :=
      ⟨fun same => unmarked _ (.inl ⟨same, rfl⟩), fun same => unmarked _ (.inr (.inl ⟨same, rfl⟩)),
        fun same => unmarked _ (.inr (.inr ⟨same, rfl⟩))⟩
    unfold firstTree secondTree
    rw [content_of_workspace (by decide) (by decide) (by decide) more,
      content_of_workspace (by decide) (by decide) (by decide) more]
    simp [FileTree.fileAt, FileTree.find?, workspace, FileTree.lookup_cons_entry, others]

theorem incremental_agrees_replaced : ∃ s₀ s₁ s₂,
    (hookless .ifMissing).reported .full [.directory (directoryWith "in" [])] firstTree = some s₀ ∧
    (hookless .ifMissing).reported .incremental [.directory toldChanges] staleTree = some s₁ ∧
    (hookless .ifMissing).reported .full [.directory (directoryWith "in" [])] secondTree = some s₂ ∧
    ∀ l, ["w", "out"] <+: l → s₁.tree.fileAt l = s₂.tree.fileAt l := by
  let b := hookless .ifMissing
  let whole : List Input := [.directory (directoryWith "in" [])]
  let place : Identity → Location := fun _ => ["w", "out", "in"]
  have site₀ : Site { b with config := b.config } .full whole ["w", "out"] place firstTree :=
    site_of_workspace (by decide) (by decide) (by decide)
  have site₁ : Site b .incremental [.directory toldChanges] ["w", "out"] place staleTree :=
    site_of_workspace (by decide) (by decide) (by decide)
  have site₂ : Site { b with config := b.config } .full whole ["w", "out"] place secondTree :=
    site_of_workspace (by decide) (by decide) (by decide)
  obtain ⟨s₀, first⟩ : ∃ s₀, b.reported .full whole firstTree = some s₀ :=
    Option.isSome_iff_exists.mp (by cbv)
  obtain ⟨s₁, run⟩ : ∃ s₁, b.reported .incremental [.directory toldChanges] staleTree = some s₁ :=
    Option.isSome_iff_exists.mp (by cbv)
  obtain ⟨s₂, again⟩ : ∃ s₂, b.reported .full whole secondTree = some s₂ :=
    Option.isSome_iff_exists.mp (by cbv)
  have stored : (b.reported .full whole firstTree).map (fun s => s.tree.entries.filter
      fun e => ["w", "out"].isPrefixOf e.1) =
      some (staleTree.entries.filter fun e => ["w", "out"].isPrefixOf e.1) := by cbv
  rw [first] at stored
  have same : ∀ l, ["w", "out"] <+: l → staleTree.find? l = s₀.tree.find? l := fun l inside =>
    FileTree.find?_congr (by decide) (Option.some.inj stored).symm inside
  refine ⟨s₀, s₁, s₂, first, run, again, incremental_agrees (by decide) ⟨by decide, by decide⟩ site₀ site₁
    site₂ (runs_of_reported first) same (fun i inside => ?_) (fun id other => ?_)
    (runs_of_reported run) (runs_of_reported again)⟩
  · obtain rfl := List.mem_singleton.mp inside
    change Accurate staleTree _
      (contentOf whole firstTree (Input.directory (directoryWith "in" [])).identity)
      (contentOf whole secondTree (Input.directory (directoryWith "in" [])).identity)
    rw [contentOf_mem site₀.distinct (by simp [whole]),
      contentOf_mem site₂.distinct (by simp [whole])]
    exact toldChanges_accurate
  · have absent : ∀ i ∈ whole, i.identity ≠ id := by
      intro i inside
      rw [List.mem_singleton.mp inside]
      have apart := other _ (List.mem_singleton_self _)
      exact apart
    rw [contentOf_absent absent, contentOf_absent absent]

end Build
end ClassHooks
