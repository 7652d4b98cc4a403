import ClassHooks.Proofs.Build.Likeness
import ClassHooks.Proofs.Build.Trail
import ClassHooks.Proofs.Weaving.Events
import ClassHooks.Proofs.Weaving.ReturnSites

/-!
The returns that a run reports: those of all methods that it weaves, in classes that lie loose or in
jars. They are the returns with the return hook before them if the chain emits something for the
returns of each of these methods, and more than these otherwise.
-/
namespace ClassHooks

open ClassHooks.Weaving

def PlannedFile.classes (item : PlannedFile) (s : Session) : List Bytes :=
  if item.action = .weave ∧ item.file.extension? = some "class" then
    (s.tree.readFile item.file).toOption.toList
  else []

def ArchiveInput.classes (jar : ArchiveInput) (mode : BuildMode) (s : Session) : List Bytes :=
  if Action.decide jar.status mode = .weave then
    match Jar.load jar.path s with
    | .ok entries _ => (entries.filter Jar.Entry.isClass).map Jar.Entry.data
    | .error _ _ => []
  else []

theorem ArchiveInput.classes_eq_nil {jar : ArchiveInput} {mode : BuildMode}
    (other : Action.decide jar.status mode ≠ .weave) (s : Session) : jar.classes mode s = [] :=
  if_neg other

def Ledger.woven (l : Ledger) : WeaveCount := ⟨l.report.methods, l.report.returnSites⟩

namespace Build
variable {b : Build} {mode : BuildMode} {s s₁ s' : Session} {l l₁ l' : Ledger} {cs ds : List Bytes}

def classesOf (b : Build) : List PlannedFile → Session → List Bytes
  | [], _ => []
  | item :: items, s => item.classes s ++
    match b.processItem item s with
    | .ok _ s' => b.classesOf items s'
    | .error _ _ => []

/-- What `Processes` tells of an input, with the classes that are woven for it. -/
inductive Weaves (b : Build) (mode : BuildMode) : Input → Session → List Bytes → Session → Prop
  | archive {jar : ArchiveInput} {destination : Path} {s s₁ s' : Session}
      (resolved : b.resolver.resolve jar.name .archive = .ok destination)
      (claimed : RunM.claim destination s = .ok () s₁)
      (run : b.processArchive mode jar destination s₁ = .ok () s') :
      Weaves b mode (.archive jar) s (jar.classes mode s₁) s'
  | directory {d : DirectoryInput} {destination : Path} {s s₁ s₂ s' : Session}
      {planned order : List PlannedFile}
      (resolved : b.resolver.resolve d.name .directory = .ok destination)
      (claimed : RunM.claim destination s = .ok () s₁)
      (plan : schedule mode d destination s₁ = .ok planned s₂) (any : order.Perm planned)
      (run : order.forM b.processItem s₂ = .ok () s') :
      Weaves b mode (.directory d) s (b.classesOf order s₂) s'

inductive WeavesAll (b : Build) (mode : BuildMode) :
    List Input → Session → List Bytes → Session → Prop
  | nil {s : Session} : WeavesAll b mode [] s [] s
  | cons {i : Input} {inputs : List Input} {cs ds : List Bytes} {s s₁ s' : Session}
      (first : Weaves b mode i s cs s₁) (rest : WeavesAll b mode inputs s₁ ds s') :
      WeavesAll b mode (i :: inputs) s (cs ++ ds) s'

def RunWeaves (b : Build) (mode : BuildMode) (inputs : List Input) (t : FileTree)
    (cs : List Bytes) (s' : Session) : Prop :=
  ∃ s, b.prepare mode ⟨t, .start mode, []⟩ = .ok () s ∧ b.WeavesAll mode inputs s cs s'

theorem weavesAll_of_processesAll {inputs : List Input} (run : b.ProcessesAll mode inputs s s') :
    ∃ cs, b.WeavesAll mode inputs s cs s' := by
  induction run with
  | nil => exact ⟨[], .nil⟩
  | cons first _ ih =>
    obtain ⟨ds, rest⟩ := ih
    cases first with
    | archive resolved claimed run => exact ⟨_, .cons (.archive resolved claimed run) rest⟩
    | directory resolved claimed plan any run =>
      exact ⟨_, .cons (.directory resolved claimed plan any run) rest⟩

/-- From the one ledger to the other, the methods that are woven of these classes are counted. -/
def Counts (b : Build) (l : Ledger) (cs : List Bytes) (l' : Ledger) : Prop :=
  ∃ iss, List.Forall₂ (WovenMethods b.chain b.selector) cs iss ∧
    l'.woven = adding l.woven iss.flatten

theorem Counts.nil (same : l'.woven = l.woven) : b.Counts l [] l' := ⟨[], .nil, same⟩

theorem Counts.append (first : b.Counts l cs l₁) (rest : b.Counts l₁ ds l') :
    b.Counts l (cs ++ ds) l' := by
  obtain ⟨iss, methods, here⟩ := first
  obtain ⟨jss, methods', there⟩ := rest
  refine ⟨iss ++ jss, List.rel_append methods methods', ?_⟩
  rw [there, here, List.flatten_append, adding_append]

theorem Counts.quiet (counts : b.Counts l cs l₁) (same : l'.woven = l₁.woven) :
    b.Counts l cs l' := by
  obtain ⟨iss, methods, here⟩ := counts
  exact ⟨iss, methods, same.trans here⟩

theorem counts_unit {bytes : Bytes} {outcome : Outcome} (woven : b.weave bytes = .ok outcome) :
    b.Counts l [bytes] (l.recordUnit outcome) := by
  obtain ⟨is, methods, counted⟩ := wovenMethods_of_weaveUnit woven
  refine ⟨[is], .cons methods .nil, ?_⟩
  have grown : (l.recordUnit outcome).woven =
      ⟨l.woven.methods + (countOf outcome).methods,
        l.woven.returnSites + (countOf outcome).returnSites⟩ := by
    cases outcome <;> rfl
  rw [grown, counted, List.flatten_singleton]
  simp only [adding, Nat.zero_add]

theorem copyThrough_weaves_none {policy : CopyPolicy} {source target : Path} {done : Unit}
    (run : copyThrough policy source target s = .ok done s') :
    s'.ledger.woven = s.ledger.woven := by
  rcases copyThrough_cases run with ⟨_, _, _, _, noted⟩ | ⟨_, _, noted⟩
  · rw [noted]
    rfl
  · rw [noted]
    rfl

theorem delete_weaves_none {target : Path} {done : Unit} (run : delete target s = .ok done s') :
    s'.ledger.woven = s.ledger.woven := by
  obtain ⟨removed, _, noted⟩ := delete_cases run
  rw [noted]
  cases removed <;> rfl

section Items
variable {item : PlannedFile} {items : List PlannedFile}

theorem counts_of_item {done : Unit} (run : b.processItem item s = .ok done s') :
    b.Counts s.ledger (item.classes s) s'.ledger := by
  unfold processItem at run
  unfold PlannedFile.classes
  cases action : item.action with
  | weave =>
    rw [action] at run
    obtain ⟨bytes, _, read, _, cases⟩ := weaveFile_cases run
    rcases cases with ⟨kind, outcome, woven, _, noted⟩ | ⟨kind, _, noted⟩
    · rw [if_pos ⟨rfl, kind⟩, read, noted]
      exact counts_unit woven
    · rw [if_neg fun both => kind both.2, noted]
      exact .nil rfl
  | copyThrough =>
    rw [action] at run
    exact .nil (copyThrough_weaves_none run)
  | delete =>
    rw [action] at run
    exact .nil (delete_weaves_none run)

theorem counts_of_items {done : PUnit} (run : items.forM b.processItem s = .ok done s') :
    b.Counts s.ledger (b.classesOf items s) s'.ledger := by
  induction items generalizing s with
  | nil =>
    cases run
    exact .nil rfl
  | cons item items ih =>
    obtain ⟨s₁, first, rest⟩ := forM_cons_ok_iff.mp run
    rw [classesOf, first]
    exact (counts_of_item first).append (ih rest)

end Items

section Archive
variable {es : List Jar.Entry}

theorem counts_of_entries (woven : ∀ e ∈ es, b.weave e.data = .ok (Jar.outcomeOf b.weave e)) :
    b.Counts l (es.map Jar.Entry.data)
      (es.foldl (fun l e => l.recordUnit (Jar.outcomeOf b.weave e)) l) := by
  induction es generalizing l with
  | nil => exact .nil rfl
  | cons e es ih =>
    rw [List.forall_mem_cons] at woven
    exact (counts_unit woven.1).append (ih woven.2)

theorem resources_weave_none :
    (es.foldl (fun l _ => l.recordResource) l).woven = l.woven := by
  induction es generalizing l with
  | nil => rfl
  | cons e es ih => exact ih

theorem counts_of_renew {jar : ArchiveInput} {destination : Path}
    (weaves : Action.decide jar.status mode = .weave)
    (run : Jar.renew b.weave jar.path destination s = .ok () s') :
    b.Counts s.ledger (jar.classes mode s) s'.ledger := by
  rw [Jar.renew_eq, Jar.repack_ok_iff] at run
  cases run with
  | @mk place bytes _ entries _ _ found read woven _ _ _ =>
    have loaded : Jar.load jar.path s = .ok entries s :=
      Jar.library_load_ok_iff.mpr ⟨rfl, place, bytes, found, read⟩
    have weavable : ∀ e ∈ entries.filter Jar.Entry.isClass,
        b.weave e.data = .ok (Jar.outcomeOf b.weave e) := by
      intro e member
      obtain ⟨inside, kind⟩ := List.mem_filter.mp member
      exact woven e inside kind
    unfold ArchiveInput.classes
    rw [if_pos weaves, loaded, Jar.notes_eq]
    exact (counts_of_entries weavable).quiet resources_weave_none

theorem counts_of_archive {jar : ArchiveInput} {destination : Path}
    (run : b.processArchive mode jar destination s = .ok () s') :
    b.Counts s.ledger (jar.classes mode s) s'.ledger := by
  unfold processArchive at run
  cases action : Action.decide jar.status mode with
  | weave =>
    rw [action] at run
    exact counts_of_renew action run
  | copyThrough =>
    rw [action] at run
    rw [ArchiveInput.classes_eq_nil (by rw [action]; nofun)]
    exact .nil (copyThrough_weaves_none run)
  | delete =>
    rw [action] at run
    rw [ArchiveInput.classes_eq_nil (by rw [action]; nofun)]
    exact .nil (delete_weaves_none run)

end Archive

theorem counts_of_weaves {i : Input} (weaves : b.Weaves mode i s cs s') :
    b.Counts s.ledger cs s'.ledger := by
  cases weaves with
  | archive _ claimed run =>
    obtain ⟨_, rfl⟩ := RunM.claim_ok_iff.mp claimed
    exact counts_of_archive run
  | directory _ claimed plan _ run =>
    obtain ⟨_, rfl⟩ := RunM.claim_ok_iff.mp claimed
    obtain ⟨_, _, _, rfl⟩ := schedule_ok_iff.mp plan
    exact counts_of_items run

theorem counts_of_weavesAll {inputs : List Input} (weaves : b.WeavesAll mode inputs s cs s') :
    b.Counts s.ledger cs s'.ledger := by
  induction weaves with
  | nil => exact .nil rfl
  | cons first _ ih => exact (counts_of_weaves first).append ih

theorem prepare_weaves_none {done : Unit} (run : b.prepare mode s = .ok done s') :
    s'.ledger.woven = s.ledger.woven := by
  have clears : ∀ p, Keeps (fun u : Session => u.ledger.woven = s.ledger.woven) (clearArea p) := by
    intro p u same
    unfold clearArea
    cases u.tree.removeDirectory p with
    | ok tree => exact same
    | error fault => cases fault <;> exact same
  refine holds_of_keeps (I := fun u : Session => u.ledger.woven = s.ledger.woven) ?_ rfl run
  unfold prepare
  split
  · exact keeps_pure ()
  · cases b.resolver.area with
    | none => exact keeps_pure ()
    | some p => exact clears p

/-- What a run that weaves these methods reports: all their returns. Those with the return hook are
as many if the chain emits something for the returns of each method that has some, and fewer if
not. -/
structure Tells (r : Report) (is : List Instrumented) : Prop where
  methods : r.methods = is.length
  returns : r.returnSites = (is.map fun i => i.woven.body.returnCount).sum
  hooked : Instrumented.allHooked is ≤ r.returnSites
  exact : r.returnSites = Instrumented.allHooked is ↔ ∀ i ∈ is, i.Answers

theorem tells_of_runWeaves {inputs : List Input} {t : FileTree}
    (weaves : b.RunWeaves mode inputs t cs s') :
    ∃ iss, List.Forall₂ (WovenMethods b.chain b.selector) cs iss ∧
      Tells s'.ledger.report iss.flatten := by
  obtain ⟨s, prepared, all⟩ := weaves
  obtain ⟨iss, methods, counted⟩ := counts_of_weavesAll all
  have none : s.ledger.woven = ⟨0, 0⟩ := prepare_weaves_none prepared
  rw [none, adding, Nat.zero_add, Nat.zero_add] at counted
  have each : ∀ i ∈ iss.flatten, ∃ chain requireFrames method p p',
      i.Arises chain requireFrames method p p' := by
    intro i inside
    obtain ⟨is, member, here⟩ := List.mem_flatten.mp inside
    obtain ⟨_, _, woven⟩ := related_of_mem_right methods member
    exact ⟨_, woven.arises i here⟩
  have told : s'.ledger.report.returnSites = Instrumented.allTold iss.flatten :=
    congrArg WeaveCount.returnSites counted
  obtain ⟨less, exact⟩ := Instrumented.allHooked_le_allTold each
  refine ⟨iss, methods, congrArg WeaveCount.methods counted, ?_, ?_, ?_⟩
  · rw [told, Instrumented.allTold_eq each]
  · rw [told]
    exact less
  · rw [told]
    exact exact

theorem report_of_run {inputs : List Input} {t : FileTree} {report : Report}
    (run : b.run mode inputs t = (.ok report, s')) : report = s'.ledger.report := by
  unfold Build.run at run
  rw [process_eq] at run
  split at run
  · rename_i processed
    cases run
    obtain ⟨_, _, _, processed⟩ := state_bind_ok_iff.mp processed
    obtain ⟨_, _, _, ended⟩ := state_bind_ok_iff.mp processed
    cases ended
    rfl
  · cases run

/-- The returns that are told of a woven method are all returns that it has. All of them have the
return hook if the chain emits an instruction for it, and none has it otherwise. A run reports the
returns of all methods that it weaves, whatever the order of the files of a directory. -/
theorem return_sites_told (c : CodeAttribute) (pool : Pool) (body : Body) (chain : Chain)
    (requireFrames : Bool) (method : MethodName) (p p' : Pool) (woven : WovenMethod) (b : Build)
    (mode : BuildMode) (inputs : List Input) (t : FileTree) (s : Session) :
    (Body.ofCode c pool = .ok body → body.weave chain requireFrames method p = .ok woven p' →
      ∃ i : Instrumented, i.Arises chain requireFrames method p p' ∧ i.body = body ∧
        i.woven = woven ∧ woven.returnSites = woven.body.returnCount ∧
        i.hooked = (if i.hooks.exit = [] then 0 else woven.body.returnCount) ∧
        (woven.returnSites = i.hooked ↔ i.Answers)) ∧
    (∀ report, b.run mode inputs t = (.ok report, s) →
      b.Runs mode inputs t s ∧ report = s.ledger.report) ∧
    (b.Runs mode inputs t s → ∃ cs iss, b.RunWeaves mode inputs t cs s ∧
      List.Forall₂ (WovenMethods b.chain b.selector) cs iss ∧
      Tells s.ledger.report iss.flatten) := by
  refine ⟨fun read run => ?_, fun report run => ⟨runs_of_run run, report_of_run run⟩, ?_⟩
  · obtain ⟨i, arises, rfl, rfl⟩ := Instrumented.exists_arises read run
    exact ⟨i, arises, rfl, rfl, arises.told, arises.hooked, arises.told_eq_hooked_iff⟩
  · rintro ⟨s₀, prepared, all⟩
    obtain ⟨cs, weaves⟩ := weavesAll_of_processesAll all
    obtain ⟨iss, methods, tells⟩ := tells_of_runWeaves ⟨s₀, prepared, weaves⟩
    exact ⟨cs, iss, ⟨s₀, prepared, weaves⟩, methods, tells⟩

def classTree : FileTree :=
  workspace [(["in"], .directory), (["in", "C.class"], .file threeMethods)]

def classChanges : DirectoryInput := directoryWith "in" [("C.class", .addedOrChanged)]

theorem classTree_reports : ∃ s, reporter.run .incremental [.directory classChanges] classTree =
    (.ok s.ledger.report, s) ∧ s.ledger.report.returnSites = 1 := by
  let item : PlannedFile :=
    ⟨⟨false, ["in", "C.class"]⟩, ⟨false, ["out", "in", "C.class"]⟩, .weave⟩
  let s₀ : Session := ⟨classTree, .start .incremental, []⟩
  let s₁ : Session := ⟨classTree, ⟨[.parse "out/in"], .start .incremental⟩, []⟩
  let s₂ : Session := ⟨classTree, ⟨[item.target, .parse "out/in"], .start .incremental⟩, []⟩
  have plan : schedule .incremental classChanges (.parse "out/in") s₁ = .ok [item] s₂ := by cbv
  have read : s₂.tree.readFile item.file = .ok threeMethods := by cbv
  have takes : s₂.tree.Takes item.target := by
    refine ⟨⟨classTree.entries ++ [(["w", "out"], .directory), (["w", "out", "in"], .directory)],
      ["w"]⟩, by cbv, fun new => ?_⟩
    refine ⟨⟨classTree.entries ++ [(["w", "out"], .directory), (["w", "out", "in"], .directory),
      (["w", "out", "in", "C.class"], .file new)], ["w"]⟩, ?_⟩
    cbv
  have weaves : (reporter.weave threeMethods).toOption.any (fun outcome =>
      countOf outcome = ⟨1, 1⟩) = true := by decide +kernel
  obtain ⟨outcome, woven⟩ := ok_of_isSome (Option.isSome_of_any weaves)
  rw [woven] at weaves
  have counted : countOf outcome = ⟨1, 1⟩ := of_decide_eq_true weaves
  have treats : Treats reporter.weave threeMethods (item.file.extension? = some "class")
      (.wove outcome (outcome.written threeMethods)) := by
    rw [show decide (item.file.extension? = some "class") = true by cbv]
    exact .wove woven
  obtain ⟨s', run, _, noted⟩ := weaveFile_of_treats read takes treats
  have free : ∀ c ∈ s₀.ledger.claimed, c.components ≠ (Path.parse "out/in").components := by
    intro c taken
    cases taken
  have input : reporter.processInput .incremental (.directory classChanges) s₀ = .ok () s' := by
    refine state_bind_ok_iff.mpr ⟨.parse "out/in", s₀, rfl, ?_⟩
    refine state_bind_ok_iff.mpr ⟨(), s₁, RunM.claim_ok_iff.mpr ⟨free, rfl⟩, ?_⟩
    exact processDirectory_ok_iff.mpr ⟨[item], s₂, plan, forM_cons_ok_iff.mpr ⟨s', run, rfl⟩⟩
  have processed : reporter.process .incremental [.directory classChanges] s₀ =
      .ok s'.ledger.report s' := by
    rw [process_eq]
    refine state_bind_ok_iff.mpr ⟨(), s₀, rfl, ?_⟩
    exact state_bind_ok_iff.mpr ⟨⟨⟩, s', forM_cons_ok_iff.mpr ⟨s', input, rfl⟩, rfl⟩
  refine ⟨s', ?_, ?_⟩
  · unfold Build.run
    rw [processed]
  · rw [noted]
    cases outcome with
    | unchanged => cases counted
    | woven bytes methods sites =>
      cases counted
      rfl

theorem classTree_told : ∃ (i : Instrumented) (p' : Pool) (s : Session) (cs : List Bytes)
    (iss : List (List Instrumented)), Body.ofCode twoReturns Pool.empty = .ok i.body ∧
    i.body.weave reporting false ⟨"A", "m", "()V"⟩ Pool.empty = .ok i.woven p' ∧
    i.woven.returnSites = i.woven.body.returnCount ∧
    (i.woven.returnSites = i.hooked ↔ i.Answers) ∧
    reporter.run .incremental [.directory classChanges] classTree = (.ok s.ledger.report, s) ∧
    reporter.RunWeaves .incremental [.directory classChanges] classTree cs s ∧
    List.Forall₂ (WovenMethods reporting Selector.default) cs iss ∧
    Tells s.ledger.report iss.flatten ∧ s.ledger.report.returnSites = 1 := by
  obtain ⟨body, woven, p', read, _, weaves⟩ := twoReturns_weaves
  obtain ⟨s, run, one⟩ := classTree_reports
  obtain ⟨single, reports, runs⟩ := return_sites_told twoReturns Pool.empty body reporting false
    ⟨"A", "m", "()V"⟩ Pool.empty p' woven reporter .incremental [.directory classChanges]
    classTree s
  obtain ⟨i, _, rfl, rfl, told, _, exact⟩ := single read weaves
  obtain ⟨cs, iss, all, methods, tells⟩ := runs (reports _ run).1
  exact ⟨i, p', s, cs, iss, read, weaves, told, exact, run, all, methods, tells, one⟩

def announcing : Chain :=
  ⟨[({ Callback.ofClass "rt/Trace" with onReturn := none, onError := none } : Callback).policy],
    by simp⟩

theorem announcing_return (method : MethodName) (returnType : Option FieldType) (p : Pool) :
    announcing.emit ⟨method, .return, returnType⟩ p = .ok Hook.empty p := rfl

theorem soleReturn_unhooked : ∃ (i : Instrumented) (p' : Pool),
    Body.ofCode soleReturn Pool.empty = .ok i.body ∧
    i.body.weave announcing false ⟨"A", "m", "()V"⟩ Pool.empty = .ok i.woven p' ∧
    i.Arises announcing false ⟨"A", "m", "()V"⟩ Pool.empty p' ∧
    i.woven.returnSites = 1 ∧ i.hooked = 0 := by
  have weaves : (Body.ofCode soleReturn Pool.empty).toOption.any (fun b =>
      succeeds (b.weave announcing false ⟨"A", "m", "()V"⟩) Pool.empty) = true := by decide +kernel
  have counted : (Body.ofCode soleReturn Pool.empty).toOption.any (fun b =>
      b.returnCount = 1) = true := by decide +kernel
  obtain ⟨b, read⟩ := ok_of_isSome (Option.isSome_of_any weaves)
  rw [read] at weaves counted
  obtain ⟨woven, p', run⟩ : ∃ woven p', b.weave announcing false ⟨"A", "m", "()V"⟩ Pool.empty =
      .ok woven p' := ok_of_succeeds weaves
  obtain ⟨i, arises, rfl, rfl⟩ := Instrumented.exists_arises read run
  have one : i.body.returnCount = 1 := of_decide_eq_true counted
  -- The hook of the return is what the chain emits in the pool that the enter hook leaves behind.
  have silent : i.hooks.exit = [] := by
    obtain ⟨descriptor, enter, exit, error, _, _, emits, hooks⟩ := arises.emits
    cases emits with
    | mk _ exits _ =>
      rw [if_pos (one ▸ Nat.zero_lt_one), announcing_return] at exits
      cases exits
      rw [hooks]
      rfl
  refine ⟨i, p', read, run, arises, ?_, ?_⟩
  · obtain ⟨shape, straight⟩ := arises.shape
    rw [arises.told, returns_woven shape straight, one]
  · rw [arises.hooked, if_pos silent]

end Build
end ClassHooks
