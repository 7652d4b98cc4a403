import ClassHooks.Proofs.Build.Rebuilding

/-!
A run step by step, with a log of the files that are listed, of the paths that are taken and of the
paths that are acted on. The files of a directory may come in any order, and the run may stop where
something fails.
-/
namespace ClassHooks
namespace Build

structure Holder where
  input : Nat
  file : Option Nat
  deriving DecidableEq

inductive Move where
  | list (input : Nat) (files : List (Path × Action))
  | claim (holder : Holder) (path : Path)
  | act (holder : Holder) (path : Path)

/-- Where a run stands: before an input, at its destination, in the plan for its files, or in the
work on those that are left, each with its index. -/
inductive Turn where
  | input (n : Nat)
  | claimed (n : Nat) (destination : Path)
  | planning (n : Nat) (destination : Path) (files : List (Path × Action))
      (planned : List PlannedFile)
  | processing (n : Nat) (left : List (PlannedFile × Nat)) (failed : Bool)
  | stopped

structure Progress where
  session : Session
  turn : Turn

def Progress.after {α : Type} (result : EStateM.Result Error Session α) (next : α → Turn) :
    Progress :=
  match result with
  | .ok a s => ⟨s, next a⟩
  | .error _ s => ⟨s, .stopped⟩

def takeDestination (b : Build) (i : Input) : RunM Path := do
  let destination ← RunM.lift (b.resolver.resolve i.name i.format)
  RunM.claim destination
  return destination

/-- One step of a run, with what is seen of it. Any file that is left may be next, and after a
failure the others may still be processed before the run stops. -/
inductive Step (b : Build) (mode : BuildMode) (inputs : List Input) :
    Progress → List Move → Progress → Prop
  | claim {n : Nat} {i : Input} {p : Path} {s s' : Session} (here : inputs[n]? = some i)
      (run : b.takeDestination i s = .ok p s') :
      Step b mode inputs ⟨s, .input n⟩ [.claim ⟨n, none⟩ p] ⟨s', .claimed n p⟩
  | refuse {n : Nat} {i : Input} {e : Error} {s s' : Session} (here : inputs[n]? = some i)
      (run : b.takeDestination i s = .error e s') :
      Step b mode inputs ⟨s, .input n⟩ [] ⟨s', .stopped⟩
  | archive {n : Nat} {jar : ArchiveInput} {p : Path} {s : Session}
      (here : inputs[n]? = some (.archive jar)) :
      Step b mode inputs ⟨s, .claimed n p⟩ [.act ⟨n, none⟩ p]
        (.after (b.processArchive mode jar p s) fun _ => .input (n + 1))
  | list {n : Nat} {d : DirectoryInput} {p : Path} {files : List (Path × Action)} {s s' : Session}
      (here : inputs[n]? = some (.directory d)) (run : work mode d s = .ok files s') :
      Step b mode inputs ⟨s, .claimed n p⟩ [.list n files] ⟨s', .planning n p files []⟩
  | unlisted {n : Nat} {d : DirectoryInput} {p : Path} {e : Error} {s s' : Session}
      (here : inputs[n]? = some (.directory d)) (run : work mode d s = .error e s') :
      Step b mode inputs ⟨s, .claimed n p⟩ [] ⟨s', .stopped⟩
  | plan {n : Nat} {d : DirectoryInput} {p : Path} {files : List (Path × Action)}
      {planned : List PlannedFile} {f : Path × Action} {item : PlannedFile} {s s' : Session}
      (here : inputs[n]? = some (.directory d)) (next : files[planned.length]? = some f)
      (run : plan d p f.1 f.2 s = .ok item s') :
      Step b mode inputs ⟨s, .planning n p files planned⟩
        [.claim ⟨n, some planned.length⟩ item.target] ⟨s', .planning n p files (planned ++ [item])⟩
  | unplanned {n : Nat} {d : DirectoryInput} {p : Path} {files : List (Path × Action)}
      {planned : List PlannedFile} {f : Path × Action} {e : Error} {s s' : Session}
      (here : inputs[n]? = some (.directory d)) (next : files[planned.length]? = some f)
      (run : plan d p f.1 f.2 s = .error e s') :
      Step b mode inputs ⟨s, .planning n p files planned⟩ [] ⟨s', .stopped⟩
  | planned {n : Nat} {p : Path} {files : List (Path × Action)} {planned : List PlannedFile}
      {s : Session} (all : planned.length = files.length) :
      Step b mode inputs ⟨s, .planning n p files planned⟩ []
        ⟨s, .processing n planned.zipIdx false⟩
  | item {n k : Nat} {before after : List (PlannedFile × Nat)} {item : PlannedFile} {failed : Bool}
      {s s' : Session} (run : b.processItem item s = .ok () s') :
      Step b mode inputs ⟨s, .processing n (before ++ (item, k) :: after) failed⟩
        [.act ⟨n, some k⟩ item.target] ⟨s', .processing n (before ++ after) failed⟩
  | itemFails {n k : Nat} {before after : List (PlannedFile × Nat)} {item : PlannedFile}
      {failed : Bool} {e : Error} {s s' : Session} (run : b.processItem item s = .error e s') :
      Step b mode inputs ⟨s, .processing n (before ++ (item, k) :: after) failed⟩
        [.act ⟨n, some k⟩ item.target] ⟨s', .processing n (before ++ after) true⟩
  | processed {n : Nat} {s : Session} :
      Step b mode inputs ⟨s, .processing n [] false⟩ [] ⟨s, .input (n + 1)⟩
  | fail {n : Nat} {left : List (PlannedFile × Nat)} {s : Session} :
      Step b mode inputs ⟨s, .processing n left true⟩ [] ⟨s, .stopped⟩

inductive Trail (b : Build) (mode : BuildMode) (inputs : List Input) (p : Progress) :
    List Move → Progress → Prop
  | start : Trail b mode inputs p [] p
  | step {log moves : List Move} {q r : Progress} (earlier : Trail b mode inputs p log q)
      (step : Step b mode inputs q moves r) : Trail b mode inputs p (log ++ moves) r

def start (b : Build) (mode : BuildMode) (t : FileTree) : Progress :=
  .after (b.prepare mode ⟨t, .start mode, []⟩) fun _ => .input 0

section Run
variable {b : Build} {mode : BuildMode} {inputs : List Input} {p q r : Progress}

theorem Trail.trans {log log' : List Move} (first : Trail b mode inputs p log q)
    (rest : Trail b mode inputs q log' r) : Trail b mode inputs p (log ++ log') r := by
  induction rest with
  | start =>
    rw [List.append_nil]
    exact first
  | step _ step ih =>
    rw [← List.append_assoc]
    exact .step ih step

theorem Trail.single {moves : List Move} (step : Step b mode inputs p moves q) :
    Trail b mode inputs p moves q :=
  .step .start step

def Reaches (b : Build) (mode : BuildMode) (inputs : List Input) (p q : Progress) : Prop :=
  ∃ log, Trail b mode inputs p log q

theorem Reaches.refl : Reaches b mode inputs p p := ⟨[], .start⟩

theorem Reaches.trans (first : Reaches b mode inputs p q) (rest : Reaches b mode inputs q r) :
    Reaches b mode inputs p r := by
  obtain ⟨log, first⟩ := first
  obtain ⟨log', rest⟩ := rest
  exact ⟨log ++ log', first.trans rest⟩

theorem Reaches.single {moves : List Move} (step : Step b mode inputs p moves q) :
    Reaches b mode inputs p q :=
  ⟨moves, .single step⟩

theorem reaches_bind {α β : Type} {x : RunM α} {f : α → RunM β} {s : Session} {last : β → Turn}
    (middle : α → Turn) (first : Reaches b mode inputs p (.after (x s) middle))
    (rest : ∀ a s', x s = .ok a s' → Reaches b mode inputs ⟨s', middle a⟩ (.after (f a s') last)) :
    Reaches b mode inputs p (.after ((x >>= f) s) last) := by
  cases run : x s with
  | ok a s' =>
    rw [state_bind_of_ok run]
    rw [run] at first
    exact first.trans (rest a s' run)
  | error e s' =>
    rw [state_bind_of_error run]
    rw [run] at first
    exact first

section Directory
variable {n : Nat} {d : DirectoryInput} {destination : Path} {s : Session}

theorem reaches_items (left : List (PlannedFile × Nat)) :
    Reaches b mode inputs ⟨s, .processing n left false⟩
      (.after ((left.map Prod.fst).forM b.processItem s) fun _ => .input (n + 1)) := by
  induction left generalizing s with
  | nil => exact .single .processed
  | cons x left ih =>
    obtain ⟨item, k⟩ := x
    change Reaches _ _ _ _
      (.after ((b.processItem item >>= fun _ => (left.map Prod.fst).forM b.processItem) s) _)
    refine reaches_bind (fun _ => .processing n left false) ?_ fun _ s' _ => ih
    cases run : b.processItem item s with
    | ok done s' =>
      have turn : Step b mode inputs ⟨s, .processing n ([] ++ (item, k) :: left) false⟩ _
        ⟨s', .processing n ([] ++ left) false⟩ := .item run
      exact .single turn
    | error e s' =>
      have turn : Step b mode inputs ⟨s, .processing n ([] ++ (item, k) :: left) false⟩ _
        ⟨s', .processing n ([] ++ left) true⟩ := .itemFails run
      exact (Reaches.single turn).trans (.single .fail)

theorem reaches_plans (here : inputs[n]? = some (.directory d)) {files : List (Path × Action)}
    (front : List (Path × Action)) {rest : List (Path × Action)} {planned : List PlannedFile}
    (whole : files = front ++ rest) (begun : front.length = planned.length) :
    Reaches b mode inputs ⟨s, .planning n destination files planned⟩
      (.after ((rest.mapM fun f => plan d destination f.1 f.2) s)
        fun items => .planning n destination files (planned ++ items)) := by
  induction rest generalizing front planned s with
  | nil =>
    change Reaches _ _ _ _ ⟨s, .planning n destination files (planned ++ [])⟩
    rw [List.append_nil]
    exact .refl
  | cons f rest ih =>
    have next : files[planned.length]? = some f := by
      simp [whole, ← begun]
    rw [List.mapM_cons]
    refine reaches_bind (fun item => .planning n destination files (planned ++ [item])) ?_
      fun item s₁ _ => ?_
    · cases run : plan d destination f.1 f.2 s with
      | ok item s' => exact .single (.plan here next run)
      | error e s' => exact .single (.unplanned here next run)
    · refine reaches_bind _ (ih (front ++ [f]) (by simp [whole]) (by simp [begun]))
        fun items s₂ _ => ?_
      rw [List.append_assoc]
      exact .refl

theorem reaches_directory (here : inputs[n]? = some (.directory d)) :
    Reaches b mode inputs ⟨s, .claimed n destination⟩
      (.after (b.processDirectory mode d destination s) fun _ => .input (n + 1)) := by
  refine reaches_bind (fun files => .planning n destination files []) ?_
    fun files s₁ worked => ?_
  · cases run : work mode d s with
    | ok files s' => exact .single (.list here run)
    | error e s' => exact .single (.unlisted here run)
  refine reaches_bind _ (reaches_plans here [] rfl rfl) fun planned s₂ plans => ?_
  have all : planned.length = files.length := (plans_ok_iff.mp plans).1.targets.length_eq.symm
  refine (Reaches.single (.planned all)).trans ?_
  have items : Reaches b mode inputs ⟨s₂, .processing n planned.zipIdx false⟩ _ :=
    reaches_items planned.zipIdx
  rw [List.zipIdx_map_fst] at items
  exact items

theorem processInput_eq (b : Build) (mode : BuildMode) (i : Input) :
    b.processInput mode i = b.takeDestination i >>= fun destination =>
      match i with
      | .archive jar => b.processArchive mode jar destination
      | .directory d => b.processDirectory mode d destination := by
  unfold processInput takeDestination
  cases i <;> simp only [bind_assoc, pure_bind]

theorem reaches_input {i : Input} (here : inputs[n]? = some i) :
    Reaches b mode inputs ⟨s, .input n⟩
      (.after (b.processInput mode i s) fun _ => .input (n + 1)) := by
  rw [processInput_eq]
  refine reaches_bind (fun p => .claimed n p) ?_ fun p s₁ _ => ?_
  · cases run : b.takeDestination i s with
    | ok p s' => exact .single (.claim here run)
    | error e s' => exact .single (.refuse here run)
  · cases i with
    | archive jar => exact .single (.archive here)
    | directory d => exact reaches_directory here

end Directory

theorem reaches_inputs (front : List Input) {rest : List Input} (whole : inputs = front ++ rest)
    {s : Session} : Reaches b mode inputs ⟨s, .input front.length⟩
      (.after (rest.forM (b.processInput mode) s) fun _ => .input inputs.length) := by
  induction rest generalizing front s with
  | nil =>
    rw [whole, List.append_nil]
    exact .refl
  | cons i rest ih =>
    have here : inputs[front.length]? = some i := by
      simp [whole]
    change Reaches _ _ _ _
      (.after ((b.processInput mode i >>= fun _ => rest.forM (b.processInput mode)) s) _)
    refine reaches_bind _ (reaches_input here) fun _ s' _ => ?_
    have later := ih (front ++ [i]) (by simp [whole]) (s := s')
    rw [List.length_append] at later
    exact later

theorem process_eq (b : Build) (mode : BuildMode) (inputs : List Input) :
    b.process mode inputs = b.prepare mode >>= fun _ =>
      inputs.forM (b.processInput mode) >>= fun _ => do return (← get).ledger.report := by
  cases mode <;> rfl

theorem reaches_process (b : Build) (mode : BuildMode) (inputs : List Input) (t : FileTree) :
     Reaches b mode inputs (b.start mode t)
    (.after (b.process mode inputs ⟨t, .start mode, []⟩) fun _ => .input inputs.length) := by
  rw [process_eq]
  refine reaches_bind _ .refl fun _ s _ => ?_
  exact reaches_bind _ (reaches_inputs [] rfl) fun _ s' _ => .refl

end Run

/-- What `run` does are steps of a run; one that reports has been through all inputs. -/
theorem trail_of_run (b : Build) (mode : BuildMode) (inputs : List Input) (t : FileTree) :
    ∃ log turn, Trail b mode inputs (b.start mode t) log ⟨(b.run mode inputs t).2, turn⟩ ∧
      ∀ report, (b.run mode inputs t).1 = .ok report → turn = .input inputs.length := by
  obtain ⟨log, trail⟩ := reaches_process b mode inputs t
  unfold Build.run
  cases run : b.process mode inputs ⟨t, .start mode, []⟩ with
  | ok report s =>
    rw [run] at trail
    exact ⟨log, _, trail, fun _ _ => rfl⟩
  | error e s =>
    rw [run] at trail
    exact ⟨log, _, trail, nofun⟩

end Build
end ClassHooks
