import ClassHooks.Proofs.Build.Touching
import ClassHooks.Proofs.Build.Trail

/-!
Destinations are kept apart. At each step of a run, of one that fails too and with the files of a
directory in any order, no path has been taken twice, and each act is on a path that its holder took
before. A run that comes through has different paths for all its inputs and files.
-/
namespace ClassHooks
namespace Build

open RunM

def claims (log : List Move) : List (Holder × Path) :=
  log.filterMap fun
    | .claim h p => some (h, p)
    | _ => none

/-- The path of a holder: what is resolved for an input, and for a file that was listed its
counterpart below that. -/
inductive GoesTo (b : Build) (inputs : List Input) (log : List Move) : Holder → Path → Prop
  | input {n : Nat} {i : Input} {p : Path} (here : inputs[n]? = some i)
      (resolved : b.resolver.resolve i.name i.format = .ok p) : GoesTo b inputs log ⟨n, none⟩ p
  | file {n k : Nat} {d : DirectoryInput} {destination p : Path} {files : List (Path × Action)}
      {f : Path × Action} (here : inputs[n]? = some (.directory d))
      (resolved : b.resolver.resolve d.name .directory = .ok destination)
      (listed : .list n files ∈ log) (file : files[k]? = some f)
      (goes : counterpart d.root destination f.1 = .ok p) : GoesTo b inputs log ⟨n, some k⟩ p

/-- Only the acts of the log have changed the tree, each by operations at its path. -/
inductive Traced : List Move → FileTree → FileTree → Prop
  | nil {t : FileTree} : Traced [] t t
  | act {log : List Move} {h : Holder} {p : Path} {t u v : FileTree} (earlier : Traced log t u)
      (operated : Relation.ReflTransGen (FileTree.Operates p) u v) :
      Traced (log ++ [.act h p]) t v
  | other {log : List Move} {m : Move} {t u : FileTree} (earlier : Traced log t u)
      (quiet : ∀ h p, m ≠ .act h p) : Traced (log ++ [m]) t u

/-- The books of a run: the paths of the log are those of the ledger and differ, and each act is on
a path that was taken for it before. -/
structure Booked (log : List Move) (t : FileTree) (s : Session) : Prop where
  taken : s.ledger.claimed = ((claims log).map Prod.snd).reverse
  apart : ((claims log).map fun x => x.2.components).Nodup
  guarded : ∀ before h p after, log = before ++ .act h p :: after → .claim h p ∈ before
  traced : Traced log t s.tree

section Log
variable {log : List Move} {h : Holder} {p : Path}

theorem mem_claims : (h, p) ∈ claims log ↔ .claim h p ∈ log := by
  unfold claims
  rw [List.mem_filterMap]
  constructor
  · rintro ⟨m, inside, same⟩
    cases m with
    | claim h' p' =>
      cases same
      exact inside
    | _ => cases same
  · exact fun inside => ⟨_, inside, rfl⟩

theorem claims_append (log moves : List Move) :
    claims (log ++ moves) = claims log ++ claims moves :=
  List.filterMap_append ..

end Log

theorem split_of_append {log before after : List Move} {m n : Move}
    (same : log ++ [m] = before ++ n :: after) :
    (after = [] ∧ log = before ∧ m = n) ∨ ∃ rest, log = before ++ n :: rest := by
  rcases List.eq_nil_or_concat' after with rfl | ⟨rest, last, rfl⟩
  · obtain ⟨same, last⟩ := List.append_inj' same rfl
    exact .inl ⟨rfl, same, List.singleton_inj.mp last⟩
  · rw [← List.cons_append, ← List.append_assoc] at same
    exact .inr ⟨rest, (List.append_inj' same rfl).1⟩

namespace Booked
variable {log : List Move} {t : FileTree} {s s' : Session} (booked : Booked log t s)
include booked

theorem claim {h : Holder} {p : Path} (run : RunM.claim p s = .ok () s') :
    Booked (log ++ [.claim h p]) t s' := by
  obtain ⟨fresh, rfl⟩ := claim_ok_iff.mp run
  refine ⟨?_, ?_, fun before h' p' after same => ?_, .other booked.traced nofun⟩
  · rw [claims_append]
    simp [claims, Ledger.taking, booked.taken]
  · rw [claims_append, List.map_append, List.nodup_append]
    refine ⟨booked.apart, List.nodup_singleton _, fun c inside c' last => ?_⟩
    obtain ⟨x, member, rfl⟩ := List.mem_map.mp inside
    obtain rfl := List.mem_singleton.mp last
    refine fresh x.2 ?_
    rw [booked.taken, List.mem_reverse]
    exact List.mem_map.mpr ⟨x, member, rfl⟩
  · rcases split_of_append same with ⟨_, _, other⟩ | ⟨rest, earlier⟩
    · cases other
    · exact booked.guarded before h' p' rest earlier

theorem list {n : Nat} {files : List (Path × Action)} : Booked (log ++ [.list n files]) t s := by
  have same : claims (log ++ [.list n files]) = claims log := by
    rw [claims_append]
    exact List.append_nil _
  refine ⟨same ▸ booked.taken, same ▸ booked.apart, fun before h p after split => ?_,
    .other booked.traced nofun⟩
  rcases split_of_append split with ⟨_, _, other⟩ | ⟨rest, earlier⟩
  · cases other
  · exact booked.guarded before h p rest earlier

theorem act {h : Holder} {p : Path} (claimed : .claim h p ∈ log)
    (touched : Session.Touched p s s') : Booked (log ++ [.act h p]) t s' := by
  have same : claims (log ++ [.act h p]) = claims log := by
    rw [claims_append]
    exact List.append_nil _
  refine ⟨?_, same ▸ booked.apart, fun before h' p' after split => ?_, .act booked.traced touched.1⟩
  · rw [touched.2, same]
    exact booked.taken
  · rcases split_of_append split with ⟨_, rfl, other⟩ | ⟨rest, earlier⟩
    · cases other
      exact claimed
    · exact booked.guarded before h' p' rest earlier

theorem distinct {h h' : Holder} {p p' : Path} (one : .claim h p ∈ log) (two : .claim h' p' ∈ log)
    (other : h ≠ h') : p.components ≠ p'.components := by
  intro same
  have entry := List.inj_on_of_nodup_map booked.apart (mem_claims.mpr one) (mem_claims.mpr two) same
  exact other (congrArg Prod.fst entry)

end Booked

/-- The inputs before this one have been listed, and their paths and those of their files taken. -/
structure Settled (b : Build) (mode : BuildMode) (inputs : List Input) (log : List Move) (n : Nat) :
    Prop where
  claimed : ∀ h p, h.input < n → GoesTo b inputs log h p → .claim h p ∈ log
  listed : ∀ m d, m < n → inputs[m]? = some (.directory d) →
    ∃ files s, .list m files ∈ log ∧ work mode d s = .ok files s

structure Entered (b : Build) (inputs : List Input) (log : List Move) (n : Nat) (p : Path) :
    Prop where
  resolved : ∃ i, inputs[n]? = some i ∧ b.resolver.resolve i.name i.format = .ok p
  claimed : .claim ⟨n, none⟩ p ∈ log

inductive Standing (b : Build) (mode : BuildMode) (inputs : List Input) (log : List Move) :
    Turn → Prop
  | input {n : Nat} (settled : Settled b mode inputs log n)
      (later : ∀ m files, .list m files ∈ log → m < n) : Standing b mode inputs log (.input n)
  | claimed {n : Nat} {p : Path} (settled : Settled b mode inputs log n)
      (later : ∀ m files, .list m files ∈ log → m < n) (entered : Entered b inputs log n p) :
      Standing b mode inputs log (.claimed n p)
  | planning {n : Nat} {p : Path} {files : List (Path × Action)} {planned : List PlannedFile}
      {d : DirectoryInput} (settled : Settled b mode inputs log n)
      (later : ∀ m fs, .list m fs ∈ log → m < n ∨ (m = n ∧ fs = files))
      (entered : Entered b inputs log n p) (here : inputs[n]? = some (.directory d))
      (listed : ∃ s, .list n files ∈ log ∧ work mode d s = .ok files s)
      (begun : planned.length ≤ files.length)
      (claimed : ∀ k item, planned[k]? = some item → .claim ⟨n, some k⟩ item.target ∈ log ∧
        ∃ f, files[k]? = some f ∧ counterpart d.root p f.1 = .ok item.target) :
      Standing b mode inputs log (.planning n p files planned)
  | processing {n : Nat} {left : List (PlannedFile × Nat)} {failed : Bool}
      (settled : Settled b mode inputs log (n + 1))
      (later : ∀ m files, .list m files ∈ log → m < n + 1)
      (claimed : ∀ x ∈ left, .claim ⟨n, some x.2⟩ x.1.target ∈ log) :
      Standing b mode inputs log (.processing n left failed)
  | stopped : Standing b mode inputs log .stopped

section Standing
variable {b : Build} {mode : BuildMode} {inputs : List Input} {log moves : List Move} {n : Nat}
  {h : Holder} {p : Path}

theorem GoesTo.of_append (later : ∀ m files, .list m files ∈ moves → n ≤ m) (below : h.input < n)
    (goes : GoesTo b inputs (log ++ moves) h p) : GoesTo b inputs log h p := by
  cases goes with
  | input here resolved => exact .input here resolved
  | file here resolved listed file goes =>
    rcases List.mem_append.mp listed with earlier | new
    · exact .file here resolved earlier file goes
    · exact absurd (later _ _ new) (Nat.not_le.mpr below)

theorem GoesTo.append (goes : GoesTo b inputs log h p) (moves : List Move) :
    GoesTo b inputs (log ++ moves) h p := by
  cases goes with
  | input here resolved => exact .input here resolved
  | file here resolved listed file goes =>
    exact .file here resolved (List.mem_append_left _ listed) file goes

theorem Settled.append (settled : Settled b mode inputs log n)
    (later : ∀ m files, .list m files ∈ moves → n ≤ m) :
    Settled b mode inputs (log ++ moves) n where
  claimed h p below goes :=
    List.mem_append_left _ (settled.claimed h p below (goes.of_append later below))
  listed m d below here := by
    obtain ⟨files, s, there, run⟩ := settled.listed m d below here
    exact ⟨files, s, List.mem_append_left _ there, run⟩

theorem Entered.append (entered : Entered b inputs log n p) (moves : List Move) :
    Entered b inputs (log ++ moves) n p :=
  ⟨entered.resolved, List.mem_append_left _ entered.claimed⟩

theorem Entered.resolve {i : Input} (entered : Entered b inputs log n p)
    (here : inputs[n]? = some i) : b.resolver.resolve i.name i.format = .ok p := by
  obtain ⟨j, there, resolved⟩ := entered.resolved
  rw [here] at there
  cases there
  exact resolved

theorem Settled.archive {jar : ArchiveInput} (settled : Settled b mode inputs log n)
    (entered : Entered b inputs log n p) (here : inputs[n]? = some (.archive jar)) :
    Settled b mode inputs log (n + 1) where
  claimed h q below goes := by
    rcases Nat.lt_succ_iff_lt_or_eq.mp below with earlier | same
    · exact settled.claimed h q earlier goes
    · cases goes with
      | input there resolved =>
        obtain rfl : _ = n := same
        rw [here] at there
        cases there
        rw [entered.resolve here] at resolved
        cases resolved
        exact entered.claimed
      | file there =>
        obtain rfl : _ = n := same
        rw [here] at there
        cases there
  listed m d below there := by
    rcases Nat.lt_succ_iff_lt_or_eq.mp below with earlier | rfl
    · exact settled.listed m d earlier there
    · rw [here] at there
      cases there

theorem Settled.directory {d : DirectoryInput} {files : List (Path × Action)}
    {planned : List PlannedFile} (settled : Settled b mode inputs log n)
    (entered : Entered b inputs log n p) (here : inputs[n]? = some (.directory d))
    (later : ∀ m fs, .list m fs ∈ log → m < n ∨ (m = n ∧ fs = files))
    (listed : ∃ s, .list n files ∈ log ∧ work mode d s = .ok files s)
    (all : planned.length = files.length)
    (claimed : ∀ k item, planned[k]? = some item → .claim ⟨n, some k⟩ item.target ∈ log ∧
      ∃ f, files[k]? = some f ∧ counterpart d.root p f.1 = .ok item.target) :
    Settled b mode inputs log (n + 1) where
  claimed h q below goes := by
    rcases Nat.lt_succ_iff_lt_or_eq.mp below with earlier | same
    · exact settled.claimed h q earlier goes
    · cases goes with
      | input there resolved =>
        obtain rfl : _ = n := same
        rw [entered.resolve there] at resolved
        cases resolved
        exact entered.claimed
      | @file _ k _ _ _ fs f there resolved among file goes =>
        obtain rfl : _ = n := same
        rw [here] at there
        cases there
        have destination := entered.resolve here
        rw [show (Input.directory d).name = d.name from rfl] at destination
        rw [show (Input.directory d).format = .directory from rfl, resolved] at destination
        cases destination
        obtain rfl : fs = files :=
          ((later _ _ among).resolve_left (Nat.lt_irrefl _)).2
        have bound : k < planned.length := by
          rw [all]
          exact (List.getElem?_eq_some_iff.mp file).1
        obtain ⟨taken, f', file', goes'⟩ := claimed k planned[k] (List.getElem?_eq_getElem bound)
        rw [file] at file'
        cases file'
        rw [goes] at goes'
        cases goes'
        exact taken
  listed m d' below there := by
    rcases Nat.lt_succ_iff_lt_or_eq.mp below with earlier | rfl
    · exact settled.listed m d' earlier there
    · rw [here] at there
      cases there
      obtain ⟨s, among, run⟩ := listed
      exact ⟨files, s, among, run⟩

end Standing

theorem takeDestination_ok {b : Build} {i : Input} {p : Path} {s s' : Session}
    (run : b.takeDestination i s = .ok p s') :
    b.resolver.resolve i.name i.format = .ok p ∧ RunM.claim p s = .ok () s' := by
  obtain ⟨destination, s₁, lifted, run⟩ := state_bind_ok_iff.mp run
  obtain ⟨resolved, rfl⟩ := lift_ok_iff.mp lifted
  obtain ⟨_, s₂, claimed, run⟩ := state_bind_ok_iff.mp run
  cases run
  exact ⟨resolved, claimed⟩

section Failure
variable {s s' : Session} {e : Error}

theorem state_of_lift_error {α : Type} {result : Except Error α}
    (run : RunM.lift result s = .error e s') : s' = s := by
  cases result with
  | ok a => cases run
  | error e => cases run; rfl

theorem state_of_claim_error {p : Path} (run : RunM.claim p s = .error e s') : s' = s := by
  rcases state_bind_error_iff.mp run with got | ⟨_, _, got, run⟩
  · cases got
  · cases got
    rcases state_bind_error_iff.mp run with lifted | ⟨_, _, _, modified⟩
    · exact state_of_lift_error lifted
    · cases modified

theorem state_of_takeDestination_error {b : Build} {i : Input}
    (run : b.takeDestination i s = .error e s') : s' = s := by
  rcases state_bind_error_iff.mp run with lifted | ⟨p, s₁, lifted, run⟩
  · exact state_of_lift_error lifted
  · obtain ⟨_, rfl⟩ := lift_ok_iff.mp lifted
    rcases state_bind_error_iff.mp run with claimed | ⟨_, _, _, ended⟩
    · exact state_of_claim_error claimed
    · cases ended

theorem state_of_work_error {mode : BuildMode} {d : DirectoryInput}
    (run : work mode d s = .error e s') : s' = s := by
  cases mode with
  | incremental => cases run
  | full =>
    rcases state_bind_error_iff.mp run with got | ⟨_, _, got, run⟩
    · cases got
    · cases got
      rcases state_bind_error_iff.mp run with lifted | ⟨_, _, _, ended⟩
      · exact state_of_lift_error lifted
      · cases ended

theorem state_of_plan_error {d : DirectoryInput} {p file : Path} {action : Action}
    (run : plan d p file action s = .error e s') : s' = s := by
  rcases state_bind_error_iff.mp run with lifted | ⟨_, _, lifted, run⟩
  · exact state_of_lift_error lifted
  · obtain ⟨_, rfl⟩ := lift_ok_iff.mp lifted
    rcases state_bind_error_iff.mp run with claimed | ⟨_, _, _, ended⟩
    · exact state_of_claim_error claimed
    · cases ended

end Failure

structure Followed (b : Build) (mode : BuildMode) (inputs : List Input) (t : FileTree)
    (log : List Move) (p : Progress) : Prop where
  booked : Booked log t p.session
  founded : ∀ h q, .claim h q ∈ log → GoesTo b inputs log h q
  standing : Standing b mode inputs log p.turn

section Followed
variable {b : Build} {mode : BuildMode} {inputs : List Input} {t : FileTree} {log moves : List Move}
  {p q : Progress}

def Unlisting (moves : List Move) : Prop := ∀ m files, .list m files ∉ moves

theorem unlisting_claim {h : Holder} {q : Path} : Unlisting [.claim h q] := fun m files inside => by
  cases List.mem_singleton.mp inside

theorem unlisting_act {h : Holder} {q : Path} : Unlisting [.act h q] := fun m files inside => by
  cases List.mem_singleton.mp inside

theorem Unlisting.mem_append_iff (unlisting : Unlisting moves) {m : Nat}
    {files : List (Path × Action)} : .list m files ∈ log ++ moves ↔ .list m files ∈ log := by
  rw [List.mem_append]
  exact or_iff_left (unlisting m files)

theorem Settled.quiet {n : Nat} (settled : Settled b mode inputs log n)
    (unlisting : Unlisting moves) : Settled b mode inputs (log ++ moves) n :=
  settled.append fun m files inside => (unlisting m files inside).elim

theorem founded_append (founded : ∀ h q, .claim h q ∈ log → GoesTo b inputs log h q)
    (new : ∀ h q, .claim h q ∈ moves → GoesTo b inputs (log ++ moves) h q) :
    ∀ h q, .claim h q ∈ log ++ moves → GoesTo b inputs (log ++ moves) h q := by
  intro h q inside
  rcases List.mem_append.mp inside with earlier | later
  · exact (founded h q earlier).append moves
  · exact new h q later

theorem Followed.claim {n : Nat} {i : Input} {destination : Path} {s s' : Session}
    (followed : Followed b mode inputs t log ⟨s, .input n⟩) (here : inputs[n]? = some i)
    (run : b.takeDestination i s = .ok destination s') :
    Followed b mode inputs t (log ++ [.claim ⟨n, none⟩ destination])
      ⟨s', .claimed n destination⟩ := by
  obtain ⟨booked, founded, standing⟩ := followed
  obtain ⟨resolved, claimed⟩ := takeDestination_ok run
  cases standing with
  | input settled later =>
    refine ⟨booked.claim claimed, founded_append founded fun h q new => ?_, ?_⟩
    · cases List.mem_singleton.mp new
      exact .input here resolved
    · exact .claimed (settled.quiet unlisting_claim)
        (fun m files inside => later m files (unlisting_claim.mem_append_iff.mp inside))
        ⟨⟨i, here, resolved⟩, by simp⟩

theorem Followed.archive {n : Nat} {jar : ArchiveInput} {destination : Path} {s : Session}
    (followed : Followed b mode inputs t log ⟨s, .claimed n destination⟩)
    (here : inputs[n]? = some (.archive jar)) :
    Followed b mode inputs t (log ++ [.act ⟨n, none⟩ destination])
      (.after (b.processArchive mode jar destination s) fun _ => .input (n + 1)) := by
  obtain ⟨booked, founded, standing⟩ := followed
  have touches := touches_processArchive b mode jar destination
  have founded' : ∀ h q, .claim h q ∈ log ++ [.act ⟨n, none⟩ destination] →
      GoesTo b inputs (log ++ [.act ⟨n, none⟩ destination]) h q :=
    founded_append founded fun h q new => by cases List.mem_singleton.mp new
  cases standing with
  | claimed settled later entered =>
    cases run : b.processArchive mode jar destination s with
    | ok done s' =>
      refine ⟨booked.act entered.claimed (touches.ok run), founded', ?_⟩
      refine .input ((settled.archive entered here).quiet unlisting_act) fun m files inside => ?_
      exact (later m files (unlisting_act.mem_append_iff.mp inside)).trans (Nat.lt_succ_self n)
    | error e s' => exact ⟨booked.act entered.claimed (touches.error run), founded', .stopped⟩

theorem Followed.list {n : Nat} {d : DirectoryInput} {destination : Path}
    {files : List (Path × Action)} {s s' : Session}
    (followed : Followed b mode inputs t log ⟨s, .claimed n destination⟩)
    (here : inputs[n]? = some (.directory d)) (run : work mode d s = .ok files s') :
    Followed b mode inputs t (log ++ [.list n files]) ⟨s', .planning n destination files []⟩ := by
  obtain ⟨booked, founded, standing⟩ := followed
  obtain ⟨rfl, _⟩ := work_under run
  cases standing with
  | claimed settled later entered =>
    refine ⟨booked.list, founded_append founded fun h q new => ?_, ?_⟩
    · cases List.mem_singleton.mp new
    · refine .planning (settled.append fun m fs inside => ?_) (fun m fs inside => ?_)
        (entered.append _) here ⟨s', by simp, run⟩ (Nat.zero_le _) nofun
      · cases List.mem_singleton.mp inside
        exact Nat.le_refl n
      · rcases List.mem_append.mp inside with earlier | new
        · exact .inl (later m fs earlier)
        · cases List.mem_singleton.mp new
          exact .inr ⟨rfl, rfl⟩

theorem Followed.plan {n : Nat} {d : DirectoryInput} {destination : Path}
    {files : List (Path × Action)} {planned : List PlannedFile} {f : Path × Action}
    {item : PlannedFile} {s s' : Session}
    (followed : Followed b mode inputs t log ⟨s, .planning n destination files planned⟩)
    (here : inputs[n]? = some (.directory d)) (next : files[planned.length]? = some f)
    (run : Build.plan d destination f.1 f.2 s = .ok item s') :
    Followed b mode inputs t (log ++ [.claim ⟨n, some planned.length⟩ item.target])
      ⟨s', .planning n destination files (planned ++ [item])⟩ := by
  obtain ⟨booked, founded, standing⟩ := followed
  obtain ⟨⟨_, _, goes⟩, fresh, rfl⟩ := plan_ok_iff.mp run
  cases standing with
  | planning settled later entered there listed begun claimed =>
    rw [here] at there
    cases there
    have among (m : Nat) (fs : List (Path × Action)) :
        Move.list m fs ∈ log ++ [.claim ⟨n, some planned.length⟩ item.target] ↔ .list m fs ∈ log :=
      unlisting_claim.mem_append_iff
    obtain ⟨s₀, member, worked⟩ := listed
    refine ⟨booked.claim (claim_ok_iff.mpr ⟨fresh, rfl⟩),
      founded_append founded fun h q new => ?_, ?_⟩
    · cases List.mem_singleton.mp new
      exact .file here (entered.resolve here) ((among n files).mpr member) next goes
    · refine .planning (settled.quiet unlisting_claim)
        (fun m fs inside => later m fs ((among m fs).mp inside)) (entered.append _) here
        ⟨s₀, (among n files).mpr member, worked⟩ ?_ fun k x there => ?_
      · rw [List.length_append]
        exact (List.getElem?_eq_some_iff.mp next).1
      · rcases Nat.lt_trichotomy k planned.length with earlier | rfl | beyond
        · rw [List.getElem?_append_left earlier] at there
          obtain ⟨taken, listed⟩ := claimed k x there
          exact ⟨List.mem_append_left _ taken, listed⟩
        · rw [List.getElem?_concat_length] at there
          cases there
          exact ⟨by simp, f, next, goes⟩
        · rw [List.getElem?_eq_none (by simp; omega)] at there
          cases there

/-- Planned files are processed once the paths of all are taken. -/
theorem Followed.planned {n : Nat} {destination : Path} {files : List (Path × Action)}
    {planned : List PlannedFile} {s : Session}
    (followed : Followed b mode inputs t log ⟨s, .planning n destination files planned⟩)
    (all : planned.length = files.length) :
    Followed b mode inputs t log ⟨s, .processing n planned.zipIdx false⟩ := by
  obtain ⟨booked, founded, standing⟩ := followed
  cases standing with
  | planning settled later entered here listed begun claimed =>
    refine ⟨booked, founded, .processing
      (settled.directory entered here later listed all claimed) (fun m fs inside => ?_) ?_⟩
    · rcases later m fs inside with earlier | ⟨rfl, _⟩
      · exact earlier.trans (Nat.lt_succ_self n)
      · exact Nat.lt_succ_self m
    · rintro ⟨item, k⟩ inside
      exact (claimed k item (List.mem_zipIdx_iff_getElem?.mp inside)).1

theorem Followed.item {n k : Nat} {before after : List (PlannedFile × Nat)} {item : PlannedFile}
    {failed : Bool} (failed' : Bool) {s s' : Session}
    (followed : Followed b mode inputs t log
      ⟨s, .processing n (before ++ (item, k) :: after) failed⟩)
    (touched : Session.Touched item.target s s') :
    Followed b mode inputs t (log ++ [.act ⟨n, some k⟩ item.target])
      ⟨s', .processing n (before ++ after) failed'⟩ := by
  obtain ⟨booked, founded, standing⟩ := followed
  cases standing with
  | processing settled later claimed =>
    refine ⟨booked.act (claimed (item, k) (by simp)) touched,
      founded_append founded fun h q new => ?_, ?_⟩
    · cases List.mem_singleton.mp new
    refine .processing (settled.quiet unlisting_act)
      (fun m fs inside => later m fs (unlisting_act.mem_append_iff.mp inside)) fun x inside => ?_
    refine List.mem_append_left _ (claimed x ?_)
    rw [List.mem_append] at inside ⊢
    exact inside.imp_right (List.mem_cons_of_mem _)

theorem Followed.stop {s : Session} {turn : Turn}
    (followed : Followed b mode inputs t log ⟨s, turn⟩) :
    Followed b mode inputs t log ⟨s, .stopped⟩ :=
  ⟨followed.booked, followed.founded, .stopped⟩

theorem Followed.step (followed : Followed b mode inputs t log p)
    (step : Step b mode inputs p moves q) : Followed b mode inputs t (log ++ moves) q := by
  cases step with
  | claim here run => exact followed.claim here run
  | refuse _ run =>
    rw [List.append_nil, state_of_takeDestination_error run]
    exact followed.stop
  | archive here => exact followed.archive here
  | list here run => exact followed.list here run
  | unlisted _ run =>
    rw [List.append_nil, state_of_work_error run]
    exact followed.stop
  | plan here next run => exact followed.plan here next run
  | unplanned _ _ run =>
    rw [List.append_nil, state_of_plan_error run]
    exact followed.stop
  | planned all =>
    rw [List.append_nil]
    exact followed.planned all
  | @item _ _ _ _ item _ _ _ run => exact followed.item _ ((touches_processItem b item).ok run)
  | @itemFails _ _ _ _ item _ _ _ _ run =>
    exact followed.item _ ((touches_processItem b item).error run)
  | processed =>
    rw [List.append_nil]
    obtain ⟨booked, founded, standing⟩ := followed
    cases standing with
    | processing settled later => exact ⟨booked, founded, .input settled later⟩
  | fail =>
    rw [List.append_nil]
    exact followed.stop

end Followed

theorem keeps_clearArea (p : Path) : Keeps (fun s => s.ledger.claimed = []) (clearArea p) := by
  intro s none
  unfold clearArea
  cases s.tree.removeDirectory p with
  | ok u => exact none
  | error fault => cases fault <;> exact none

theorem claimed_start (b : Build) (mode : BuildMode) (t : FileTree) :
    (b.start mode t).session.ledger.claimed = [] := by
  have prepares : Keeps (fun s => s.ledger.claimed = []) (b.prepare mode) := by
    unfold prepare
    split
    · exact keeps_pure ()
    · cases b.resolver.area with
      | none => exact keeps_pure ()
      | some p => exact keeps_clearArea p
  have after := prepares ⟨t, .start mode, []⟩ rfl
  unfold start
  cases run : b.prepare mode ⟨t, .start mode, []⟩ with
  | ok done s =>
    rw [run] at after
    exact after
  | error e s =>
    rw [run] at after
    exact after

section Trail
variable {b : Build} {mode : BuildMode} {inputs : List Input} {t : FileTree} {log : List Move}
  {p q : Progress}

theorem followed_start :
    Followed b mode inputs (b.start mode t).session.tree [] (b.start mode t) where
  booked := ⟨claimed_start b mode t, .nil, by simp, .nil⟩
  founded := nofun
  standing := by
    unfold start
    cases b.prepare mode ⟨t, .start mode, []⟩ with
    | ok done s => exact .input ⟨nofun, nofun⟩ nofun
    | error e s => exact .stopped

theorem followed_of_trail (trail : Trail b mode inputs (b.start mode t) log p) :
    Followed b mode inputs (b.start mode t).session.tree log p := by
  induction trail with
  | start => exact followed_start
  | step _ step ih => exact ih.step step

end Trail

structure Isolated (b : Build) (mode : BuildMode) (inputs : List Input) (t : FileTree)
    (log : List Move) (p : Progress) : Prop where
  /-- No path is taken twice, in whatever spelling. -/
  once : ((claims log).map fun x => x.2.components).Nodup
  ledger : p.session.ledger.claimed = ((claims log).map Prod.snd).reverse
  /-- Who acts on a path has taken it before, and it is the path where it goes. -/
  guarded : ∀ before h q after, log = before ++ .act h q :: after →
    .claim h q ∈ before ∧ GoesTo b inputs log h q
  /-- Nothing else has changed the file tree. -/
  traced : Traced log t p.session.tree
  exclusive : ∀ h h' q q', .act h q ∈ log → .act h' q' ∈ log → h ≠ h' →
    q.components ≠ q'.components
  /-- Where all inputs are through, all their files have been listed, and no two holders go to one
  path. -/
  listed : p.turn = .input inputs.length → ∀ n d, inputs[n]? = some (.directory d) →
    ∃ files s, .list n files ∈ log ∧ work mode d s = .ok files s
  apart : p.turn = .input inputs.length → ∀ h h' q q', GoesTo b inputs log h q →
    GoesTo b inputs log h' q' → h ≠ h' → q.components ≠ q'.components

theorem GoesTo.bound {b : Build} {inputs : List Input} {log : List Move} {h : Holder} {p : Path}
    (goes : GoesTo b inputs log h p) : h.input < inputs.length := by
  cases goes with
  | input here => exact (List.getElem?_eq_some_iff.mp here).1
  | file here => exact (List.getElem?_eq_some_iff.mp here).1

theorem Followed.isolated {b : Build} {mode : BuildMode} {inputs : List Input} {t : FileTree}
    {log : List Move} {p : Progress} (followed : Followed b mode inputs t log p) :
    Isolated b mode inputs t log p := by
  obtain ⟨booked, founded, standing⟩ := followed
  have taken {h : Holder} {q : Path} (inside : .act h q ∈ log) : .claim h q ∈ log := by
    obtain ⟨before, after, same⟩ := List.append_of_mem inside
    have earlier := booked.guarded before h q after same
    rw [same]
    exact List.mem_append_left _ earlier
  have settled (through : p.turn = .input inputs.length) :
      Settled b mode inputs log inputs.length := by
    rw [through] at standing
    cases standing with
    | input settled _ => exact settled
  refine ⟨booked.apart, booked.taken, fun before h q after same => ?_, booked.traced,
    fun h h' q q' one two => booked.distinct (taken one) (taken two), fun through n d here => ?_,
    fun through h h' q q' one two => ?_⟩
  · refine ⟨booked.guarded before h q after same, founded h q (taken ?_)⟩
    simp [same]
  · exact (settled through).listed n d (List.getElem?_eq_some_iff.mp here).1 here
  · have claimed := (settled through).claimed
    exact booked.distinct (claimed h q one.bound one) (claimed h' q' two.bound two)

/-- Whatever a run does, also one that fails, and in whatever order it processes the files of a
directory, it keeps its destinations apart; and what `run` does is one of these runs. -/
theorem run_isolated (b : Build) (mode : BuildMode) (inputs : List Input) (t : FileTree) :
    (∀ log p, Trail b mode inputs (b.start mode t) log p →
      Isolated b mode inputs (b.start mode t).session.tree log p) ∧
    ∃ log turn, Trail b mode inputs (b.start mode t) log ⟨(b.run mode inputs t).2, turn⟩ ∧
      (∀ report, (b.run mode inputs t).1 = .ok report → turn = .input inputs.length) ∧
      ∀ h h' q q', GoesTo b inputs log h q → GoesTo b inputs log h' q' → h ≠ h' →
        q.components = q'.components → ∃ e, (b.run mode inputs t).1 = .error e := by
  have isolated (log : List Move) (p : Progress)
      (trail : Trail b mode inputs (b.start mode t) log p) :
      Isolated b mode inputs (b.start mode t).session.tree log p :=
    (followed_of_trail trail).isolated
  obtain ⟨log, turn, trail, through⟩ := trail_of_run b mode inputs t
  refine ⟨isolated, log, turn, trail, through, fun h h' q q' one two other same => ?_⟩
  cases run : (b.run mode inputs t).1 with
  | error e => exact ⟨e, rfl⟩
  | ok report =>
    have apart := (isolated log _ trail).apart (through report run) h h' q q' one two other
    exact absurd same apart

theorem toldChanges_isolated : ∃ log, let b := hookless .ifMissing
    let run := b.run .incremental [.directory toldChanges] staleTree
    Trail b .incremental [.directory toldChanges] (b.start .incremental staleTree) log
      ⟨run.2, .input 1⟩ ∧
    Isolated b .incremental [.directory toldChanges] staleTree log ⟨run.2, .input 1⟩ ∧
    (claims log).map (·.2.text) = ["out/in", "out/in/a", "out/in/b", "out/in/b/c"] := by
  obtain ⟨isolated, log, turn, trail, through, _⟩ :=
    run_isolated (hookless .ifMissing) .incremental [.directory toldChanges] staleTree
  have reports : ((hookless .ifMissing).run .incremental [.directory toldChanges]
      staleTree).1.toOption.isSome = true := by cbv
  obtain ⟨report, done⟩ := ok_of_isSome reports
  obtain rfl := through report done
  have apart := isolated log _ trail
  have taken : ((hookless .ifMissing).run .incremental [.directory toldChanges]
      staleTree).2.ledger.claimed.map Path.text =
      ["out/in/b/c", "out/in/b", "out/in/a", "out/in"] := by cbv
  refine ⟨log, trail, apart, ?_⟩
  have ledger := congrArg (List.map Path.text) apart.ledger
  rw [taken, List.map_reverse, List.map_map] at ledger
  exact (List.reverse_eq_iff.mp ledger.symm).trans rfl

example : ((hookless .never).run .incremental [.directory (directoryWith "/w/in"
    [("a", .unchanged), ("/w/in/a", .unchanged)])] (workspace [])).1 =
    .error (.destinationConflict "out//w/in/a") := by cbv

end Build
end ClassHooks
