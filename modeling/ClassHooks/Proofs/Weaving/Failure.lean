import ClassHooks.Proofs.Failure
import ClassHooks.Proofs.Limits
import ClassHooks.Proofs.Weaving.Unit

/-!
What weaving a class fails with. Whatever a policy reports is wrapped with the method in which it
was asked, and the rest is about the bytes of the class: no failure names a unit.
-/
namespace ClassHooks

open Reader

namespace Constant

theorem refuses_field {r : Reader α} (refuses : Refuses r) (make : α → Constant) :
    Refuses (do return make (← r)) :=
  failsOnly_map refuses

theorem refuses_pair {r : Reader α} (refuses : Refuses r) (make : α → UInt16 → Constant) :
    Refuses (do return make (← r) (← u16)) :=
  failsOnly_bind refuses fun _ => failsOnly_map refuses_u16

theorem refuses_read : Refuses read := by
  refine failsOnly_bind refuses_position fun offset => failsOnly_bind refuses_u8 fun tag => ?_
  split
  case h_1 => exact failsOnly_bind refuses_u16 fun n => failsOnly_map (refuses_bytes _)
  case h_2 => exact refuses_field refuses_i32 _
  case h_3 => exact refuses_field refuses_u32 _
  case h_4 => exact refuses_field refuses_i64 _
  case h_5 => exact refuses_field refuses_u64 _
  case h_12 => exact refuses_pair refuses_u8 _
  case h_18 => exact failsOnly_throw trivial
  all_goals first
    | exact refuses_field refuses_u16 _
    | exact refuses_pair refuses_u16 _

end Constant

namespace Pool

theorem refuses_fill (slots : Nat) (p : Pool) : Refuses (fill p slots) := by
  induction slots using Nat.strongRecOn generalizing p with
  | ind slots ih =>
    cases slots with
    | zero => exact failsOnly_pure p
    | succ slots =>
      rw [fill]
      refine failsOnly_bind Constant.refuses_read fun c => failsOnly_ite ?_ ?_
      · cases slots with
        | zero => exact failsOnly_throw trivial
        | succ slots => exact ih slots (by omega) _
      · exact ih slots (by omega) _

theorem refuses_read : Refuses read :=
  failsOnly_bind refuses_u16 fun _ => failsOnly_guard trivial (refuses_fill _ _)

end Pool

theorem Attribute.refuses_readAll : Refuses readAll :=
  refuses_table (failsOnly_bind refuses_u16 fun _ => failsOnly_bind refuses_u32 fun _ =>
    failsOnly_map (refuses_bytes _))

theorem Member.refuses_read : Refuses read :=
  failsOnly_bind refuses_u16 fun _ => failsOnly_bind refuses_u16 fun _ =>
    failsOnly_bind refuses_u16 fun _ => failsOnly_map Attribute.refuses_readAll

theorem ClassFile.refuses_read : Refuses read := by
  refine failsOnly_bind refuses_u32 fun found => failsOnly_guard trivial ?_
  refine failsOnly_bind refuses_u16 fun minor => failsOnly_bind refuses_u16 fun major => ?_
  refine failsOnly_bind Pool.refuses_read fun pool => failsOnly_bind refuses_u16 fun flags => ?_
  refine failsOnly_bind refuses_u16 fun thisClass => failsOnly_bind refuses_u16 fun super => ?_
  refine failsOnly_bind (refuses_table refuses_u16) fun interfaces => ?_
  refine failsOnly_bind (refuses_table Member.refuses_read) fun fields => ?_
  refine failsOnly_bind (refuses_table Member.refuses_read) fun methods => ?_
  refine failsOnly_bind Attribute.refuses_readAll fun attributes => ?_
  refine failsOnly_bind refuses_atEnd fun done => failsOnly_ite ?_ (failsOnly_pure _)
  exact failsOnly_bind refuses_remaining fun n =>
    failsOnly_bind (failsOnly_throw trivial) fun _ => failsOnly_pure _

namespace Weaving

def NamesMethod (e : Error) : Prop := ∃ className method source, e = .inMethod className method source

inductive Blames (e : Error) : Prop where
  | form (malformed : e.IsMalformed)
  | size (limit : e.IsLimit)
  | method (names : NamesMethod e)

theorem fails_lift {kind : Error → Prop} {result : Except Error α}
    (holds : ∀ e, result = .error e → kind e) : FailsOnly kind (PoolM.lift result) := by
  intro pool e pool' run
  cases result with
  | ok a => cases run
  | error e =>
    cases run
    exact holds e rfl

theorem blames_mapError {result : Except Malformation α} {e : Error}
    (failed : result.mapError Error.malformed = .error e) : Blames e := by
  cases result with
  | ok a => cases failed
  | error cause =>
    cases failed
    exact .form trivial

theorem blames_write {c : ClassFile} {e : Error} (failed : c.write = .error e) : Blames e := by
  have limited := c.limited_write
  unfold Limited at limited
  rw [failed] at limited
  exact .size limited

theorem fails_inMethod (method : MethodName) (operation : PoolM α) :
    FailsOnly Blames (inMethod method operation) := by
  intro pool e pool' run
  unfold inMethod at run
  split at run
  · cases run
  · cases run
    exact .method ⟨_, _, _, rfl⟩

theorem fails_member (chain : Chain) (selector : Selector) (className : String) (flags : UInt16)
    (requireFrames : Bool) (m : Member) :
    FailsOnly Blames (member chain selector className flags requireFrames m) := by
  refine failsOnly_bind (x := get) (fun _ _ _ run => by cases run) fun pool => ?_
  refine failsOnly_bind (fails_lift fun e => blames_mapError) fun name => ?_
  refine failsOnly_bind (fails_lift fun e => blames_mapError) fun descriptor => ?_
  cases m.codeIndex pool with
  | none => exact failsOnly_pure none
  | some index =>
    refine failsOnly_ite ?_ (failsOnly_pure none)
    exact failsOnly_bind (fails_inMethod _ _) fun _ => failsOnly_pure _

theorem fails_members {weave : Member → PoolM (Option (Member × Nat))}
    (each : ∀ m, FailsOnly Blames (weave m)) (ms done : List Member) (count : WeaveCount) :
    FailsOnly Blames (members weave done count ms) := by
  induction ms generalizing done count with
  | nil => exact failsOnly_pure _
  | cons m ms ih =>
    rw [members_cons]
    exact failsOnly_bind (each m) fun result => ih _ _

end Weaving

open Weaving

theorem weaveUnit_blames {chain : Chain} {selector : Selector} {bytes : Bytes} {e : Error}
    (failed : weaveUnit chain selector bytes = .error e) : Blames e := by
  rcases bind_error_iff.mp failed with unread | ⟨c, parsed, rest⟩
  · exact .form (malformed_of_run ClassFile.refuses_read unread)
  split at rest
  · cases rest
  rcases bind_error_iff.mp rest with unnamed | ⟨className, named, rest⟩
  · exact blames_mapError unnamed
  dsimp only at rest
  split at rest
  · rename_i unwoven
    cases rest
    exact fails_members (fails_member _ _ _ _ _) _ _ _ _ _ _ unwoven
  · split at rest
    · cases rest
    rcases bind_error_iff.mp rest with unwritten | ⟨bytes', written, done⟩
    · exact blames_write unwritten
    · cases done

theorem within_of_blames {e : Error} (blames : Blames e) (unit : String) :
    e.within unit = .inUnit unit e := by
  cases e with
  | inUnit name source =>
    cases blames with
    | form malformed => exact malformed.elim
    | size limit => exact limit.elim
    | method names =>
      obtain ⟨_, _, _, same⟩ := names
      cases same
  | _ => rfl

end ClassHooks
