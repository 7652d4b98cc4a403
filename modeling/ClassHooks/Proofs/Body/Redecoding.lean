import ClassHooks.Proofs.Body.Arranging
import ClassHooks.Proofs.Body.Recoding
import ClassHooks.Proofs.Body.Relocating

/-!
Decoding what a body was encoded to. The code attribute is the first one with its offsets moved, so it
becomes the same body again, up to the numbers of the labels.
-/
namespace ClassHooks

namespace Body
open Attribute Instruction Labelling

section Decoded
variable {pool p : Pool} {t : Labelling} {c c' : CodeAttribute}
  {decoded new : List (UInt16 × Instruction UInt16)} {b : Body} {e : Encoded}
  (labelled : Labelled pool t c decoded b) (decodes : decode c.code = .ok decoded)
  (renders : e.Renders b.items new)
include labelled decodes renders

theorem instructions_carried : List.Forall₂ (fun d d' =>
    d'.1 = carry id decoded new e.code.length d.1 ∧
      (d.2.map (carry id decoded new e.code.length)).LengthensTo d'.2) decoded new := by
  obtain ⟨small, listing, _⟩ := listing_of_decode decodes
  obtain ⟨small', listing', _⟩ := listing_of_decode renders.decodes
  have moves := moves_of_renders labelled decodes renders
  have related := renders.instructions
  rw [show Item.code b.items = _ from instructions_labelled labelled, List.forall₂_map_left_iff,
    List.forall₂_iff_get] at related
  refine List.forall₂_iff_get.mpr ⟨related.1, fun n inside inside' => ?_⟩
  obtain ⟨j, mapped, written⟩ := related.2 n inside inside'
  have here : decoded[n]? = some decoded[n] := List.getElem?_eq_getElem inside
  have there : new[n]? = some new[n] := List.getElem?_eq_getElem inside'
  have member := List.mem_of_getElem? here
  rw [List.get_eq_getElem] at mapped
  rw [moves.mapTargets_instruction (labelled.targets _ member)] at mapped
  cases mapped
  refine ⟨?_, lengthensTo_of_written (decent_of_listing listing member).narrow written⟩
  rw [← UInt16.toNat_inj, List.get_eq_getElem, List.get_eq_getElem,
    carry_toNat listing small listing' small' (Nat.le_of_lt inside)
      (placeIn_eq_of_getElem here _).symm]
  exact (placeIn_eq_of_getElem there _).symm

/-- What a decoded body is written as is its code attribute with the offsets moved. -/
theorem relocates_of_recodes (filled : c.code ≠ [])
    (recodes : Recodes pool p (carry id decoded new e.code.length) c c')
    (code : c'.code = e.code) (apart : ∀ a ∈ c.otherAttributes pool, a.isTable p = false) :
    Relocates pool p (carry id decoded new e.code.length) c c' decoded new := by
  obtain ⟨small, listing, more⟩ := listing_of_decode decodes
  have count := length_of_renders labelled renders
  obtain ⟨L, V, T, S, listed, lines, locals, types, frames⟩ := recodes.attributes
  have arranged := arranged_of_holds listed lines locals types frames apart
  constructor
  case filled =>
    rw [code]
    intro empty
    have none := renders.decodes
    rw [empty] at none
    cases none
    exact more filled (List.length_eq_zero_iff.mp count.symm)
  case decodes => rw [code, renders.decodes]
  case rising => exact fun o o' => carried_rising labelled decodes renders
  case instructions => exact instructions_carried labelled decodes renders
  case finish =>
    have last := numberAt_placeIn listing small (Nat.le_refl _) (end_toNat small)
    rw [carry, last, code, placeIn_of_le (by rw [count]; exact Nat.le_refl _)]
  case maxStack => exact recodes.maxStack
  case maxLocals => exact recodes.maxLocals
  case handlers => exact recodes.handlers
  case parses =>
    intro a member
    constructor
    · exact fun name => ⟨_, parsed_of_holdsFrames frames _ (arranged.mem_part
        (p := (stackMapTable, S)) (by simp) member name)⟩
    · exact fun name => ⟨_, parsed_of_holds lines _ (arranged.mem_part
        (p := (lineNumberTable, L)) (by simp) member name)⟩
    · exact fun name => ⟨_, parsed_of_holds locals _ (arranged.mem_part
        (p := (localVariableTable, V)) (by simp) member name)⟩
    · exact fun name => ⟨_, parsed_of_holds types _ (arranged.mem_part
        (p := (localVariableTypeTable, T)) (by simp) member name)⟩
  case single => exact arranged.single (by simp) frames
  case frames => exact arranged.frameEntries_eq (by simp) frames
  case lines =>
    exact (arranged.gather (p := (lineNumberTable, L)) (by simp) fun _ => lineEntries_other).trans
      (lineEntries_of_holds lines)
  case locals =>
    exact (arranged.gather (p := (localVariableTable, V)) (by simp)
      fun _ => variableEntries_other).trans (variableEntries_of_holds locals)
  case types =>
    exact (arranged.gather (p := (localVariableTypeTable, T)) (by simp)
      fun _ => variableEntries_other).trans (variableEntries_of_holds types)
  case others => exact arranged.others_eq

end Decoded

theorem mem_tableName {name name' : String} {xs : List α} (member : name ∈ tableName name' xs) :
    name' = name ∧ ∃ x, x ∈ xs := by
  unfold tableName at member
  split at member
  · cases member
  · rename_i filled
    rw [List.isEmpty_iff] at filled
    exact ⟨(List.mem_singleton.mp member).symm, List.exists_mem_of_ne_nil xs filled⟩

section Labelled
variable {pool : Pool} {t : Labelling} {c : CodeAttribute}
  {decoded : List (UInt16 × Instruction UInt16)} {b : Body} (labelled : Labelled pool t c decoded b)
include labelled

theorem known_tableNames : ∀ name ∈ b.tableNames, pool.knows name = true := by
  have tables := labelled.tables
  have ofVariable : ∀ {table : String} {entry : VariableEntry},
      entry ∈ c.variableEntries pool table → pool.knows table = true := by
    intro table entry inside
    obtain ⟨a, _, here⟩ := List.mem_flatMap.mp inside
    refine knows_of_named (a := a) fun other => ?_
    rw [variableEntries_other other] at here
    cases here
  intro name member
  simp only [tableNames, List.mem_append] at member
  rcases member with lines | locals | types | frames
  · obtain ⟨rfl, l, inside⟩ := mem_tableName lines
    rw [tables.lines] at inside
    obtain ⟨entry, here, _⟩ := List.mem_map.mp inside
    obtain ⟨a, _, here⟩ := List.mem_flatMap.mp here
    refine knows_of_named (a := a) fun other => ?_
    rw [lineEntries_other other] at here
    cases here
  · obtain ⟨rfl, v, inside⟩ := mem_tableName locals
    obtain ⟨entry, here, _⟩ := related_of_mem_right tables.locals inside
    exact ofVariable here
  · obtain ⟨rfl, v, inside⟩ := mem_tableName types
    obtain ⟨entry, here, _⟩ := related_of_mem_right tables.types inside
    exact ofVariable here
  · obtain ⟨rfl, fs, inside⟩ := mem_tableName frames
    rw [Option.mem_toList, tables.frames] at inside
    obtain ⟨gs, found, _⟩ := Option.map_eq_some_iff.mp inside
    obtain ⟨a, _, here⟩ := List.mem_filterMap.mp (List.mem_of_head? found)
    refine knows_of_named (a := a) fun other => ?_
    rw [frameEntries_other other] at here
    cases here

theorem keepsReach_of_short (decodes : decode c.code = .ok decoded)
    (short : c.code.length ≤ 32765) : KeepsReach c.code decoded := by
  obtain ⟨small, listing, _⟩ := listing_of_decode decodes
  have below : ∀ o ∈ decoded.map (·.1), o.toNat < c.code.length := by
    intro o inside
    obtain ⟨d, member, rfl⟩ := List.mem_map.mp inside
    obtain ⟨n, here⟩ := List.mem_iff_getElem?.mp member
    have order := placeIn_lt listing small (Nat.lt_succ_self n)
      (List.getElem?_eq_some_iff.mp here).1
    have last := placeIn_le_finish listing small (n + 1)
    rw [placeIn_eq_of_getElem here] at order
    exact Nat.lt_of_lt_of_le order last
  intro d member o branch _
  have target := labelled.targets d member o (by
    rw [Instruction.targets, branch]
    exact List.mem_singleton.mpr rfl)
  have source := below d.1 (List.mem_map_of_mem member)
  have aim := below o ((labelled.boundaries o).mp target.1)
  exact .inl (by omega)

theorem refused_of_encode (decodes : decode c.code = .ok decoded) (filled : c.code ≠ [])
    {err : Error} (failed : Assembly.encode b.items = .error err) :
    (∃ n, err = .malformed (.methodTooLong n)) ∨
      ∃ d ∈ decoded, ∃ o, d.2.operand = .branch o ∧ d.2.opcode.longForm? = none ∧
        ∃ position l distance,
          err = .invalidBranch (.outOfReach d.2.opcode position l distance) := by
  have placed := placed_of_sound (sound_of_decode labelled decodes filled)
  refine (Assembly.encode_error placed failed).imp_right ?_
  rintro ⟨op, position, l, distance, inside, stays, rfl⟩
  rw [show Item.code b.items = _ from instructions_labelled labelled] at inside
  obtain ⟨⟨o, op', operand⟩, member, mapped⟩ := List.mem_map.mp inside
  cases operand with
  | branch target =>
    cases mapped
    exact ⟨_, member, target, rfl, stays, position, _, distance, rfl⟩
  | _ => cases mapped

end Labelled

/-- A body encoded as it was read: when that succeeds, how it can fail, and that what is decoded
from the result is the same body. -/
theorem toCode_unmodified {c : CodeAttribute} {pool : Pool} {b : Body}
    (read : ofCode c pool = .ok b) {decoded : List (UInt16 × Instruction UInt16)}
    (decodes : decode c.code = .ok decoded) (once : c.TablesOnce pool) {p : Pool}
    (reached : p.Reached) (room : p.HasRoom b.tableNames) :
    (KeepsReach c.code decoded → ∃ c' p', b.toCode p = .ok c' p') ∧
    (∀ err p', b.toCode p = .error err p' → (∃ n, err = .malformed (.methodTooLong n)) ∨
      ∃ d ∈ decoded, ∃ o, d.2.operand = .branch o ∧ d.2.opcode.longForm? = none ∧
        ∃ position l distance, err = .invalidBranch (.outOfReach d.2.opcode position l distance)) ∧
    ∀ c' p', b.toCode p = .ok c' p' →
      (p = pool ∨ ∀ a ∈ c.otherAttributes pool, a.isTable p' = false) →
        ∃ b' g, ofCode c' p' = .ok b' ∧ b.Renames g b' := by
  obtain ⟨decoded', t, filled, decodes', labelled, named⟩ := named_of_ofCode read
  rw [decodes] at decodes'
  cases decodes'
  have written : ∀ e, Assembly.encode b.items = .ok e → ∃ c' p', b.toCode p = .ok c' p' ∧
      ((∀ name ∈ b.tableNames, p.knows name = true) → p' = p) := by
    intro e encoded
    obtain ⟨new, renders⟩ := encode_renders encoded (decodable_of_labelled labelled decodes filled)
    exact toCode_of_encode labelled (moves_of_renders labelled decodes renders) once encoded reached
      room
  refine ⟨fun keeps => ?_, fun err p' failed => ?_, fun c' p' run apart => ?_⟩
  · obtain ⟨e, _, encoded, _⟩ := laid_of_keepsReach labelled decodes filled keeps
    obtain ⟨c', p', run, _⟩ := written e encoded
    exact ⟨c', p', run⟩
  · cases encoded : Assembly.encode b.items with
    | ok e =>
      obtain ⟨c', p'', run, _⟩ := written e encoded
      rw [failed] at run
      cases run
    | error err' =>
      have same : b.toCode p = .error err' p := by
        simp only [toCode, bind, EStateM.bind, PoolM.lift, encoded]
      rw [failed] at same
      cases same
      exact refused_of_encode labelled decodes filled encoded
  · obtain ⟨_, e, encodes⟩ := encodes_of_toCode (Pool.sound_of_reached reached) run
    obtain ⟨new, renders⟩ :=
      encode_renders encodes.encoded (decodable_of_labelled labelled decodes filled)
    have moves := moves_of_renders labelled decodes renders
    obtain ⟨c'', p'', again, same⟩ := written e encodes.encoded
    rw [run] at again
    cases again
    have kept : ∀ a ∈ c.otherAttributes pool, a.isTable p' = false := by
      rcases apart with rfl | apart
      · rw [same (known_tableNames labelled)]
        exact CodeAttribute.others_apart
      · exact apart
    have relocates := relocates_of_recodes labelled decodes renders filled
      (recodes_of_encodes labelled moves encodes) encodes.code kept
    exact relocates.ofCode_relocated labelled moves decodes named

def looseSwitch : CodeAttribute :=
  ⟨1, 1, [0xC4, 0x15, 0, 0, 0xAA, 1, 2, 3, 0, 0, 0, 20, 0, 0, 0, 0, 0, 0, 0, 0,
    0xFF, 0xFF, 0xFF, 0xFC, 0xB1], [⟨0, 24, 24, 0⟩], [⟨1, [0, 1, 0, 24, 0, 7]⟩]⟩

theorem looseSwitch_unmodified : ∃ b decoded c' p' b' g, ofCode looseSwitch lineNamed = .ok b ∧
    decode looseSwitch.code = .ok decoded ∧ looseSwitch.TablesOnce lineNamed ∧ lineNamed.Reached ∧
    lineNamed.HasRoom b.tableNames ∧ KeepsReach looseSwitch.code decoded ∧
    b.toCode lineNamed = .ok c' p' ∧ ofCode c' p' = .ok b' ∧ b.Renames g b' := by
  have accepted : (ofCode looseSwitch lineNamed).toOption.isSome = true := by decide +kernel
  have once : looseSwitch.TablesOnce lineNamed := by decide
  obtain ⟨b, read⟩ := ok_of_isSome accepted
  obtain ⟨decoded, t, _, decodes, labelled⟩ := labelled_of_ofCode read
  have room := room_lineNamed b
  have keeps := keepsReach_of_short labelled decodes (by decide)
  obtain ⟨succeeds, _, back⟩ := toCode_unmodified read decodes once reached_lineNamed room
  obtain ⟨c', p', run⟩ := succeeds keeps
  obtain ⟨b', g, again, renames⟩ := back c' p' run (.inl rfl)
  exact ⟨b, decoded, c', p', b', g, read, decodes, once, reached_lineNamed, room, keeps, run, again,
    renames⟩

/-- A load with a prefix that it does not need, a branch that just reaches the return, a switch, and
instructions without effect before the return. Without the prefix the branch is two bytes farther from
the return, since the switch stays where it is. -/
def farBranch : CodeAttribute :=
  ⟨1, 1, [0xC4, 0x15, 0, 0, 0x99, 0x7F, 0xFF, 0xAA, 0, 0, 0x7F, 0xFC, 0, 0, 0, 0, 0, 0, 0, 0,
    0, 0, 0x7F, 0xFC] ++ (List.replicate 32747 0 ++ [0xB1]), [], []⟩

def idle (p : Nat) : Nat → List (UInt16 × Instruction UInt16)
  | 0 => [(UInt16.ofNat p, ⟨Opcode.vreturn, .nothing⟩)]
  | n + 1 => (UInt16.ofNat p, ⟨0, .nothing⟩) :: idle (p + 1) n

def farInstructions : List (UInt16 × Instruction UInt16) :=
  (0, ⟨Opcode.iload, .slot 0⟩) :: (4, ⟨0x99, .branch 32771⟩) ::
    (7, ⟨0xAA, .tableSwitch 32771 0 0 [32771]⟩) :: idle 24 32747

theorem readStream_idle {size : Nat} (steps p n : Nat)
    (read : List (UInt16 × Instruction UInt16)) :
    readStream size read (steps + n + 1) ⟨p, List.replicate n 0 ++ [Opcode.vreturn]⟩ =
      .ok (read.reverse ++ idle p n) ⟨p + n + 1, []⟩ := by
  induction n generalizing p read with
  | zero =>
    have last : Instruction.read size ⟨p, [Opcode.vreturn]⟩ =
        .ok ⟨Opcode.vreturn, .nothing⟩ ⟨p + 1, []⟩ := rfl
    rw [List.replicate_zero, List.nil_append, readStream_step rfl last, readStream_end]
    simp [idle]
  | succ n ih =>
    have next := ih (p + 1) ((UInt16.ofNat p, ⟨0, .nothing⟩) :: read)
    rw [List.replicate_succ, List.cons_append, readStream_step rfl rfl]
    refine next.trans ?_
    rw [List.reverse_cons, List.append_assoc, Nat.add_right_comm p 1 n]
    rfl

theorem idle_plain {p n : Nat} : ∀ d ∈ idle p n,
    d.2.operand = .nothing ∧ d.2.opcode.longForm? = none := by
  induction n generalizing p with
  | zero => simp [idle]; decide
  | succ n ih =>
    exact List.forall_mem_cons.mpr ⟨⟨rfl, (by decide : Opcode.longForm? 0 = none)⟩, ih⟩

theorem idle_last (p n : Nat) :
    (idle p n)[n]? = some (UInt16.ofNat (p + n), ⟨Opcode.vreturn, .nothing⟩) := by
  induction n generalizing p with
  | zero => rfl
  | succ n ih =>
    rw [idle, List.getElem?_cons_succ, ih, Nat.add_right_comm, Nat.add_assoc]

theorem last_farInstructions :
    farInstructions[32750]? = some (32771, ⟨Opcode.vreturn, .nothing⟩) := by
  have last := idle_last 24 32747
  rw [← List.getElem?_cons_succ, ← List.getElem?_cons_succ, ← List.getElem?_cons_succ] at last
  exact last

theorem stays_farInstructions : ∀ d ∈ farInstructions, d.2.opcode.longForm? = none := by
  simp only [farInstructions, List.forall_mem_cons]
  exact ⟨by decide, by decide, by decide, fun d later => (idle_plain d later).2⟩

theorem reads_far {p : Nat} {i : Instruction Label} {bytes : Bytes} {j : Instruction UInt16}
    (ready : Placeable (fun _ => 32771) 32772 p false i)
    (spelled : (distances (fun _ => 32771) p i).bytes p false = bytes)
    (same : offsets (fun _ => 32771) (i.written false) = j) :
    Reader.ReadsAt (Instruction.read 32772) p bytes j := by
  subst spelled same
  exact reads_written ready

theorem decode_farBranch : decode farBranch.code = .ok farInstructions := by
  have branch : Reader.ReadsAt (Instruction.read 32772) 4 [0x99, 0x7F, 0xFF]
      ⟨0x99, .branch 32771⟩ := by
    refine reads_far (i := ⟨0x99, .branch ⟨0⟩⟩) ?_ rfl rfl
    exact ⟨⟨.branch16, by decide, rfl⟩, trivial, by simp, by decide, by decide,
      fun _ _ _ _ => by decide, nofun⟩
  have table : Reader.ReadsAt (Instruction.read 32772) 7
      [0xAA, 0, 0, 0x7F, 0xFC, 0, 0, 0, 0, 0, 0, 0, 0, 0, 0, 0x7F, 0xFC]
      ⟨0xAA, .tableSwitch 32771 0 0 [32771]⟩ := by
    refine reads_far (i := ⟨0xAA, .tableSwitch ⟨0⟩ 0 0 [⟨0⟩]⟩) ?_ rfl rfl
    exact ⟨⟨.tableSwitch, by decide, by decide⟩, trivial, by simp, by decide, by decide, nofun,
      nofun⟩
  have start : ∀ steps rest, readStream 32772 [] (steps + 1 + 1 + 1) ⟨0, [0xC4, 0x15, 0, 0, 0x99,
      0x7F, 0xFF, 0xAA, 0, 0, 0x7F, 0xFC, 0, 0, 0, 0, 0, 0, 0, 0, 0, 0, 0x7F, 0xFC] ++ rest⟩ =
      readStream 32772 [(7, ⟨0xAA, .tableSwitch 32771 0 0 [32771]⟩), (4, ⟨0x99, .branch 32771⟩),
        (0, ⟨Opcode.iload, .slot 0⟩)] steps ⟨24, rest⟩ := by
    intro steps rest
    have load : Instruction.read 32772 ⟨0, 0xC4 :: 0x15 :: 0 :: 0 :: (0x99 :: 0x7F :: 0xFF ::
        ([0xAA, 0, 0, 0x7F, 0xFC, 0, 0, 0, 0, 0, 0, 0, 0, 0, 0, 0x7F, 0xFC] ++ rest))⟩ =
        .ok ⟨Opcode.iload, .slot 0⟩ ⟨4, _⟩ := rfl
    refine (readStream_step rfl load _ _).trans ?_
    refine (readStream_step rfl (branch _) _ _).trans ?_
    exact readStream_step rfl (table rest) _ _
  have length : farBranch.code.length = 32772 := by
    rw [farBranch, List.length_append, List.length_append, List.length_replicate]
    rfl
  have stream : readStream 32772 [] 32772 ⟨0, farBranch.code⟩ =
      .ok farInstructions ⟨24 + 32747 + 1, []⟩ :=
    (start (21 + 32747 + 1) _).trans (readStream_idle 21 24 32747 _)
  unfold decode
  rw [length]
  dsimp only
  rw [if_neg (by decide), Reader.run, Cursor.start, stream]

theorem labellable_farBranch : Labellable Pool.empty farBranch farInstructions
    (unnamed farBranch farInstructions).boundaries (UInt16.ofNat farBranch.code.length) := by
  have inside : (unnamed farBranch farInstructions).boundaries.contains 32771 = true := by
    have last := List.mem_of_getElem? (idle_last 24 32747)
    exact (unnamed_boundaries farBranch farInstructions 32771).mpr (List.mem_map_of_mem
      (List.mem_cons_of_mem _ (List.mem_cons_of_mem _ (List.mem_cons_of_mem _ last))))
  refine ⟨fun d member o target => ?_, nofun, nofun, by decide⟩
  have same : o = 32771 := by
    simp only [farInstructions, List.mem_cons] at member
    rcases member with rfl | rfl | rfl | later
    · cases target
    · simpa [Instruction.targets, Operand.targets] using target
    · simpa [Instruction.targets, Operand.targets] using target
    · rw [Instruction.targets, (idle_plain d later).1] at target
      cases target
  exact same ▸ inside

theorem narrow_farInstructions {xs : List Item} {f : UInt16 → Label}
    (same : Item.code xs = farInstructions.map fun d => d.2.map f) :
    Slot.placeAfter 0 (Slot.narrow xs) 1 = 2 ∧
      24 + 32747 ≤ Slot.placeAfter 0 (Slot.narrow xs) 32750 := by
  have number : ∀ (n : Nat) (d : UInt16 × Instruction UInt16), farInstructions[n]? = some d →
      (Item.code xs)[n]? = some (d.2.map f) := by
    intro n d here
    rw [same, List.getElem?_map, here]
    rfl
  have one : Slot.placeAfter 0 (Slot.narrow xs) 1 = 2 := by
    rw [Slot.placeAfter_succ 0 (Slot.op_narrow (number 0 _ rfl)), encodedSize_map,
      Slot.placeAfter_zero]
    rfl
  have two : Slot.placeAfter 0 (Slot.narrow xs) 2 = 5 := by
    rw [Slot.placeAfter_succ 0 (Slot.op_narrow (number 1 _ rfl)), encodedSize_map, one]
    rfl
  have three : Slot.placeAfter 0 (Slot.narrow xs) 3 = 24 := by
    rw [Slot.placeAfter_succ 0 (Slot.op_narrow (number 2 _ rfl)), encodedSize_map, two]
    rfl
  have inside : 3 + 32747 ≤ farInstructions.length :=
    Nat.le_of_lt (List.getElem?_eq_some_iff.mp last_farInstructions).1
  have spread := Slot.placeAfter_add_le 0 (Slot.narrow xs) (n := 3) (k := 32747) (by
    rw [Slot.items_narrow, same, List.length_map]
    exact inside)
  rw [three] at spread
  exact ⟨one, spread⟩

theorem farBranch_refused : ∃ b, ofCode farBranch Pool.empty = .ok b ∧
    farBranch.TablesOnce Pool.empty ∧ Pool.empty.Reached ∧ Pool.empty.HasRoom b.tableNames ∧
    ∀ c' p', b.toCode Pool.empty ≠ .ok c' p' := by
  obtain ⟨b, t, read, labelled, _⟩ :=
    ofCode_of_labellable (List.cons_ne_nil _ _) decode_farBranch labellable_farBranch
  refine ⟨b, read, by decide, .empty, hasRoom_tableNames (by decide) b, fun c' p' run => ?_⟩
  obtain ⟨_, e, encodes⟩ := encodes_of_toCode (Pool.sound_of_reached .empty) run
  obtain ⟨small, listing, _⟩ := listing_of_decode decode_farBranch
  have same : Item.code b.items = _ := instructions_labelled labelled
  have still : ∀ i ∈ Item.code b.items, i.opcode.longForm? = none := by
    intro i member
    rw [same] at member
    obtain ⟨d, inside, rfl⟩ := List.mem_map.mp member
    exact stays_farInstructions d inside
  have branch : (Item.code b.items)[1]? = some ⟨0x99, .branch (t.labelFor 32771)⟩ := by
    rw [same]
    rfl
  -- The target is the return, whose number tells its place.
  obtain ⟨m, bound, place, marks⟩ := marks_inside labelled listing small
    (labelled.targets (4, ⟨0x99, .branch 32771⟩) (by simp [farInstructions]) 32771 (by
      simp [Instruction.targets, Operand.targets]))
  have inside := (List.getElem?_eq_some_iff.mp last_farInstructions).1
  obtain rfl : m = 32750 :=
    (numberAt_placeIn listing small (Nat.le_of_lt bound) place).symm.trans
      (numberAt_placeIn listing small (Nat.le_of_lt inside)
        (placeIn_eq_of_getElem last_farInstructions _).symm)
  obtain ⟨start, spread⟩ := narrow_farInstructions same
  refine Assembly.refused_of_far still branch rfl marks ?_ e encodes.encoded
  rw [start]
  simp only [fitsShort, Bool.and_eq_false_iff, decide_eq_false_iff_not]
  exact .inr (by omega)

end Body
end ClassHooks
