import ClassHooks.Proofs.Bytes.Taking
import ClassHooks.Proofs.Instruction.Shapes
import ClassHooks.Instruction.Decoding

/-!
The grammar of code arrays, apart from any way of reading them. An instruction has one encoding or
several: a prefix may stand where it is not needed, and padding and reserved bytes hold anything.
The decoder accepts exactly the arrays that are encodings one behind the other, and an array is that
in one way at most.
-/
namespace ClassHooks
namespace Instruction
open Reader

structure Lands (size p : Nat) (distance : Int) (o : UInt16) : Prop where
  far : (o.toNat : Int) = p + distance
  inside : o.toNat < size

def Jump (size p : Nat) (o : UInt16) (bs : Bytes) : Prop :=
  ∃ d : Int32, Lands size p d.toInt o ∧ bs = Bytes.i32 d

def Case (size p : Nat) (c : Int32 × UInt16) (bs : Bytes) : Prop :=
  ∃ jump, Jump size p c.2 jump ∧ bs = Bytes.i32 c.1 ++ jump

structure Padding (p : Nat) (gap : Bytes) : Prop where
  aligned : (p + 1 + gap.length) % 4 = 0
  short : gap.length < 4

/-- The encodings of an instruction at `p` in a code array of `size` bytes. -/
inductive Encoding (size p : Nat) : Instruction UInt16 → Bytes → Prop where
  | nothing {op : Opcode} (shape : op.shape? = some .nothing) : Encoding size p ⟨op, .nothing⟩ [op]
  | byte {op : Opcode} (shape : op.shape? = some .byte) (value : Int8) :
      Encoding size p ⟨op, .byte value⟩ (op :: Bytes.i8 value)
  | short {op : Opcode} (shape : op.shape? = some .short) (value : Int16) :
      Encoding size p ⟨op, .short value⟩ (op :: Bytes.i16 value)
  | slot {op : Opcode} (shape : op.shape? = some .slot) (index : UInt8) :
      Encoding size p ⟨op, .slot index.toUInt16⟩ [op, index]
  | wideSlot {op : Opcode} (wide : op.takesWideSlot = true) (index : UInt16) :
      Encoding size p ⟨op, .slot index⟩ (Opcode.wide :: op :: Bytes.u16 index)
  | constant8 {op : Opcode} (shape : op.shape? = some .constant8) (index : UInt8) :
      Encoding size p ⟨op, .constant index.toUInt16⟩ [op, index]
  | constant16 {op : Opcode} (shape : op.shape? = some .constant16) (index : UInt16) :
      Encoding size p ⟨op, .constant index⟩ (op :: Bytes.u16 index)
  | increment {op : Opcode} (shape : op.shape? = some .increment) (index : UInt8) (delta : Int8) :
      Encoding size p ⟨op, .increment index.toUInt16 delta.toInt16⟩
        (op :: index :: Bytes.i8 delta)
  | wideIncrement (index : UInt16) (delta : Int16) :
      Encoding size p ⟨Opcode.iinc, .increment index delta⟩
        (Opcode.wide :: Opcode.iinc :: (Bytes.u16 index ++ Bytes.i16 delta))
  | branch16 {op : Opcode} (shape : op.shape? = some .branch16) {d : Int16} {o : UInt16}
      (lands : Lands size p d.toInt o) : Encoding size p ⟨op, .branch o⟩ (op :: Bytes.i16 d)
  | branch32 {op : Opcode} (shape : op.shape? = some .branch32) {o : UInt16} {bs : Bytes}
      (jump : Jump size p o bs) : Encoding size p ⟨op, .branch o⟩ (op :: bs)
  | tableSwitch {op : Opcode} (shape : op.shape? = some .tableSwitch) {gap first : Bytes}
      (padding : Padding p gap) {default : UInt16} (jump : Jump size p default first)
      {low high : Int32} (ordered : low ≤ high) {targets : List UInt16} {jumps : List Bytes}
      (count : (targets.length : Int) = high.toInt - low.toInt + 1)
      (each : List.Forall₂ (Jump size p) targets jumps) :
      Encoding size p ⟨op, .tableSwitch default low high targets⟩
        (op :: (gap ++ (first ++ (Bytes.i32 low ++ (Bytes.i32 high ++ jumps.flatten)))))
  | lookupSwitch {op : Opcode} (shape : op.shape? = some .lookupSwitch) {gap first : Bytes}
      (padding : Padding p gap) {default : UInt16} (jump : Jump size p default first)
      {n : Int32} {pairs : List (Int32 × UInt16)} {cases : List Bytes}
      (count : n.toInt = pairs.length) (rising : (pairs.map (·.1)).Pairwise (· < ·))
      (each : List.Forall₂ (Case size p) pairs cases) :
      Encoding size p ⟨op, .lookupSwitch default pairs⟩
        (op :: (gap ++ (first ++ (Bytes.i32 n ++ cases.flatten))))
  | interfaceCall {op : Opcode} (shape : op.shape? = some .interfaceCall) (index : UInt16)
      (count reserved : UInt8) : Encoding size p ⟨op, .interfaceCall index count⟩
        (op :: (Bytes.u16 index ++ [count, reserved]))
  | dynamicCall {op : Opcode} (shape : op.shape? = some .dynamicCall) (index reserved : UInt16) :
      Encoding size p ⟨op, .dynamicCall index⟩ (op :: (Bytes.u16 index ++ Bytes.u16 reserved))
  | arrayType {op : Opcode} (shape : op.shape? = some .arrayType) (code : UInt8) :
      Encoding size p ⟨op, .arrayType code⟩ [op, code]
  | multiArray {op : Opcode} (shape : op.shape? = some .multiArray) (index : UInt16)
      (dimensions : UInt8) :
      Encoding size p ⟨op, .multiArray index dimensions⟩ (op :: (Bytes.u16 index ++ [dimensions]))

inductive Encodings (size : Nat) : Nat → List (UInt16 × Instruction UInt16) → List Bytes → Prop where
  | nil {p : Nat} : Encodings size p [] []
  | cons {p : Nat} {o : UInt16} {i : Instruction UInt16} {bs : Bytes}
      {rest : List (UInt16 × Instruction UInt16)} {parts : List Bytes} (place : o.toNat = p)
      (here : Encoding size p i bs) (later : Encodings size (p + bs.length) rest parts) :
      Encodings size p ((o, i) :: rest) (bs :: parts)

section Targets
variable {size p : Nat}

theorem target_ok_iff (small : size ≤ 65535) {d : Int} {o : UInt16} :
    target size p d = .ok o ↔ Lands size p d o := by
  unfold target
  dsimp only
  constructor
  · intro ok
    split at ok
    · rename_i inside
      cases ok
      have exact16 : (UInt16.ofNat ((p : Int) + d).toNat).toNat = ((p : Int) + d).toNat :=
        UInt16.toNat_ofNat_of_lt' (by change _ < 65536; omega)
      exact ⟨by omega, by omega⟩
    · cases ok
  · intro lands
    have far := lands.far
    have inside := lands.inside
    rw [if_pos (by omega), ← far, Int.toNat_natCast, UInt16.ofNat_toNat]

theorem reads_jump_of (small : size ≤ 65535) {o : UInt16} {bs : Bytes} (jump : Jump size p o bs)
    (q : Nat) : ReadsAt (readTarget size p) q bs o := by
  obtain ⟨d, lands, rfl⟩ := jump
  have read := reads_bind (f := fun d : Int32 => Reader.lift (target size p d.toInt))
    (reads_i32 d q) (reads_lift ((target_ok_iff small).mpr lands) _)
  rwa [List.append_nil] at read

theorem takes_jump (small : size ≤ 65535) (q : Nat) :
    TakesAt (readTarget size p) q (Jump size p) := by
  refine takes_field takes_i32 fun d => ?_
  rw [← bind_pure (Reader.lift _)]
  refine takes_lift fun o ok => takes_pure ?_
  exact ⟨d, (target_ok_iff small).mp ok, List.append_nil _⟩

theorem jump_length {o : UInt16} {bs : Bytes} (jump : Jump size p o bs) : bs.length = 4 := by
  obtain ⟨d, _, rfl⟩ := jump
  exact Bytes.i32_length d

theorem case_length {c : Int32 × UInt16} {bs : Bytes} (case : Case size p c bs) :
    bs.length = 8 := by
  obtain ⟨jump, holds, rfl⟩ := case
  rw [List.length_append, Bytes.i32_length, jump_length holds]

theorem flatten_length {R : α → Bytes → Prop} {width : Nat} {xs : List α} {parts : List Bytes}
    (each : List.Forall₂ R xs parts) (same : ∀ x bs, R x bs → bs.length = width) :
    parts.flatten.length = width * xs.length := by
  induction each with
  | nil => rfl
  | cons here _ ih =>
    rw [List.flatten_cons, List.length_append, same _ _ here, ih, List.length_cons, Nat.mul_succ,
      Nat.add_comm]

theorem padding_iff {gap : Bytes} :
    Padding p gap ↔ gap.length = (4 - (p + 1) % 4) % 4 := by
  constructor
  · rintro ⟨aligned, short⟩
    omega
  · intro width
    exact ⟨by omega, by omega⟩

theorem key_rises {previous : Option Int32} {key : Int32} :
    previous.any (key ≤ ·) = false ↔ ∀ k ∈ previous, k < key := by
  cases previous <;> simp

theorem takes_cases (small : size ≤ 65535) (n : Nat) (previous : Option Int32)
    (read : List (Int32 × UInt16)) (q : Nat) :
    TakesAt (readPairs size p previous read n) q fun pairs bs => ∃ more parts,
      pairs = read.reverse ++ more ∧ more.length = n ∧ List.Forall₂ (Case size p) more parts ∧
      bs = parts.flatten ∧ (previous.toList ++ more.map (·.1)).IsChain (· < ·) := by
  induction n generalizing previous read q with
  | zero =>
    refine takes_pure ⟨[], [], by simp, rfl, .nil, rfl, ?_⟩
    cases previous <;> simp
  | succ n ih =>
    refine takes_field takes_i32 fun key => ?_
    dsimp only
    refine takes_guard fun sorted => ?_
    have rises := key_rises.mp (Bool.not_eq_true _ ▸ sorted)
    refine takes_bind (takes_jump small _) fun place jump holds => ?_
    refine takes_mono (ih (some key) ((key, place) :: read) _) ?_
    rintro pairs _ ⟨more, parts, rfl, length, each, rfl, chain⟩
    refine ⟨(key, place) :: more, (Bytes.i32 key ++ jump) :: parts, by simp, by simp [length],
      .cons ⟨jump, holds, rfl⟩ each, by simp, ?_⟩
    cases previous with
    | none => exact chain
    | some k => exact List.isChain_cons_cons.mpr ⟨rises k rfl, chain⟩

theorem reads_cases (small : size ≤ 65535) {pairs : List (Int32 × UInt16)} {parts : List Bytes}
    (each : List.Forall₂ (Case size p) pairs parts) (previous : Option Int32)
    (chain : (previous.toList ++ pairs.map (·.1)).IsChain (· < ·)) (read : List (Int32 × UInt16))
    (q : Nat) : ReadsAt (readPairs size p previous read pairs.length) q parts.flatten
      (read.reverse ++ pairs) := by
  induction each generalizing previous read q with
  | nil =>
    rw [List.append_nil]
    exact reads_pure _ q
  | @cons c bs pairs parts here _ ih =>
    obtain ⟨key, place⟩ := c
    obtain ⟨jump, holds, rfl⟩ := here
    have rises : ∀ k ∈ previous, k < key := by
      rintro k rfl
      exact (List.isChain_cons_cons.mp chain).1
    have later : ((some key).toList ++ pairs.map (·.1)).IsChain (· < ·) := by
      cases previous with
      | none => exact chain
      | some k => exact (List.isChain_cons_cons.mp chain).2
    rw [List.flatten_cons, List.append_assoc]
    refine reads_bind (reads_i32 key q) ?_
    rw [key_rises.mpr rises]
    refine reads_bind (reads_jump_of small holds _) ?_
    simpa using ih (some key) later ((key, place) :: read) _

theorem rising_iff_chain {keys : List Int32} :
    keys.Pairwise (· < ·) ↔ keys.IsChain (· < ·) :=
  have : Trans (α := Int32) (· < ·) (· < ·) (· < ·) := ⟨Int32.lt_trans⟩
  List.isChain_iff_pairwise.symm

end Targets

section Whole
variable {size p : Nat} {op : Opcode}

theorem reads_plain (size p : Nat) {op : Opcode} {shape : Shape} (assigned : op.shape? = some shape)
    {bytes : Bytes} {operand : Operand UInt16}
    (read : ReadsAt (readOperand size p shape) (p + 1) bytes operand) :
    ReadsAt (Instruction.read size) p (op :: bytes) ⟨op, operand⟩ := by
  have single : op ≠ Opcode.wide := Opcode.ne_wide_of_shape op (by simp [assigned])
  refine reads_position (reads_cons ?_)
  simp only [single, if_false, assigned]
  exact reads_map _ read

theorem reads_wide_slot {op : Opcode} (assigned : op.shape? = some .slot) (index : UInt16) :
    ReadsAt (Instruction.read size) p (Opcode.wide :: op :: Bytes.u16 index)
      ⟨op, .slot index⟩ := by
  have wider := (Opcode.takesWideSlot_iff_shape op).mpr assigned
  refine reads_position (reads_cons ?_)
  simp only [if_true]
  refine reads_cons ?_
  simp only [wider, if_true]
  exact reads_map _ (reads_u16 index _)

theorem reads_wide_increment (index : UInt16) (delta : Int16) :
    ReadsAt (Instruction.read size) p
      (Opcode.wide :: Opcode.iinc :: (Bytes.u16 index ++ Bytes.i16 delta))
      ⟨Opcode.iinc, .increment index delta⟩ := by
  have narrow : Opcode.takesWideSlot Opcode.iinc = false := rfl
  refine reads_position (reads_cons ?_)
  simp only [if_true]
  refine reads_cons ?_
  simp only [narrow, Bool.false_eq_true, if_false, if_true]
  exact reads_bind (reads_u16 index _) (reads_map _ (reads_i16 delta _))

theorem reads_table (small : size ≤ 65535) {gap first : Bytes} (padding : Padding p gap)
    {default : UInt16} (jump : Jump size p default first) {low high : Int32}
    (ordered : low ≤ high) {targets : List UInt16} {jumps : List Bytes}
    (count : (targets.length : Int) = high.toInt - low.toInt + 1)
    (each : List.Forall₂ (Jump size p) targets jumps) :
    ReadsAt (readTableSwitch size p) (p + 1)
      (gap ++ (first ++ (Bytes.i32 low ++ (Bytes.i32 high ++ jumps.flatten))))
      (.tableSwitch default low high targets) := by
  have number : (high.toInt - low.toInt + 1).toNat = targets.length := by omega
  have room : 4 * targets.length ≤ jumps.flatten.length :=
    Nat.le_of_eq (flatten_length each fun _ _ => jump_length).symm
  refine reads_bind (reads_align (padding_iff.mp padding)) ?_
  refine reads_bind (reads_jump_of small jump _) ?_
  refine reads_bind (reads_i32 low _) ?_
  refine reads_bind (reads_i32 high _) ?_
  simp only [Int32.not_lt.mpr ordered, if_false, number]
  refine reads_holds room ?_
  exact reads_map _ (reads_repeated_parts (each.imp fun _ _ jump => reads_jump_of small jump) _)

theorem reads_lookup (small : size ≤ 65535) {gap first : Bytes} (padding : Padding p gap)
    {default : UInt16} (jump : Jump size p default first) {n : Int32}
    {pairs : List (Int32 × UInt16)} {parts : List Bytes} (count : n.toInt = pairs.length)
    (rising : (pairs.map (·.1)).Pairwise (· < ·))
    (each : List.Forall₂ (Case size p) pairs parts) :
    ReadsAt (readLookupSwitch size p) (p + 1)
      (gap ++ (first ++ (Bytes.i32 n ++ parts.flatten))) (.lookupSwitch default pairs) := by
  have positive : ¬ n < 0 := by
    rw [Int32.lt_iff_toInt_lt, count]
    simp
  have room : 8 * pairs.length ≤ parts.flatten.length :=
    Nat.le_of_eq (flatten_length each fun _ _ => case_length).symm
  refine reads_bind (reads_align (padding_iff.mp padding)) ?_
  refine reads_bind (reads_jump_of small jump _) ?_
  refine reads_bind (reads_i32 n _) ?_
  simp only [positive, if_false, count, Int.toNat_natCast]
  refine reads_holds room ?_
  exact reads_map _ (reads_cases small each none (rising_iff_chain.mp rising) [] _)

/-- Every encoding of an instruction is read as that instruction. -/
theorem reads_encoding (small : size ≤ 65535) {i : Instruction UInt16} {bs : Bytes}
    (encoding : Encoding size p i bs) : ReadsAt (Instruction.read size) p bs i := by
  cases encoding with
  | nothing shape => exact reads_plain size p shape (reads_pure _ _)
  | byte shape value => exact reads_plain size p shape (reads_map _ (reads_i8 value _))
  | short shape value => exact reads_plain size p shape (reads_map _ (reads_i16 value _))
  | slot shape index =>
    exact reads_plain size p shape
      (reads_map (fun b : UInt8 => Operand.slot b.toUInt16) (reads_u8 index _))
  | @wideSlot op wide index => exact reads_wide_slot ((Opcode.takesWideSlot_iff_shape op).mp wide) index
  | constant8 shape index =>
    exact reads_plain size p shape
      (reads_map (fun b : UInt8 => Operand.constant b.toUInt16) (reads_u8 index _))
  | constant16 shape index => exact reads_plain size p shape (reads_map _ (reads_u16 index _))
  | increment shape index delta =>
    exact reads_plain size p shape (reads_cons (reads_map _ (reads_i8 delta _)))
  | wideIncrement index delta => exact reads_wide_increment index delta
  | @branch16 op shape d o lands =>
    have ok := (target_ok_iff small).mpr lands
    have read := reads_bind
      (f := fun d : Int16 => do return Operand.branch (← Reader.lift (target size p d.toInt)))
      (reads_i16 d (p + 1)) (reads_map Operand.branch (reads_lift ok _))
    rw [List.append_nil] at read
    exact reads_plain size p shape read
  | branch32 shape jump => exact reads_plain size p shape (reads_map _ (reads_jump_of small jump _))
  | tableSwitch shape padding jump ordered count each =>
    exact reads_plain size p shape (reads_table small padding jump ordered count each)
  | lookupSwitch shape padding jump count rising each =>
    exact reads_plain size p shape (reads_lookup small padding jump count rising each)
  | interfaceCall shape index count reserved =>
    exact reads_plain size p shape
      (reads_bind (reads_u16 index _) (reads_cons (reads_cons (reads_pure _ _))))
  | dynamicCall shape index reserved =>
    exact reads_plain size p shape (reads_bind (reads_u16 index _) (reads_map _ (reads_u16 reserved _)))
  | arrayType shape code => exact reads_plain size p shape (reads_map _ (reads_u8 code _))
  | multiArray shape index dimensions =>
    exact reads_plain size p shape
      (reads_bind (reads_u16 index _) (reads_map _ (reads_u8 dimensions _)))

theorem takes_table (small : size ≤ 65535) (shape : op.shape? = some .tableSwitch) :
    TakesAt (readTableSwitch size p) (p + 1) fun o bs => Encoding size p ⟨op, o⟩ (op :: bs) := by
  refine takes_bind (takes_align 4) fun _ gap width => ?_
  refine takes_bind (takes_jump small _) fun default first jump => ?_
  refine takes_field takes_i32 fun low => ?_
  refine takes_field takes_i32 fun high => ?_
  dsimp only
  refine takes_guard fun ordered => ?_
  refine takes_holds fun _ => ?_
  refine takes_guard fun _ => ?_
  refine takes_map (takes_mono (takes_repeated (takes_jump small) _ _) ?_)
  rintro targets _ ⟨count, jumps, each, rfl⟩
  have ordered := Int32.not_lt.mp ordered
  refine .tableSwitch shape (padding_iff.mpr width) jump ordered ?_ each
  have := Int32.le_iff_toInt_le.mp ordered
  omega

theorem takes_lookup (small : size ≤ 65535) (shape : op.shape? = some .lookupSwitch) :
    TakesAt (readLookupSwitch size p) (p + 1) fun o bs => Encoding size p ⟨op, o⟩ (op :: bs) := by
  refine takes_bind (takes_align 4) fun _ gap width => ?_
  refine takes_bind (takes_jump small _) fun default first jump => ?_
  refine takes_field takes_i32 fun n => ?_
  dsimp only
  refine takes_guard fun positive => ?_
  refine takes_holds fun _ => ?_
  refine takes_guard fun _ => ?_
  refine takes_map (takes_mono (takes_cases small _ none [] _) ?_)
  rintro pairs _ ⟨more, parts, same, length, each, rfl, chain⟩
  obtain rfl : pairs = more := same
  refine .lookupSwitch shape (padding_iff.mpr width) jump ?_ (rising_iff_chain.mpr chain) each
  have := Int32.le_iff_toInt_le.mp (Int32.not_lt.mp positive)
  change 0 ≤ n.toInt at this
  omega

theorem takes_operand (small : size ≤ 65535) {shape : Shape} (assigned : op.shape? = some shape) :
    TakesAt (readOperand size p shape) (p + 1)
      fun o bs => Encoding size p ⟨op, o⟩ (op :: bs) := by
  cases shape with
  | nothing => exact takes_pure (.nothing assigned)
  | byte =>
    refine takes_map (takes_mono takes_i8 ?_)
    rintro value _ rfl
    exact .byte assigned value
  | short =>
    refine takes_map (takes_mono takes_i16 ?_)
    rintro value _ rfl
    exact .short assigned value
  | slot =>
    refine takes_map (takes_mono takes_u8 ?_)
    rintro index _ rfl
    exact .slot assigned index
  | constant8 =>
    refine takes_map (takes_mono takes_u8 ?_)
    rintro index _ rfl
    exact .constant8 assigned index
  | constant16 =>
    refine takes_map (takes_mono takes_u16 ?_)
    rintro index _ rfl
    exact .constant16 assigned index
  | increment =>
    refine takes_field takes_u8 fun index => takes_map (takes_mono takes_i8 ?_)
    rintro delta _ rfl
    exact .increment assigned index delta
  | branch16 =>
    refine takes_field takes_i16 fun d => takes_lift fun o ok => takes_pure ?_
    rw [List.append_nil]
    exact .branch16 assigned ((target_ok_iff small).mp ok)
  | branch32 => exact takes_map (takes_mono (takes_jump small _) fun _ _ => .branch32 assigned)
  | tableSwitch => exact takes_table small assigned
  | lookupSwitch => exact takes_lookup small assigned
  | interfaceCall =>
    refine takes_field takes_u16 fun index => takes_field takes_u8 fun count => ?_
    refine takes_bind takes_u8 fun reserved bs same => takes_pure ?_
    subst same
    exact .interfaceCall assigned index count reserved
  | dynamicCall =>
    refine takes_field takes_u16 fun index => ?_
    refine takes_bind takes_u16 fun reserved bs same => takes_pure ?_
    subst same
    rw [List.append_nil]
    exact .dynamicCall assigned index reserved
  | arrayType =>
    refine takes_map (takes_mono takes_u8 ?_)
    rintro code _ rfl
    exact .arrayType assigned code
  | multiArray =>
    refine takes_field takes_u16 fun index => takes_map (takes_mono takes_u8 ?_)
    rintro dimensions _ rfl
    exact .multiArray assigned index dimensions

theorem takes_wide :
    TakesAt (readWide p) (p + 1) fun i bs => Encoding size p i (Opcode.wide :: bs) := by
  refine takes_field takes_u8 fun op => ?_
  split
  · rename_i wide
    refine takes_map (takes_mono takes_u16 ?_)
    rintro index _ rfl
    exact .wideSlot wide index
  · split
    · rename_i increment
      subst increment
      refine takes_field takes_u16 fun index => takes_map (takes_mono takes_i16 ?_)
      rintro delta _ rfl
      exact .wideIncrement index delta
    · exact takes_throw _

/-- What is read as an instruction is an encoding of it. -/
theorem takes_encoding (small : size ≤ 65535) :
    TakesAt (Instruction.read size) p (Encoding size p) := by
  refine takes_position (takes_field takes_u8 fun op => ?_)
  split
  · rename_i wide
    subst wide
    exact takes_wide
  · split
    · exact takes_throw _
    · rename_i shape assigned
      exact takes_map (takes_operand small assigned)

end Whole

section Stream
variable {size p : Nat}

theorem readStream_end {size position : Nat} (read : List (UInt16 × Instruction UInt16))
    (steps : Nat) :
    readStream size read steps ⟨position, []⟩ = .ok read.reverse ⟨position, []⟩ := by
  cases steps <;> rfl

theorem readStream_step {size : Nat} {c c' : Cursor} {i : Instruction UInt16}
    (more : c.atEnd = false) (first : Instruction.read size c = .ok i c')
    (read : List (UInt16 × Instruction UInt16)) (steps : Nat) :
    readStream size read (steps + 1) c =
      readStream size ((UInt16.ofNat c.position, i) :: read) steps c' := by
  rw [readStream]
  simp only [bind, EStateM.bind, Reader.atEnd, more, Bool.false_eq_true, if_false, Reader.position,
    first]

/-- Encodings that begin the same bytes are one and the same. -/
theorem encoding_unique (small : size ≤ 65535) {i j : Instruction UInt16} {as bs more rest : Bytes}
    (one : Encoding size p i as) (two : Encoding size p j bs) (same : as ++ more = bs ++ rest) :
    i = j ∧ as = bs ∧ more = rest := by
  have first := reads_encoding small one more
  have second := reads_encoding small two rest
  rw [same, second, EStateM.Result.ok.injEq, Cursor.mk.injEq] at first
  obtain ⟨rfl, -, rfl⟩ := first
  exact ⟨rfl, List.append_cancel_right same, rfl⟩

theorem encoding_length_pos {i : Instruction UInt16} {bs : Bytes} (encoding : Encoding size p i bs) :
    0 < bs.length := by
  cases encoding <;> exact Nat.succ_pos _

theorem encodings_unique (small : size ≤ 65535) {one two : List (UInt16 × Instruction UInt16)}
    {parts parts' : List Bytes} (first : Encodings size p one parts)
    (second : Encodings size p two parts') (same : parts.flatten = parts'.flatten) :
    one = two ∧ parts = parts' := by
  induction first generalizing two parts' with
  | nil =>
    cases second with
    | nil => exact ⟨rfl, rfl⟩
    | @cons _ _ _ bs _ _ _ here _ =>
      have empty : bs = [] := (List.append_eq_nil_iff.mp same.symm).1
      have := encoding_length_pos here
      simp [empty] at this
  | @cons p o i bs rest parts place here later ih =>
    cases second with
    | nil =>
      have empty : bs = [] := (List.append_eq_nil_iff.mp same).1
      have := encoding_length_pos here
      simp [empty] at this
    | cons place' here' later' =>
      obtain ⟨rfl, rfl, behind⟩ := encoding_unique small here here' same
      obtain ⟨rfl, rfl⟩ := ih later' behind
      obtain rfl := UInt16.toNat_inj.mp (place.trans place'.symm)
      exact ⟨rfl, rfl⟩

theorem readStream_encodings (small : size ≤ 65535) {decoded : List (UInt16 × Instruction UInt16)}
    {parts : List Bytes} (encodings : Encodings size p decoded parts)
    (read : List (UInt16 × Instruction UInt16)) (steps : Nat) (enough : decoded.length ≤ steps) :
    ∃ c', readStream size read steps ⟨p, parts.flatten⟩ = .ok (read.reverse ++ decoded) c' := by
  induction encodings generalizing read steps with
  | nil => exact ⟨_, by rw [List.append_nil]; exact readStream_end read steps⟩
  | @cons p o i bs rest parts place here later ih =>
    cases steps with
    | zero => cases enough
    | succ steps =>
      obtain ⟨b, more, filled⟩ := List.exists_cons_of_length_pos (encoding_length_pos here)
      have left : (Cursor.mk p (bs :: parts).flatten).atEnd = false := by
        rw [filled]
        rfl
      obtain ⟨c', run⟩ := ih ((UInt16.ofNat p, i) :: read) steps (Nat.le_of_succ_le_succ enough)
      refine ⟨c', ?_⟩
      rw [readStream_step left (reads_encoding small here parts.flatten), run, ← place,
        UInt16.ofNat_toNat]
      simp

theorem encodings_of_readStream (small : size ≤ 65535) (steps : Nat)
    (read : List (UInt16 × Instruction UInt16)) {bytes : Bytes} {c' : Cursor}
    {decoded : List (UInt16 × Instruction UInt16)} (enough : bytes.length ≤ steps)
    (room : p + bytes.length ≤ size) (run : readStream size read steps ⟨p, bytes⟩ = .ok decoded c') :
    ∃ rest parts, decoded = read.reverse ++ rest ∧ Encodings size p rest parts ∧
      parts.flatten = bytes := by
  induction steps generalizing read p bytes with
  | zero =>
    cases run
    obtain rfl := List.eq_nil_of_length_eq_zero (Nat.le_zero.mp enough)
    exact ⟨[], [], by simp, .nil, rfl⟩
  | succ steps ih =>
    rw [readStream] at run
    obtain ⟨done, c₁, asked, run⟩ := state_bind_ok_iff.mp run
    cases asked
    split at run
    · rename_i done
      cases run
      obtain rfl := List.isEmpty_iff.mp done
      exact ⟨[], [], by simp, .nil, rfl⟩
    · obtain ⟨offset, c₂, asked, run⟩ := state_bind_ok_iff.mp run
      cases asked
      obtain ⟨i, ⟨p', bytes'⟩, first, run⟩ := state_bind_ok_iff.mp run
      obtain ⟨taken, rfl, far, here⟩ := takes_encoding small bytes i _ first
      subst far
      have some := encoding_length_pos here
      rw [List.length_append] at enough room
      dsimp only at enough room
      obtain ⟨rest, parts, rfl, later, rfl⟩ := ih _ (by omega) (by omega) run
      refine ⟨(UInt16.ofNat p, i) :: rest, taken :: parts, by simp, .cons ?_ here later, rfl⟩
      exact UInt16.toNat_ofNat_of_lt' (by change p < 65536; omega)

theorem encodings_length {decoded : List (UInt16 × Instruction UInt16)} {parts : List Bytes}
    (encodings : Encodings size p decoded parts) : decoded.length ≤ parts.flatten.length := by
  induction encodings with
  | nil => exact Nat.le_refl _
  | cons _ here _ ih =>
    have := encoding_length_pos here
    rw [List.flatten_cons, List.length_append, List.length_cons]
    omega

theorem small_of_decode {code : Bytes} {decoded : List (UInt16 × Instruction UInt16)}
    (run : decode code = .ok decoded) : code.length ≤ 65535 := by
  unfold decode at run
  dsimp only at run
  split at run
  · cases run
  · omega

theorem decode_ok_iff {code : Bytes} (small : code.length ≤ 65535)
    {decoded : List (UInt16 × Instruction UInt16)} : decode code = .ok decoded ↔
      ∃ parts, Encodings code.length 0 decoded parts ∧ parts.flatten = code := by
  unfold decode
  dsimp only
  rw [if_neg (by omega)]
  unfold Reader.run
  constructor
  · intro run
    split at run
    · rename_i ran
      cases run
      obtain ⟨rest, parts, rfl, encodings, whole⟩ :=
        encodings_of_readStream small _ [] (Nat.le_refl _) (by simp) ran
      exact ⟨parts, encodings, whole⟩
    · cases run
  · rintro ⟨parts, encodings, whole⟩
    have enough := encodings_length encodings
    rw [whole] at enough
    obtain ⟨c', run⟩ := readStream_encodings small encodings [] code.length enough
    rw [whole] at run
    rw [Cursor.start, run]
    rfl

theorem encodings_of_decode {code : Bytes} {decoded : List (UInt16 × Instruction UInt16)}
    (run : decode code = .ok decoded) :
    ∃ parts, Encodings code.length 0 decoded parts ∧ parts.flatten = code :=
  (decode_ok_iff (small_of_decode run)).mp run

end Stream

/-- The decoder accepts exactly the arrays that are encodings one behind the other, which an array is
in one way at most, and refuses all others. -/
theorem decode_grammar (code : Bytes) (small : code.length ≤ 65535) :
    (∀ decoded, decode code = .ok decoded ↔
      ∃ parts, Encodings code.length 0 decoded parts ∧ parts.flatten = code) ∧
    (∀ one two parts parts', Encodings code.length 0 one parts → parts.flatten = code →
      Encodings code.length 0 two parts' → parts'.flatten = code → one = two ∧ parts = parts') ∧
    ((¬ ∃ decoded parts, Encodings code.length 0 decoded parts ∧ parts.flatten = code) →
      ∃ err, decode code = .error err) := by
  refine ⟨fun decoded => decode_ok_iff small, ?_, ?_⟩
  · intro one two parts parts' first whole second whole'
    exact encodings_unique small first second (whole.trans whole'.symm)
  · intro none
    cases run : decode code with
    | error err => exact ⟨err, rfl⟩
    | ok decoded => exact absurd ⟨decoded, (decode_ok_iff small).mp run⟩ none

def looseForms : Bytes :=
  [0xC4, 0x15, 0x00, 0x01, 0xB9, 0x00, 0x05, 0x02, 0xFF, 0xAA, 0x07, 0x07, 0xFF, 0xFF, 0xFF, 0xF7,
    0x00, 0x00, 0x00, 0x00, 0x00, 0x00, 0x00, 0x00, 0x00, 0x00, 0x00, 0x13, 0xB1]

def looseInstructions : List (UInt16 × Instruction UInt16) :=
  [(0, ⟨Opcode.iload, .slot 1⟩), (4, ⟨0xB9, .interfaceCall 5 2⟩),
    (9, ⟨0xAA, .tableSwitch 0 0 0 [28]⟩), (28, ⟨Opcode.vreturn, .nothing⟩)]

theorem looseForms_grammar : looseForms.length ≤ 65535 ∧
    ∃ parts, Encodings looseForms.length 0 looseInstructions parts ∧ parts.flatten = looseForms ∧
      ∀ others parts', Encodings looseForms.length 0 others parts' → parts'.flatten = looseForms →
        others = looseInstructions ∧ parts' = parts := by
  have small : looseForms.length ≤ 65535 := by decide
  have decodes : decode looseForms = .ok looseInstructions := by decide +kernel
  obtain ⟨accepts, unique, _⟩ := decode_grammar looseForms small
  obtain ⟨parts, encodings, whole⟩ := (accepts looseInstructions).mp decodes
  exact ⟨small, parts, encodings, whole, fun others parts' encodings' whole' =>
    unique others looseInstructions parts' parts encodings' whole' encodings whole⟩

end Instruction
end ClassHooks
