import ClassHooks.Error

/-!
Descriptors of fields and methods: the types they name, their text, and reading it. Reading
accepts exactly the text of a type with at most 255 dimensions, and names the first fault of any
other text.
-/
namespace ClassHooks

inductive BaseType where
  | byte
  | char
  | double
  | float
  | int
  | long
  | short
  | boolean
  deriving DecidableEq, Repr

namespace BaseType

def letter : BaseType → Char
  | .byte => 'B'
  | .char => 'C'
  | .double => 'D'
  | .float => 'F'
  | .int => 'I'
  | .long => 'J'
  | .short => 'S'
  | .boolean => 'Z'

def name : BaseType → String
  | .byte => "Byte"
  | .char => "Char"
  | .double => "Double"
  | .float => "Float"
  | .int => "Int"
  | .long => "Long"
  | .short => "Short"
  | .boolean => "Boolean"

def ofLetter? : Char → Option BaseType
  | 'B' => some .byte
  | 'C' => some .char
  | 'D' => some .double
  | 'F' => some .float
  | 'I' => some .int
  | 'J' => some .long
  | 'S' => some .short
  | 'Z' => some .boolean
  | _ => none

def wrapper : BaseType → String
  | .byte => "java/lang/Byte"
  | .char => "java/lang/Character"
  | .double => "java/lang/Double"
  | .float => "java/lang/Float"
  | .int => "java/lang/Integer"
  | .long => "java/lang/Long"
  | .short => "java/lang/Short"
  | .boolean => "java/lang/Boolean"

def kind : BaseType → ValueKind
  | .long => .long
  | .float => .float
  | .double => .double
  | _ => .int

end BaseType

inductive FieldType where
  | base (type : BaseType)
  | object (name : String)
  | array (element : FieldType)
  deriving DecidableEq, Repr

namespace FieldType

def kind : FieldType → ValueKind
  | .base b => b.kind
  | .object _ | .array _ => .reference

def isPrimitive : FieldType → Bool
  | .base _ => true
  | _ => false

def text : FieldType → String
  | .base b => String.singleton b.letter
  | .object name => "L" ++ name ++ ";"
  | .array element => "[" ++ element.text

/-- The class that wraps a primitive value and the descriptor of its method `valueOf`. -/
def boxing? : FieldType → Option (String × String)
  | .base b =>
    some (b.wrapper, "(" ++ String.singleton b.letter ++ ")L" ++ b.wrapper ++ ";")
  | _ => none

def nest : Nat → FieldType → FieldType
  | 0, t => t
  | n + 1, t => .array (nest n t)

def leadByte (c : Char) : UInt8 :=
  let n := c.toNat
  if n < 0x80 then UInt8.ofNat n
  else if n < 0x800 then UInt8.ofNat (0xC0 + n / 0x40)
  else if n < 0x10000 then UInt8.ofNat (0xE0 + n / 0x1000)
  else UInt8.ofNat (0xF0 + n / 0x40000)

def readElement : List Char → Except DescriptorFault (FieldType × List Char)
  | [] => .error .truncated
  | c :: rest =>
    if c = 'L' then
      match rest.dropWhile (· ≠ ';') with
      | [] => .error .unterminatedClass
      | _ :: after =>
        match rest.takeWhile (· ≠ ';') with
        | [] => .error .emptyClass
        | name => .ok (.object (String.ofList name), after)
    else
      match BaseType.ofLetter? c with
      | some b => .ok (.base b, rest)
      | none => .error (.unknownTag (leadByte c))

/-- Reads a type; also gives the text behind it. The dimensions have no bound here: what a signed
count of four bytes cannot hold, 2^31 of them, is refused like any number above 255. -/
def read (cs : List Char) : Except DescriptorFault (FieldType × List Char) :=
  let dimensions := (cs.takeWhile (· = '[')).length
  if 255 < dimensions then .error .tooManyDimensions
  else
    match readElement (cs.dropWhile (· = '[')) with
    | .error e => .error e
    | .ok (t, rest) => .ok (nest dimensions t, rest)

theorem length_dropWhile_le (p : α → Bool) (l : List α) : (l.dropWhile p).length ≤ l.length := by
  induction l with
  | nil => simp
  | cons a l ih =>
    rw [List.dropWhile_cons]
    split
    · exact Nat.le_succ_of_le ih
    · exact Nat.le_refl _

theorem length_lt_of_readElement {cs rest : List Char} {t : FieldType}
    (h : readElement cs = .ok (t, rest)) : rest.length < cs.length := by
  cases cs with
  | nil => simp [readElement] at h
  | cons c tail =>
    have bound := length_dropWhile_le (fun d => decide (d ≠ ';')) tail
    simp only [readElement] at h
    by_cases hc : c = 'L'
    · simp only [hc, ↓reduceIte] at h
      split at h
      · simp at h
      · rename_i after dropped
        rw [dropped, List.length_cons] at bound
        split at h
        · simp at h
        · simp only [Except.ok.injEq, Prod.mk.injEq] at h
          rw [← h.2, List.length_cons]
          omega
    · simp only [hc, ↓reduceIte] at h
      split at h
      · simp only [Except.ok.injEq, Prod.mk.injEq] at h
        rw [← h.2, List.length_cons]
        omega
      · simp at h

theorem length_lt_of_read {cs rest : List Char} {t : FieldType}
    (h : read cs = .ok (t, rest)) : rest.length < cs.length := by
  unfold read at h
  dsimp only at h
  split at h
  · simp at h
  · split at h
    · simp at h
    · rename_i element after reading
      simp only [Except.ok.injEq, Prod.mk.injEq] at h
      have used := length_lt_of_readElement reading
      have bound := length_dropWhile_le (fun d => decide (d = '[')) cs
      rw [← h.2]
      omega

def parse (descriptor : String) : Except Malformation FieldType :=
  match read descriptor.toList with
  | .ok (t, []) => .ok t
  | .ok (_, _ :: _) => .error (.descriptor .trailing descriptor)
  | .error e => .error (.descriptor e descriptor)

end FieldType

structure MethodDescriptor where
  parameters : List FieldType
  /-- Nothing is returned by a method without one. -/
  returnType : Option FieldType
  deriving DecidableEq, Repr

namespace MethodDescriptor

def readParameters (cs : List Char) (parameters : List FieldType) :
    Except DescriptorFault (List FieldType × List Char) :=
  match cs with
  | [] => .error .unterminatedParameters
  | ')' :: rest => .ok (parameters.reverse, rest)
  | c :: tail =>
    match _ : FieldType.read (c :: tail) with
    | .error e => .error e
    | .ok (t, rest) => readParameters rest (t :: parameters)
termination_by cs.length
decreasing_by exact FieldType.length_lt_of_read (by assumption)

def read : List Char → Except DescriptorFault MethodDescriptor
  | '(' :: rest =>
    match readParameters rest [] with
    | .error e => .error e
    | .ok (parameters, ['V']) => .ok ⟨parameters, none⟩
    | .ok (parameters, rest) =>
      match FieldType.read rest with
      | .error e => .error e
      | .ok (t, []) => .ok ⟨parameters, some t⟩
      | .ok (_, _ :: _) => .error .trailing
  | _ => .error .noParameterList

def parse (descriptor : String) : Except Malformation MethodDescriptor :=
  match read descriptor.toList with
  | .ok d => .ok d
  | .error e => .error (.descriptor e descriptor)

/-- Slots that the arguments take, as a number of two bytes. -/
def parameterSlots (d : MethodDescriptor) : Except Error UInt16 :=
  d.parameters.foldlM
    (fun slots t => counted UInt16.ofNat UInt16.size (slots.toNat + t.kind.slots)) 0

def returnKind (d : MethodDescriptor) : Option ValueKind :=
  d.returnType.map FieldType.kind

end MethodDescriptor
end ClassHooks
