import Mathlib.Data.List.TakeWhile
import ClassHooks.Proofs.Success
import ClassHooks.Descriptor.Basic

/-!
The grammar of descriptors, apart from any way of reading them. A type is read from its text and from
nothing else, whatever stands behind it, so that a descriptor can be taken apart in one way only.
-/
namespace ClassHooks
namespace FieldType

def dimensions : FieldType → Nat
  | .array element => element.dimensions + 1
  | _ => 0

def Named : FieldType → Prop
  | .base _ => True
  | .object name => name ≠ "" ∧ ';' ∉ name.toList
  | .array element => element.Named

/-- A type that has a descriptor. -/
structure Proper (t : FieldType) : Prop where
  named : t.Named
  few : t.dimensions ≤ 255

/-- The texts of types that are no arrays. -/
inductive ElementText : List Char → Prop where
  | letter {c : Char} (known : c ∈ ['B', 'C', 'D', 'F', 'I', 'J', 'S', 'Z']) : ElementText [c]
  | named {name : List Char} (some : name ≠ []) (plain : ';' ∉ name) :
      ElementText ('L' :: (name ++ [';']))

/-- The texts of types: at most 255 opening brackets before that of a type that is no array. -/
def TypeText (cs : List Char) : Prop :=
  ∃ n e, n ≤ 255 ∧ ElementText e ∧ cs = List.replicate n '[' ++ e

theorem letter_facts (b : BaseType) : b.letter ∈ ['B', 'C', 'D', 'F', 'I', 'J', 'S', 'Z'] ∧
    b.letter ≠ 'L' ∧ b.letter ≠ '[' ∧ b.letter ≠ ')' ∧ BaseType.ofLetter? b.letter = some b := by
  cases b <;> decide

theorem letter_of_known {c : Char} (known : c ∈ ['B', 'C', 'D', 'F', 'I', 'J', 'S', 'Z']) :
    ∃ b : BaseType, b.letter = c := by
  simp only [List.mem_cons, List.not_mem_nil, or_false] at known
  rcases known with rfl | rfl | rfl | rfl | rfl | rfl | rfl | rfl
  · exact ⟨.byte, rfl⟩
  · exact ⟨.char, rfl⟩
  · exact ⟨.double, rfl⟩
  · exact ⟨.float, rfl⟩
  · exact ⟨.int, rfl⟩
  · exact ⟨.long, rfl⟩
  · exact ⟨.short, rfl⟩
  · exact ⟨.boolean, rfl⟩

theorem letter_of_ofLetter? {c : Char} {b : BaseType} (known : BaseType.ofLetter? c = some b) :
    b.letter = c := by
  unfold BaseType.ofLetter? at known
  split at known <;> cases known <;> rfl

section Texts

theorem base_text (b : BaseType) : (FieldType.base b).text.toList = [b.letter] := by
  simp [text]

theorem object_text (name : String) :
    (FieldType.object name).text.toList = 'L' :: (name.toList ++ [';']) := by
  simp [text]

theorem array_text (t : FieldType) : (FieldType.array t).text.toList = '[' :: t.text.toList := by
  simp [text]

theorem nest_text (n : Nat) (t : FieldType) :
    (nest n t).text.toList = List.replicate n '[' ++ t.text.toList := by
  induction n with
  | zero => rfl
  | succ n ih => rw [nest, array_text, ih, List.replicate_succ, List.cons_append]

theorem nest_dimensions (n : Nat) (t : FieldType) :
    (nest n t).dimensions = n + t.dimensions := by
  induction n with
  | zero => exact (Nat.zero_add _).symm
  | succ n ih =>
    rw [nest, dimensions, ih]
    omega

theorem nest_named (n : Nat) (t : FieldType) : (nest n t).Named ↔ t.Named := by
  induction n with
  | zero => exact Iff.rfl
  | succ n ih => exact ih

theorem exists_element (t : FieldType) : ∃ e, e.dimensions = 0 ∧ t = nest t.dimensions e := by
  induction t with
  | base b => exact ⟨_, rfl, rfl⟩
  | object name => exact ⟨_, rfl, rfl⟩
  | array element ih =>
    obtain ⟨e, flat, same⟩ := ih
    refine ⟨e, flat, ?_⟩
    rw [dimensions, nest, ← same]

theorem text_head (t : FieldType) :
    ∃ c tail, t.text.toList = c :: tail ∧ c ≠ ')' ∧ (t.dimensions = 0 → c ≠ '[') := by
  cases t with
  | base b =>
    obtain ⟨_, _, bracket, closing, _⟩ := letter_facts b
    exact ⟨_, _, base_text b, closing, fun _ => bracket⟩
  | object name => exact ⟨_, _, object_text name, by decide, fun _ => by decide⟩
  | array element => exact ⟨_, _, array_text element, by decide, fun flat => by cases flat⟩

theorem typeText_iff {cs : List Char} :
    TypeText cs ↔ ∃ t : FieldType, t.Proper ∧ t.text.toList = cs := by
  constructor
  · rintro ⟨n, e, few, element, rfl⟩
    cases element with
    | letter known =>
      obtain ⟨b, rfl⟩ := letter_of_known known
      refine ⟨nest n (.base b), ⟨(nest_named n _).mpr trivial, ?_⟩, ?_⟩
      · rw [nest_dimensions]
        exact few
      · rw [nest_text, base_text]
    | @named name some plain =>
      refine ⟨nest n (.object (String.ofList name)), ⟨(nest_named n _).mpr ⟨?_, ?_⟩, ?_⟩, ?_⟩
      · intro none
        apply some
        rw [← String.toList_ofList (l := name), none]
        rfl
      · rw [String.toList_ofList]
        exact plain
      · rw [nest_dimensions]
        exact few
      · rw [nest_text, object_text, String.toList_ofList]
  · rintro ⟨t, proper, rfl⟩
    obtain ⟨e, flat, same⟩ := exists_element t
    have named := proper.named
    rw [same, nest_named] at named
    rw [same, nest_text]
    refine ⟨t.dimensions, e.text.toList, proper.few, ?_, rfl⟩
    cases e with
    | base b =>
      rw [base_text]
      exact .letter (letter_facts b).1
    | object name =>
      rw [object_text]
      refine .named (fun none => named.1 ?_) named.2
      rw [← String.ofList_toList (s := name), none]
    | array element => cases flat

end Texts

section Reading
variable {cs rest : List Char} {t : FieldType}

theorem brackets_split (cs : List Char) :
    cs = List.replicate (cs.takeWhile (· = '[')).length '[' ++ cs.dropWhile (· = '[') := by
  have all : cs.takeWhile (fun c => decide (c = '[')) =
      List.replicate (cs.takeWhile (fun c => decide (c = '['))).length '[' := by
    refine List.eq_replicate_of_mem fun c member => ?_
    simpa using List.mem_takeWhile_imp member
  rw [← all, List.takeWhile_append_dropWhile]

theorem name_split {c : Char} (dropped : cs.dropWhile (· ≠ ';') = c :: rest) :
    cs = cs.takeWhile (· ≠ ';') ++ ';' :: rest := by
  have whole := List.takeWhile_append_dropWhile (p := fun d => decide (d ≠ ';')) (l := cs)
  have last : c = ';' := by
    have ends := List.head?_dropWhile_not (fun d => decide (d ≠ ';')) cs
    rw [dropped] at ends
    simpa using ends
  rw [dropped, last] at whole
  exact whole.symm

theorem name_taken {name : List Char} (plain : ';' ∉ name) (rest : List Char) :
    (name ++ ';' :: rest).takeWhile (· ≠ ';') = name ∧
      (name ++ ';' :: rest).dropWhile (· ≠ ';') = ';' :: rest := by
  have others : ∀ d ∈ name, decide (d ≠ ';') = true := by
    intro d member
    rw [decide_eq_true_iff]
    rintro rfl
    exact plain member
  constructor
  · rw [List.takeWhile_append_of_pos others]
    simp
  · rw [List.dropWhile_append_of_pos others]
    simp

theorem readElement_object_iff : readElement ('L' :: cs) = .ok (t, rest) ↔
    ∃ name, name ≠ [] ∧ ';' ∉ name ∧ t = .object (String.ofList name) ∧
      cs = name ++ ';' :: rest := by
  constructor
  · intro run
    unfold readElement at run
    dsimp only at run
    rw [if_pos rfl] at run
    cases dropped : cs.dropWhile fun d => decide (d ≠ ';') with
    | nil =>
      rw [dropped] at run
      cases run
    | cons d after =>
      have plain : ';' ∉ cs.takeWhile fun d => decide (d ≠ ';') := by
        intro member
        simpa using List.mem_takeWhile_imp member
      have whole := name_split dropped
      rw [dropped] at run
      cases taken : cs.takeWhile fun d => decide (d ≠ ';') with
      | nil =>
        rw [taken] at run
        cases run
      | cons first name =>
        rw [taken] at run whole plain
        cases run
        exact ⟨first :: name, by simp, plain, rfl, whole⟩
  · rintro ⟨name, filled, plain, rfl, rfl⟩
    obtain ⟨taken, dropped⟩ := name_taken plain rest
    unfold readElement
    dsimp only
    rw [if_pos rfl, taken, dropped]
    cases name with
    | nil => exact absurd rfl filled
    | cons first name => rfl

theorem readElement_base_iff {c : Char} (plain : c ≠ 'L') :
    readElement (c :: cs) = .ok (t, rest) ↔ ∃ b, BaseType.letter b = c ∧ t = .base b ∧ cs = rest := by
  unfold readElement
  dsimp only
  rw [if_neg plain]
  constructor
  · intro run
    cases known : BaseType.ofLetter? c with
    | none =>
      rw [known] at run
      cases run
    | some b =>
      rw [known] at run
      cases run
      exact ⟨b, letter_of_ofLetter? known, rfl, rfl⟩
  · rintro ⟨b, rfl, rfl, rfl⟩
    obtain ⟨_, _, _, _, known⟩ := letter_facts b
    rw [known]

theorem readElement_ok_iff : readElement cs = .ok (t, rest) ↔
    t.dimensions = 0 ∧ t.Named ∧ cs = t.text.toList ++ rest := by
  constructor
  · intro run
    cases cs with
    | nil => cases run
    | cons c tail =>
      by_cases object : c = 'L'
      · subst object
        obtain ⟨name, filled, plain, rfl, rfl⟩ := readElement_object_iff.mp run
        refine ⟨rfl, ⟨?_, by rwa [String.toList_ofList]⟩, ?_⟩
        · exact fun none => filled (by simpa using none)
        · rw [object_text, String.toList_ofList]
          simp
      · obtain ⟨b, rfl, rfl, rfl⟩ := (readElement_base_iff object).mp run
        exact ⟨rfl, trivial, by rw [base_text, List.singleton_append]⟩
  · rintro ⟨flat, named, rfl⟩
    cases t with
    | base b =>
      rw [base_text, List.singleton_append]
      exact (readElement_base_iff (letter_facts b).2.1).mpr ⟨b, rfl, rfl, rfl⟩
    | object name =>
      rw [object_text, List.cons_append, List.append_assoc, List.singleton_append]
      refine readElement_object_iff.mpr ⟨name.toList, ?_, named.2, ?_, rfl⟩
      · exact fun none => named.1 (by simpa using none)
      · rw [String.ofList_toList]
    | array element => cases flat

/-- A type is read exactly where its text stands. -/
theorem read_ok_iff : read cs = .ok (t, rest) ↔ t.Proper ∧ cs = t.text.toList ++ rest := by
  constructor
  · intro run
    unfold read at run
    dsimp only at run
    split at run
    · cases run
    rename_i few
    cases element : readElement (cs.dropWhile fun c => decide (c = '[')) with
    | error fault =>
      rw [element] at run
      cases run
    | ok answer =>
      obtain ⟨e, behind⟩ := answer
      rw [element] at run
      cases run
      obtain ⟨flat, named, split⟩ := readElement_ok_iff.mp element
      refine ⟨⟨(nest_named _ _).mpr named, ?_⟩, ?_⟩
      · rw [nest_dimensions, flat]
        omega
      · rw [nest_text, List.append_assoc, ← split, ← brackets_split]
  · rintro ⟨proper, rfl⟩
    obtain ⟨e, flat, same⟩ := exists_element t
    have named := proper.named
    rw [same, nest_named] at named
    obtain ⟨c, tail, head, _, bracket⟩ := text_head e
    have opening : ∀ d ∈ List.replicate t.dimensions '[', decide (d = '[') = true := by
      intro d member
      rw [decide_eq_true_iff]
      exact List.eq_of_mem_replicate member
    have here : t.text.toList ++ rest =
        List.replicate t.dimensions '[' ++ (e.text.toList ++ rest) := by
      rw [← List.append_assoc, ← nest_text, ← same]
    have taken : (t.text.toList ++ rest).takeWhile (fun d => decide (d = '[')) =
        List.replicate t.dimensions '[' := by
      rw [here, List.takeWhile_append_of_pos opening, head, List.cons_append,
        List.takeWhile_cons_of_neg (by simpa using bracket flat), List.append_nil]
    have dropped : (t.text.toList ++ rest).dropWhile (fun d => decide (d = '[')) =
        e.text.toList ++ rest := by
      rw [here, List.dropWhile_append_of_pos opening, head, List.cons_append,
        List.dropWhile_cons_of_neg (by simpa using bracket flat)]
    have element : readElement (e.text.toList ++ rest) = .ok (e, rest) :=
      readElement_ok_iff.mpr ⟨flat, named, rfl⟩
    unfold read
    dsimp only
    rw [taken, dropped, List.length_replicate, if_neg (Nat.not_lt.mpr proper.few), element]
    dsimp only
    rw [← same]

theorem parse_ok_iff {s : String} {t : FieldType} : parse s = .ok t ↔ t.Proper ∧ t.text = s := by
  have read : parse s = .ok t ↔ FieldType.read s.toList = .ok (t, []) := by
    unfold parse
    split
    · rename_i whole
      rw [whole]
      simp
    · rename_i whole
      rw [whole]
      simp
    · rename_i whole
      rw [whole]
      simp
  rw [read, read_ok_iff, List.append_nil, String.toList_inj]
  exact and_congr_right fun _ => eq_comm

end Reading
end FieldType

namespace MethodDescriptor

structure Proper (d : MethodDescriptor) : Prop where
  parameters : ∀ t ∈ d.parameters, t.Proper
  result : ∀ t, d.returnType = some t → t.Proper

def resultText : Option FieldType → String
  | none => "V"
  | some t => t.text

def text (d : MethodDescriptor) : String :=
  "(" ++ String.join (d.parameters.map FieldType.text) ++ ")" ++ resultText d.returnType

theorem toList_text (d : MethodDescriptor) : d.text.toList =
    '(' :: ((d.parameters.map fun t => t.text.toList).flatten ++
      ')' :: (resultText d.returnType).toList) := by
  simp [text, List.flatMap_def, Function.comp_def]

section Reading
variable {cs rest : List Char}

theorem readParameters_cons {c : Char} (others : c ≠ ')') (parameters : List FieldType) :
    readParameters (c :: cs) parameters =
      match FieldType.read (c :: cs) with
      | .error e => .error e
      | .ok (t, rest) => readParameters rest (t :: parameters) := by
  rw [readParameters]
  · split <;> rename_i read <;> rw [read]
  · exact others

theorem readParameters_ok_iff {before parameters : List FieldType} :
    readParameters cs before = .ok (parameters, rest) ↔
      ∃ ts, parameters = before.reverse ++ ts ∧ (∀ t ∈ ts, t.Proper) ∧
        cs = (ts.map fun t => t.text.toList).flatten ++ ')' :: rest := by
  constructor
  · intro run
    induction cs, before using readParameters.induct with
    | case1 before =>
      rw [readParameters] at run
      cases run
    | case2 before after =>
      rw [readParameters] at run
      cases run
      exact ⟨[], (List.append_nil _).symm, by simp, rfl⟩
    | case3 before c tail others fault read =>
      rw [readParameters_cons others, read] at run
      cases run
    | case4 before c tail others t after read ih =>
      rw [readParameters_cons others, read] at run
      obtain ⟨ts, whole, proper, split⟩ := ih run
      obtain ⟨first, here⟩ := FieldType.read_ok_iff.mp read
      refine ⟨t :: ts, by simpa using whole, List.forall_mem_cons.mpr ⟨first, proper⟩, ?_⟩
      rw [here, split, List.map_cons, List.flatten_cons, List.append_assoc]
  · rintro ⟨ts, rfl, proper, rfl⟩
    induction ts generalizing before with
    | nil =>
      rw [List.append_nil, List.map_nil, List.flatten_nil, List.nil_append, readParameters]
    | cons t ts ih =>
      obtain ⟨first, others⟩ := List.forall_mem_cons.mp proper
      obtain ⟨c, tail, head, plain, _⟩ := FieldType.text_head t
      have read : FieldType.read (t.text.toList ++
          ((ts.map fun t => t.text.toList).flatten ++ ')' :: rest)) = .ok (t, _) :=
        FieldType.read_ok_iff.mpr ⟨first, rfl⟩
      rw [List.map_cons, List.flatten_cons, List.append_assoc]
      rw [head, List.cons_append] at read ⊢
      rw [readParameters_cons plain, read]
      simpa using @ih (t :: before) others

theorem not_typeText_void : ¬ FieldType.TypeText ['V'] := by
  rintro ⟨n, e, _, element, same⟩
  cases n with
  | zero =>
    cases element with
    | letter known =>
      cases same
      simp at known
    | named some plain => cases same
  | succ n => cases same

def readResult (cs : List Char) : Except DescriptorFault (Option FieldType) :=
  if cs = ['V'] then .ok none
  else
    match FieldType.read cs with
    | .error e => .error e
    | .ok (t, []) => .ok (some t)
    | .ok (_, _ :: _) => .error .trailing

theorem read_opened (cs : List Char) : read ('(' :: cs) =
    match readParameters cs [] with
    | .error e => .error e
    | .ok (parameters, rest) => (readResult rest).map (MethodDescriptor.mk parameters) := by
  rw [read]
  cases readParameters cs [] with
  | error fault => rfl
  | ok answer =>
    obtain ⟨parameters, rest⟩ := answer
    by_cases void : rest = ['V']
    · subst void
      rfl
    · dsimp only
      unfold readResult
      rw [if_neg void]
      split
      · rename_i same
        cases same
      · rename_i same
        cases same
        exact absurd rfl void
      · rename_i same
        cases same
        cases FieldType.read rest with
        | error fault => rfl
        | ok found =>
          obtain ⟨t, behind⟩ := found
          cases behind <;> rfl

theorem readResult_ok_iff {returnType : Option FieldType} : readResult cs = .ok returnType ↔
    (∀ t, returnType = some t → t.Proper) ∧ cs = (resultText returnType).toList := by
  unfold readResult
  constructor
  · intro run
    split at run
    · rename_i void
      cases run
      exact ⟨nofun, void⟩
    · split at run
      · cases run
      · rename_i t read
        cases run
        obtain ⟨proper, here⟩ := FieldType.read_ok_iff.mp read
        rw [List.append_nil] at here
        exact ⟨fun _ same => Option.some.inj same ▸ proper, here⟩
      · cases run
  · rintro ⟨proper, rfl⟩
    cases returnType with
    | none => rfl
    | some t =>
      have type : FieldType.TypeText t.text.toList :=
        FieldType.typeText_iff.mpr ⟨t, proper t rfl, rfl⟩
      have read := FieldType.read_ok_iff.mpr ⟨proper t rfl, (List.append_nil _).symm⟩
      have plain : t.text.toList ≠ ['V'] := fun same => not_typeText_void (same ▸ type)
      rw [resultText, if_neg plain, read]

theorem read_ok_iff {d : MethodDescriptor} : read cs = .ok d ↔ d.Proper ∧ cs = d.text.toList := by
  rw [toList_text]
  constructor
  · intro run
    cases cs with
    | nil => cases run
    | cons c tail =>
      by_cases opened : c = '('
      · rw [opened, read_opened] at run
        cases parameters : readParameters tail [] with
        | error fault =>
          rw [parameters] at run
          cases run
        | ok answer =>
          obtain ⟨before, after⟩ := answer
          rw [parameters] at run
          obtain ⟨ts, same, proper, split⟩ := readParameters_ok_iff.mp parameters
          rw [List.reverse_nil, List.nil_append] at same
          obtain ⟨returnType, result, rfl⟩ := map_ok_iff.mp run
          obtain ⟨properResult, last⟩ := readResult_ok_iff.mp result
          rw [opened, split, last, same]
          exact ⟨⟨proper, properResult⟩, rfl⟩
      · unfold read at run
        split at run
        · rename_i same
          cases same
          exact absurd rfl opened
        · cases run
  · rintro ⟨proper, rfl⟩
    have parameters : readParameters ((d.parameters.map fun t => t.text.toList).flatten ++
        ')' :: (resultText d.returnType).toList) [] = .ok (d.parameters, _) :=
      readParameters_ok_iff.mpr ⟨d.parameters, rfl, proper.parameters, rfl⟩
    have result := readResult_ok_iff.mpr ⟨proper.result, rfl⟩
    rw [read_opened, parameters]
    dsimp only
    rw [result]
    rfl

theorem parse_ok_iff {s : String} {d : MethodDescriptor} :
    parse s = .ok d ↔ d.Proper ∧ d.text = s := by
  have read : parse s = .ok d ↔ MethodDescriptor.read s.toList = .ok d := by
    unfold parse
    split <;> rename_i whole <;> rw [whole] <;> simp
  rw [read, read_ok_iff, String.toList_inj]
  exact and_congr_right fun _ => eq_comm

/-- The types of a descriptor are what the texts are read as, one by one. -/
structure Spelled (d : MethodDescriptor) (parameters : List (List Char)) (result : List Char) :
    Prop where
  types : List.Forall₂ (fun t f => FieldType.parse (String.ofList f) = .ok t) d.parameters parameters
  last : d.returnType = none ∧ result = ['V'] ∨
    ∃ t, d.returnType = some t ∧ FieldType.parse (String.ofList result) = .ok t

end Reading
end MethodDescriptor
end ClassHooks
