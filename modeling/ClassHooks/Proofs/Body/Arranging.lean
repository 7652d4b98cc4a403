import ClassHooks.Proofs.Body.Encoding
import ClassHooks.Proofs.Body.Labelled
import ClassHooks.Proofs.Pool.Codec

/-!
Reading the tables of a code attribute that was put together from them. Every table is found under its
own name, and what stands behind the tables is kept.
-/
namespace ClassHooks

namespace Attribute
variable {pool : Pool} {a : Attribute}

theorem lineEntries_other (other : a.hasName pool lineNumberTable = false) :
    a.lineEntries pool = [] := by
  rw [lineEntries, other]
  rfl

theorem variableEntries_other {table : String} (other : a.hasName pool table = false) :
    a.variableEntries pool table = [] := by
  rw [variableEntries, other]
  rfl

theorem frameEntries_other (other : a.hasName pool stackMapTable = false) :
    a.frameEntries pool = none := by
  rw [frameEntries, other]
  rfl

theorem knows_of_named {name : String} (named : ¬ a.hasName pool name = false) :
    pool.knows name = true :=
  Pool.knows_of_holdsText (Bool.not_eq_false _ ▸ named)

theorem named_of_holds {name : String} {parse : Bytes → Except Error (List α)} {entries : List α}
    {as : List Attribute} (holds : Holds pool name parse entries as) :
    ∀ a ∈ as, a.hasName pool name = true := by
  cases holds with
  | nothing => exact nofun
  | table _ named _ => exact fun a member => List.mem_singleton.mp member ▸ named

theorem named_of_holdsFrames {frames : Option (List (Frame UInt16))} {as : List Attribute}
    (holds : HoldsFrames pool frames as) : ∀ a ∈ as, a.hasName pool stackMapTable = true := by
  cases holds with
  | nothing => exact nofun
  | table named _ => exact fun a member => List.mem_singleton.mp member ▸ named

theorem parsed_of_holds {name : String} {parse : Bytes → Except Error (List α)} {entries : List α}
    {as : List Attribute} (holds : Holds pool name parse entries as) :
    ∀ a ∈ as, parse a.payload = .ok entries := by
  cases holds with
  | nothing => exact nofun
  | table _ _ parsed => exact fun a member => List.mem_singleton.mp member ▸ parsed

theorem parsed_of_holdsFrames {frames : Option (List (Frame UInt16))} {as : List Attribute}
    (holds : HoldsFrames pool frames as) :
    ∀ a ∈ as, Frame.parseTable a.payload = .ok (frames.getD []) := by
  cases holds with
  | nothing => exact nofun
  | table _ parsed => exact fun a member => List.mem_singleton.mp member ▸ parsed

theorem length_of_holdsFrames {frames : Option (List (Frame UInt16))} {as : List Attribute}
    (holds : HoldsFrames pool frames as) : as.length ≤ 1 := by
  cases holds <;> simp

theorem lineEntries_of_holds {entries : List LineEntry} {as : List Attribute}
    (holds : Holds pool lineNumberTable LineEntry.parseTable entries as) :
    as.flatMap (lineEntries pool) = entries := by
  cases holds with
  | nothing => rfl
  | table _ named parsed => simp [lineEntries, named, parsed, Except.toOption]

theorem variableEntries_of_holds {table : String} {entries : List VariableEntry}
    {as : List Attribute} (holds : Holds pool table VariableEntry.parseTable entries as) :
    as.flatMap (variableEntries pool table) = entries := by
  cases holds with
  | nothing => rfl
  | table _ named parsed => simp [variableEntries, named, parsed, Except.toOption]

theorem frameEntries_of_holds {frames : Option (List (Frame UInt16))} {as : List Attribute}
    (holds : HoldsFrames pool frames as) : (as.filterMap (frameEntries pool)).head? = frames := by
  cases holds with
  | nothing => rfl
  | table named parsed => simp [frameEntries, named, parsed, Except.toOption]

def tableTexts : List String :=
  [stackMapTable, lineNumberTable, localVariableTable, localVariableTypeTable]

theorem isTable_eq_any : a.isTable pool = tableTexts.any (a.hasName pool) := by
  simp [isTable, tableTexts, Bool.or_assoc]

theorem filter_parts {parts : List (String × List Attribute)}
    (named : ∀ p ∈ parts, ∀ a ∈ p.2, a.hasName pool p.1 = true)
    (distinct : (parts.map fun p => Text.ModifiedUtf8.encode p.1).Nodup)
    {p : String × List Attribute} (member : p ∈ parts) :
    (parts.flatMap (·.2)).filter (·.hasName pool p.1) = p.2 := by
  induction parts with
  | nil => cases member
  | cons q parts ih =>
    rw [List.map_cons, List.nodup_cons] at distinct
    obtain ⟨here, later⟩ := List.forall_mem_cons.mp named
    rw [List.flatMap_cons, List.filter_append]
    rcases List.mem_cons.mp member with rfl | inside
    · have rest : (parts.flatMap (·.2)).filter (·.hasName pool p.1) = [] := by
        rw [List.filter_eq_nil_iff]
        intro a found one
        obtain ⟨q, inside, found⟩ := List.mem_flatMap.mp found
        exact distinct.1 (eq_of_hasName one (later q inside a found) ▸ List.mem_map_of_mem inside)
      rw [rest, List.append_nil, List.filter_eq_self.mpr here]
    · have first : q.2.filter (·.hasName pool p.1) = [] := by
        rw [List.filter_eq_nil_iff]
        intro a found one
        exact distinct.1 (eq_of_hasName one (here a found) ▸ List.mem_map_of_mem inside)
      rw [first, List.nil_append]
      exact ih later distinct.2 inside

theorem flatMap_filter_named {name : String} {F : Attribute → List α}
    (off : ∀ a : Attribute, a.hasName pool name = false → F a = []) (as : List Attribute) :
    (as.filter (·.hasName pool name)).flatMap F = as.flatMap F := by
  induction as with
  | nil => rfl
  | cons a as ih =>
    rw [List.flatMap_cons, ← ih, List.filter_cons]
    cases named : a.hasName pool name with
    | false =>
      rw [off a named]
      rfl
    | true => rfl

structure Arranged (pool : Pool) (parts : List (String × List Attribute))
    (others all : List Attribute) : Prop where
  split : all = parts.flatMap (·.2) ++ others
  known : ∀ p ∈ parts, p.1 ∈ tableTexts
  named : ∀ p ∈ parts, ∀ a ∈ p.2, a.hasName pool p.1 = true
  distinct : (parts.map fun p => Text.ModifiedUtf8.encode p.1).Nodup
  others : ∀ a ∈ others, a.isTable pool = false

namespace Arranged
variable {parts : List (String × List Attribute)} {others all : List Attribute}
  (arranged : Arranged pool parts others all)
include arranged

theorem filter_eq {p : String × List Attribute} (member : p ∈ parts) :
    all.filter (·.hasName pool p.1) = p.2 := by
  have none : others.filter (·.hasName pool p.1) = [] := by
    rw [List.filter_eq_nil_iff]
    intro a inside
    have apart := arranged.others a inside
    rw [isTable_eq_any, List.any_eq_false] at apart
    exact apart p.1 (arranged.known p member)
  rw [arranged.split, List.filter_append, none, List.append_nil,
    filter_parts arranged.named arranged.distinct member]

theorem mem_part {p : String × List Attribute} (member : p ∈ parts) {a : Attribute}
    (inside : a ∈ all) (named : a.hasName pool p.1 = true) : a ∈ p.2 := by
  rw [← arranged.filter_eq member]
  exact List.mem_filter.mpr ⟨inside, named⟩

theorem gather {F : Attribute → List α} {p : String × List Attribute} (member : p ∈ parts)
    (off : ∀ a, a.hasName pool p.1 = false → F a = []) : all.flatMap F = p.2.flatMap F := by
  rw [← arranged.filter_eq member, flatMap_filter_named off]

theorem others_eq : all.filter (fun a => !a.isTable pool) = others := by
  have tables : (parts.flatMap (·.2)).filter (fun a => !a.isTable pool) = [] := by
    rw [List.filter_eq_nil_iff]
    intro a found
    obtain ⟨p, inside, found⟩ := List.mem_flatMap.mp found
    rw [isTable_eq_any, List.any_eq_true.mpr ⟨p.1, arranged.known p inside,
      arranged.named p inside a found⟩]
    exact Bool.false_ne_true
  have rest : others.filter (fun a => !a.isTable pool) = others :=
    List.filter_eq_self.mpr fun a member => by rw [arranged.others a member]; rfl
  rw [arranged.split, List.filter_append, tables, rest, List.nil_append]

end Arranged

theorem arranged_of_holds {lines : List LineEntry} {locals types : List VariableEntry}
    {frames : Option (List (Frame UInt16))} {L V T S others all : List Attribute}
    (listed : all = L ++ (V ++ (T ++ (S ++ others))))
    (first : Holds pool lineNumberTable LineEntry.parseTable lines L)
    (second : Holds pool localVariableTable VariableEntry.parseTable locals V)
    (third : Holds pool localVariableTypeTable VariableEntry.parseTable types T)
    (fourth : HoldsFrames pool frames S) (apart : ∀ a ∈ others, a.isTable pool = false) :
    Arranged pool [(lineNumberTable, L), (localVariableTable, V), (localVariableTypeTable, T),
      (stackMapTable, S)] others all := by
  have distinct : ([lineNumberTable, localVariableTable, localVariableTypeTable,
      stackMapTable].map Text.ModifiedUtf8.encode).Nodup := by
    obtain ⟨⟨lines', locals', types'⟩, ⟨locals, types⟩, both⟩ := BodyPart.tables_apart
    simp [locals, types, lines'.symm, both, locals'.symm, types'.symm]
  refine ⟨by simp [listed], by simp [tableTexts], ?_, distinct, apart⟩
  simp only [List.forall_mem_cons]
  exact ⟨named_of_holds first, named_of_holds second, named_of_holds third,
    named_of_holdsFrames fourth, List.forall_mem_nil _⟩

theorem Arranged.frameEntries_eq {parts : List (String × List Attribute)}
    {others all : List Attribute} (arranged : Arranged pool parts others all) {S : List Attribute}
    (member : (stackMapTable, S) ∈ parts) {frames : Option (List (Frame UInt16))}
    (holds : HoldsFrames pool frames S) : (all.filterMap (frameEntries pool)).head? = frames := by
  have whole := arranged.gather member (F := fun a => (a.frameEntries pool).toList)
    fun a other => by rw [frameEntries_other other]; rfl
  rw [← List.filterMap_eq_flatMap_toList, ← List.filterMap_eq_flatMap_toList] at whole
  rw [whole, frameEntries_of_holds holds]

theorem Arranged.single {parts : List (String × List Attribute)}
    {others all : List Attribute} (arranged : Arranged pool parts others all) {S : List Attribute}
    (member : (stackMapTable, S) ∈ parts) {frames : Option (List (Frame UInt16))}
    (holds : HoldsFrames pool frames S) : all.countP (·.hasName pool stackMapTable) ≤ 1 := by
  rw [List.countP_eq_length_filter, arranged.filter_eq member]
  exact length_of_holdsFrames holds

end Attribute

theorem CodeAttribute.others_apart {pool : Pool} {c : CodeAttribute} :
    ∀ a ∈ c.otherAttributes pool, a.isTable pool = false := by
  intro a member
  simpa using (List.mem_filter.mp member).2

end ClassHooks
