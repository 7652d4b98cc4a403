import ClassHooks.Build.Destination
import ClassHooks.Proofs.Bytes.Reading
import ClassHooks.Proofs.Files.Parsing

/-!
The names that the output layout gives. Each destination stands two names below the root: a
directory for its format, and a name of plain characters, which holds a hyphen. What stands before
the last hyphen and the digits behind it can be read off the name, so destinations are the same only
if both are.
-/
namespace ClassHooks

open ClassHooks.Path (named)

theorem Digest.length_ofBytes (message : Bytes) : (Digest.ofBytes message).length = 20 := by
  simp [Digest.ofBytes]

namespace Text

theorem length_hexLower (width n : Nat) : (hexLower width n).toList.length = width := by
  induction width generalizing n with
  | zero => rfl
  | succ width ih =>
    rw [hexLower, String.toList_append, List.length_append, ih, String.toList_singleton,
      List.length_singleton]

theorem digitChar_injective : ∀ m < 16, ∀ n < 16, Nat.digitChar m = Nat.digitChar n → m = n := by
  decide

theorem hexLower_injective {width m n : Nat} (small : m < 16 ^ width) (small' : n < 16 ^ width)
    (same : hexLower width m = hexLower width n) : m = n := by
  induction width generalizing m n with
  | zero =>
    rw [Nat.pow_zero] at small small'
    omega
  | succ width ih =>
    rw [Nat.pow_succ] at small small'
    have chars := congrArg String.toList same
    simp only [hexLower, String.toList_append, String.toList_singleton] at chars
    obtain ⟨high, low⟩ := List.append_inj' chars rfl
    have upper := ih (by omega) (by omega) (String.toList_inj.mp high)
    have lower := digitChar_injective _ (Nat.mod_lt m (by decide)) _ (Nat.mod_lt n (by decide))
      (List.head_eq_of_cons_eq low)
    omega

end Text

namespace OutputLayout

def Plain (c : Char) : Prop := c.isAlphanum = true ∨ c = '-' ∨ c = '_' ∨ c = '.'

instance (c : Char) : Decidable (Plain c) := inferInstanceAs (Decidable (_ ∨ _))

theorem plain_plainChar (c : Char) : Plain (plainChar c) := by
  unfold plainChar
  split
  · rename_i kept
    unfold Plain
    simp only [Bool.or_eq_true, decide_eq_true_eq] at kept
    tauto
  · exact .inr (.inr (.inl rfl))

theorem plain_displayName (identity : String) : ∀ c ∈ (displayName identity).toList, Plain c := by
  intro c inside
  unfold displayName at inside
  rw [String.toList_map] at inside
  obtain ⟨d, _, rfl⟩ := List.mem_map.mp inside
  exact plain_plainChar d

theorem plain_digitChar : ∀ n < 16, Plain (Nat.digitChar n) := by decide

theorem plain_hexLower (width n : Nat) : ∀ c ∈ (Text.hexLower width n).toList, Plain c := by
  induction width generalizing n with
  | zero => exact fun _ inside => absurd inside (by simp [Text.hexLower])
  | succ width ih =>
    intro c inside
    rw [Text.hexLower, String.toList_append, List.mem_append] at inside
    rcases inside with high | low
    · exact ih _ c high
    · rw [String.toList_singleton, List.mem_singleton] at low
      rw [low]
      exact plain_digitChar _ (Nat.mod_lt n (by decide))

theorem plain_shortDigest (identity : String) : ∀ c ∈ (shortDigest identity).toList, Plain c := by
  intro c inside
  unfold shortDigest at inside
  rw [String.toList_join] at inside
  obtain ⟨digits, among, here⟩ := List.mem_flatMap.mp inside
  obtain ⟨b, _, rfl⟩ := List.mem_map.mp among
  exact plain_hexLower 2 _ c here

def digest (identity : String) : Bytes := Digest.ofBytes identity.toUTF8.toList

def digits (b : UInt8) : List Char := (Text.hexLower 2 b.toNat).toList

theorem length_digits (b : UInt8) : (digits b).length = 2 := Text.length_hexLower 2 _

theorem digits_injective {b c : UInt8} (same : digits b = digits c) : b = c :=
  UInt8.toNat_inj.mp
    (Text.hexLower_injective b.toNat_lt c.toNat_lt (String.toList_inj.mp same))

theorem flatMap_digits_injective {xs ys : Bytes} (same : xs.flatMap digits = ys.flatMap digits) :
    xs = ys := by
  induction xs generalizing ys with
  | nil =>
    cases ys with
    | nil => rfl
    | cons y ys =>
      have two := length_digits y
      rw [(List.append_eq_nil_iff.mp same.symm).1] at two
      cases two
  | cons x xs ih =>
    cases ys with
    | nil =>
      have two := length_digits x
      rw [(List.append_eq_nil_iff.mp same).1] at two
      cases two
    | cons y ys =>
      rw [List.flatMap_cons, List.flatMap_cons] at same
      obtain ⟨first, rest⟩ :=
        List.append_inj same ((length_digits x).trans (length_digits y).symm)
      rw [digits_injective first, ih rest]

theorem shortDigest_toList (identity : String) :
    (shortDigest identity).toList = ((digest identity).take 4).flatMap digits := by
  rw [shortDigest, String.toList_join, List.flatMap_map]
  rfl

theorem length_shortDigest (identity : String) : (shortDigest identity).toList.length = 8 := by
  have whole : (digest identity).length = 20 := Digest.length_ofBytes _
  rw [shortDigest_toList, List.length_flatMap]
  simp [length_digits, whole]

theorem shortDigest_eq_iff {one two : String} :
    shortDigest one = shortDigest two ↔ (digest one).take 4 = (digest two).take 4 := by
  rw [← String.toList_inj, shortDigest_toList, shortDigest_toList]
  exact ⟨flatMap_digits_injective, fun same => by rw [same]⟩

/-- What tells an identity apart. -/
def component (identity : String) : String := displayName identity ++ "-" ++ shortDigest identity

theorem plain_component (identity : String) : ∀ c ∈ (component identity).toList, Plain c := by
  intro c inside
  unfold component at inside
  rw [String.toList_append, String.toList_append, List.mem_append, List.mem_append] at inside
  rcases inside with (name | hyphen) | digest
  · exact plain_displayName identity c name
  · have same : c = '-' := by simpa using hyphen
    exact .inr (.inl same)
  · exact plain_shortDigest identity c digest

theorem component_eq_iff {one two : String} : component one = component two ↔
    displayName one = displayName two ∧ shortDigest one = shortDigest two := by
  constructor
  · intro same
    have chars := congrArg String.toList same
    simp only [component, String.toList_append] at chars
    obtain ⟨name, short⟩ :=
      List.append_inj' chars ((length_shortDigest one).trans (length_shortDigest two).symm)
    exact ⟨String.toList_inj.mp (List.append_cancel_right name), String.toList_inj.mp short⟩
  · rintro ⟨name, short⟩
    rw [component, name, short, component]

def fileName (identity : String) : Format → String
  | .archive => component identity ++ ".jar"
  | .directory => component identity

def folder : Format → String
  | .archive => "archives"
  | .directory => "directories"

def ending : Format → String
  | .archive => ".jar"
  | .directory => ""

theorem fileName_eq (identity : String) (format : Format) :
    fileName identity format = component identity ++ ending format := by
  cases format <;> simp [fileName, ending]

def names (identity : String) (format : Format) : List String :=
  [folder format, fileName identity format]

theorem names_eq_iff {one two : String} {format format' : Format} :
    names one format = names two format' ↔ format = format' ∧ component one = component two := by
  constructor
  · intro same
    obtain ⟨folders, files⟩ := List.cons.inj same
    have formats : format = format' := by
      cases format <;> cases format' <;> first | rfl | simp [folder] at folders
    subst formats
    have file := (List.cons.inj files).1
    rw [fileName_eq, fileName_eq, String.append_left_inj] at file
    exact ⟨rfl, file⟩
  · rintro ⟨rfl, same⟩
    rw [names, names, fileName_eq, fileName_eq, same]

theorem plain_fileName (identity : String) (format : Format) :
    ∀ c ∈ (fileName identity format).toList, Plain c := by
  cases format with
  | directory => exact plain_component identity
  | archive =>
    intro c inside
    unfold fileName at inside
    rw [String.toList_append, List.mem_append] at inside
    rcases inside with stem | ending
    · exact plain_component identity c stem
    · have letters : c ∈ ['.', 'j', 'a', 'r'] := ending
      simp only [List.mem_cons, List.not_mem_nil, or_false] at letters
      rcases letters with rfl | rfl | rfl | rfl
      · exact .inr (.inr (.inr rfl))
      all_goals exact .inl rfl

theorem hyphen_mem_fileName (identity : String) (format : Format) :
    '-' ∈ (fileName identity format).toList := by
  cases format <;> simp [fileName, component]

theorem isName_fileName (identity : String) (format : Format) :
    Path.isName (fileName identity format) = true := by
  have hyphen := hyphen_mem_fileName identity format
  rw [Path.isName_iff]
  refine ⟨?_, ?_, ?_⟩ <;> (intro same; rw [same] at hyphen; simp at hyphen)

theorem parse_fileName (identity : String) (format : Format) :
    Path.parse (fileName identity format) = ⟨false, [fileName identity format]⟩ := by
  have full := (Path.isName_iff.mp (isName_fileName identity format)).1
  refine Path.parse_of_plain full fun slash => ?_
  rcases plain_fileName identity format _ slash with letter | same | same | same
  · cases letter
  all_goals cases same

theorem components_fileName (identity : String) (format : Format) :
    (Path.parse (fileName identity format)).components = named [fileName identity format] := by
  rw [parse_fileName]
  refine Path.components_names fun n inside => ?_
  rw [List.mem_singleton.mp inside]
  exact isName_fileName identity format

theorem resolve_ok_iff {l : OutputLayout} {identity : String} {format : Format} {p : Path} :
    l.resolve identity format = .ok p ↔ Text.isBlank identity = false ∧
      p = (l.root.join (.parse (folder format))).join (.parse (fileName identity format)) := by
  unfold resolve
  cases Text.isBlank identity with
  | true => simp
  | false =>
    cases format <;> simp [folder, fileName, component, eq_comm]

theorem components_of_resolve {l : OutputLayout} {identity : String} {format : Format} {p : Path}
    (run : l.resolve identity format = .ok p) :
    p.components = l.root.components ++ named (names identity format) := by
  obtain ⟨_, rfl⟩ := resolve_ok_iff.mp run
  have outer : (Path.parse (folder format)).components = named [folder format] := by
    cases format <;> decide
  rw [Path.components_join (components_fileName identity format), Path.components_join outer,
    List.append_assoc, ← Path.named_append]
  rfl

section Pair
variable {l : OutputLayout} {one two : String} {format format' : Format} {p q : Path}
  (first : l.resolve one format = .ok p) (second : l.resolve two format' = .ok q)
include first second

theorem resolve_eq_iff : p = q ↔ names one format = names two format' := by
  constructor
  · rintro rfl
    have below := components_of_resolve first
    rw [components_of_resolve second, List.append_cancel_left_eq] at below
    exact (Path.named_injective below).symm
  · intro same
    obtain ⟨folders, files⟩ := List.cons.inj same
    rw [(resolve_ok_iff.mp first).2, (resolve_ok_iff.mp second).2, folders,
      (List.cons.inj files).1]

/-- Both stand two names below the root, so neither stands below the other. -/
theorem eq_of_startsWith (inside : q.startsWith p = true) : p = q := by
  have above := Path.startsWith_iff.mp inside
  rw [components_of_resolve first, components_of_resolve second,
    List.prefix_append_right_inj] at above
  exact (resolve_eq_iff first second).mpr (Path.named_injective (above.eq_of_length rfl))

end Pair

/-- Every identity that is not blank has a destination two names below the root: the folder of its
format, and a name of plain characters that is no dot component. Two destinations are the same, or
neither lies in the other; they are the same exactly if the formats, the displayed names and the
first 32 bits of the digests are. -/
theorem destinations_apart (l : OutputLayout) :
    (∀ identity format, Text.isBlank identity = false → ∃ c p, l.resolve identity format = .ok p ∧
      p = (l.root.join (.parse (folder format))).join (.parse (c ++ ending format)) ∧
      p.components = l.root.components ++ named [folder format, c ++ ending format] ∧
      c ≠ "" ∧ c ≠ "." ∧ c ≠ ".." ∧ ∀ x ∈ c.toList, Plain x) ∧
    (∀ identity, (digest identity).length = 20) ∧
    ∀ one two format format' p q, l.resolve one format = .ok p → l.resolve two format' = .ok q →
      (p = q ∨ (p.startsWith q = false ∧ q.startsWith p = false)) ∧
      (p = q ↔ format = format' ∧ displayName one = displayName two ∧
        (digest one).take 4 = (digest two).take 4) := by
  refine ⟨fun identity format full => ?_, fun identity => Digest.length_ofBytes _, ?_⟩
  · obtain ⟨p, resolved⟩ : ∃ p, l.resolve identity format = .ok p :=
      ⟨_, resolve_ok_iff.mpr ⟨full, rfl⟩⟩
    have joined := (resolve_ok_iff.mp resolved).2
    have below := components_of_resolve resolved
    rw [fileName_eq] at joined
    rw [names, fileName_eq] at below
    obtain ⟨some, here, up⟩ := Path.isName_iff.mp (isName_fileName identity .directory)
    exact ⟨_, p, resolved, joined, below, some, here, up, plain_component identity⟩
  · intro one two format format' p q first second
    have alike : p = q ↔ format = format' ∧ displayName one = displayName two ∧
        (digest one).take 4 = (digest two).take 4 := by
      rw [← shortDigest_eq_iff, ← component_eq_iff, ← names_eq_iff]
      exact resolve_eq_iff first second
    refine ⟨or_iff_not_imp_left.mpr fun other => ⟨?_, ?_⟩, alike⟩
    · exact Bool.eq_false_of_not_eq_true fun inside =>
        other (eq_of_startsWith second first inside).symm
    · exact Bool.eq_false_of_not_eq_true fun inside => other (eq_of_startsWith first second inside)

theorem sameName_apart : ∃ p q,
    Text.isBlank "/a/lib.jar" = false ∧ Text.isBlank "C:\\b\\lib" = false ∧
    (OutputLayout.mk (.parse "out")).resolve "/a/lib.jar" .archive = .ok p ∧
    (OutputLayout.mk (.parse "out")).resolve "C:\\b\\lib" .archive = .ok q ∧
    displayName "/a/lib.jar" = displayName "C:\\b\\lib" ∧ p ≠ q ∧
    p.startsWith q = false ∧ q.startsWith p = false := by
  have full : Text.isBlank "/a/lib.jar" = false := by decide +kernel
  have full' : Text.isBlank "C:\\b\\lib" = false := by decide +kernel
  have display : displayName "/a/lib.jar" = displayName "C:\\b\\lib" := by decide +kernel
  have digests : (digest "/a/lib.jar").take 4 ≠ (digest "C:\\b\\lib").take 4 := by decide +kernel
  obtain ⟨exist, _, apart⟩ := destinations_apart (OutputLayout.mk (.parse "out"))
  obtain ⟨_, p, first, _⟩ := exist _ .archive full
  obtain ⟨_, q, second, _⟩ := exist _ .archive full'
  obtain ⟨outside, alike⟩ := apart _ _ _ _ p q first second
  have other : p ≠ q := fun same => digests (alike.mp same).2.2
  exact ⟨p, q, full, full', first, second, display, other, outside.resolve_left other⟩

end OutputLayout
end ClassHooks
