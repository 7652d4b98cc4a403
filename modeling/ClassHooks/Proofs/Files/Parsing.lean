import ClassHooks.Proofs.Files.Components

/-!
Texts that are read as paths. The segments of a text are what stands between its slashes, so none
holds a slash, and the text ends as its last segment does. Only the empty text has no components.
-/
namespace ClassHooks

open ClassHooks.Path (named)

namespace Path

theorem splitSlashes_plain {cs : List Char} (plain : '/' ∉ cs) (read : List Char) :
    splitSlashes read cs = [String.ofList (read.reverse ++ cs)] := by
  induction cs generalizing read with
  | nil => simp [splitSlashes]
  | cons c cs ih =>
    rw [List.mem_cons, not_or] at plain
    unfold splitSlashes
    rw [if_neg (Ne.symm plain.1), ih plain.2]
    simp

theorem parse_of_plain {text : String} (full : text ≠ "") (plain : '/' ∉ text.toList) :
    parse text = ⟨false, [text]⟩ := by
  have some : text.toList ≠ [] := mt String.toList_eq_nil_iff.mp full
  obtain ⟨c, cs, split⟩ := List.exists_cons_of_ne_nil some
  have first : c ≠ '/' := by
    rintro rfl
    exact plain (by rw [split]; exact List.mem_cons_self ..)
  have segments : segmentsOf text.toList = [text] := by
    rw [split]
    change splitSlashes [] (c :: cs) = _
    rw [← split, splitSlashes_plain plain]
    simp
  unfold parse
  split
  · rename_i rest slash
    rw [split] at slash
    exact absurd (List.cons.inj slash).1 first
  · rw [segments]

theorem splitSlashes_head (read cs : List Char) : ∃ more rest,
    splitSlashes read cs = String.ofList (read.reverse ++ more) :: rest := by
  induction cs generalizing read with
  | nil => exact ⟨[], [], by simp [splitSlashes]⟩
  | cons c cs ih =>
    unfold splitSlashes
    split
    · exact ⟨[], _, by rw [List.append_nil]⟩
    · obtain ⟨more, rest, split⟩ := ih (c :: read)
      exact ⟨c :: more, rest, by simp [split]⟩

theorem plain_of_split {read : List Char} (plain : '/' ∉ read) (cs : List Char) :
    ∀ s ∈ splitSlashes read cs, '/' ∉ s.toList := by
  induction cs generalizing read with
  | nil => simpa [splitSlashes] using plain
  | cons c cs ih =>
    unfold splitSlashes
    split
    · intro s inside
      rcases List.mem_cons.mp inside with rfl | later
      · simpa using plain
      · exact ih List.not_mem_nil s later
    · rename_i other
      apply ih
      simp [plain, Ne.symm other]

theorem plain_of_parse (text : String) : ∀ s ∈ (parse text).segments, '/' ∉ s.toList := by
  have parts : ∀ cs, ∀ s ∈ segmentsOf cs, '/' ∉ s.toList := by
    intro cs
    cases cs with
    | nil => simp [segmentsOf]
    | cons c cs => exact plain_of_split List.not_mem_nil _
  unfold parse
  split <;> exact parts _

theorem plain_of_named {text : String} {cs : List Component} {ns : List String}
    (spelled : (parse text).components = cs ++ named ns) :
    ∀ n ∈ ns, isName n = true ∧ '/' ∉ n.toList := by
  intro n inside
  refine ⟨names_of_components spelled n inside, ?_⟩
  have component : .normal n ∈ (parse text).components := by
    rw [spelled]
    exact List.mem_append_right _ (List.mem_map.mpr ⟨n, inside, rfl⟩)
  have segment : n ∈ significant (parse text).segments := by
    rw [significant_segments]
    exact List.mem_filterMap.mpr ⟨_, component, rfl⟩
  exact plain_of_parse text n (List.mem_of_mem_filter segment)

theorem firstComponent_of_full {s : String} (full : s ≠ "") : firstComponent s ≠ none := by
  by_cases current : s = "."
  · rw [current, firstComponent_current]
    nofun
  · rw [firstComponent_of_ne current]
    rcases FileTree.segment_cases s with blank | rfl | name
    · exact absurd blank (by simp [full, current])
    · rw [innerComponent_up]
      nofun
    · rw [innerComponent_name name]
      nofun

theorem text_of_parse {text : String} (none : (parse text).components = []) :
    (parse text).text = "" := by
  cases spelled : text.toList with
  | nil =>
    have empty : parse text = ⟨false, []⟩ := by
      unfold parse
      rw [spelled]
      rfl
    rw [empty]
    rfl
  | cons c cs =>
    by_cases slash : c = '/'
    · have absolute : (parse text).absolute = true := by
        unfold parse
        rw [spelled, slash]
        rfl
      have root := root_mem_components.mpr absolute
      rw [none] at root
      cases root
    · have relative : parse text = ⟨false, splitSlashes [c] cs⟩ := by
        unfold parse
        rw [spelled]
        split
        · rename_i rest same
          exact absurd (List.cons.inj same).1 slash
        · rw [segmentsOf, splitSlashes, if_neg slash]
          simp
      obtain ⟨more, rest, split⟩ := splitSlashes_head [c] cs
      have full : String.ofList ([c].reverse ++ more) ≠ "" := by
        intro empty
        simpa using congrArg String.toList empty
      obtain ⟨first, component⟩ := Option.ne_none_iff_exists'.mp (firstComponent_of_full full)
      rw [relative, split, components_eq, steps_cons, component] at none
      cases none

theorem last_of_split {read cs : List Char} {s : String}
    (last : (splitSlashes read cs).getLast? = some s) : ∃ front,
      read.reverse ++ cs = front ++ s.toList ∧ (front = [] ∨ ∃ above, front = above ++ ['/']) := by
  induction cs generalizing read with
  | nil =>
    obtain rfl : String.ofList read.reverse = s := by simpa [splitSlashes] using last
    exact ⟨[], by simp, .inl rfl⟩
  | cons c cs ih =>
    unfold splitSlashes at last
    split at last
    · rename_i slash
      have more : splitSlashes [] cs ≠ [] := by
        obtain ⟨_, _, split⟩ := splitSlashes_head [] cs
        rw [split]
        nofun
      rw [List.getLast?_cons_of_ne_nil more] at last
      obtain ⟨front, split, ends⟩ := ih last
      refine ⟨read.reverse ++ ['/'] ++ front, ?_, .inr ?_⟩
      · rw [slash, List.append_assoc, ← split]
        simp
      · rcases ends with rfl | ⟨above, rfl⟩
        · exact ⟨read.reverse, by simp⟩
        · exact ⟨read.reverse ++ ['/'] ++ above, by simp⟩
    · obtain ⟨front, split, ends⟩ := ih last
      exact ⟨front, by simpa using split, ends⟩

theorem last_of_parse {text s : String} (last : (parse text).segments.getLast? = some s) : ∃ front,
    text.toList = front ++ s.toList ∧ (front = [] ∨ ∃ above, front = above ++ ['/']) := by
  have parts : ∀ cs, (segmentsOf cs).getLast? = some s → ∃ front,
      cs = front ++ s.toList ∧ (front = [] ∨ ∃ above, front = above ++ ['/']) := by
    intro cs last
    cases cs with
    | nil => cases last
    | cons c cs => exact last_of_split last
  unfold parse at last
  split at last
  · rename_i rest spelled
    obtain ⟨front, split, ends⟩ := parts rest last
    refine ⟨'/' :: front, by rw [spelled, split, List.cons_append], .inr ?_⟩
    rcases ends with rfl | ⟨above, rfl⟩
    · exact ⟨[], rfl⟩
    · exact ⟨'/' :: above, rfl⟩
  · exact parts _ last

theorem suffix_of_parse {text s : String} (last : (parse text).segments.getLast? = some s)
    {ending : List Char} (plain : '/' ∉ ending) : ending <:+ text.toList ↔ ending <:+ s.toList := by
  obtain ⟨front, split, ends⟩ := last_of_parse last
  rw [split]
  constructor
  · intro whole
    rcases List.suffix_or_suffix_of_suffix whole (List.suffix_append front s.toList) with
      within | ⟨more, longer⟩
    · exact within
    -- The ending reaches before the last segment, where a slash stands.
    rcases List.eq_nil_or_concat' more with rfl | ⟨above, c, rfl⟩
    · rw [← longer]
      exact List.suffix_refl _
    obtain ⟨rest, whole⟩ := whole
    rw [← longer, ← List.append_assoc, List.append_cancel_right_eq, ← List.append_assoc] at whole
    rcases ends with rfl | ⟨upper, rfl⟩
    · simp at whole
    · obtain ⟨_, same⟩ := List.append_inj' whole rfl
      cases same
      exact absurd (longer ▸ by simp) plain
  · intro within
    exact within.trans (List.suffix_append front _)

end Path
end ClassHooks
