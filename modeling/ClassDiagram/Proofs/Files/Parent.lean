import ClassDiagram.Proofs.Files.Descent

/-! The folder of a path. It has the steps of the path less the last one, so a walk that comes to
the end of the path comes through its folder. -/

namespace ClassDiagram

namespace Path

def isStep (segment : String) : Bool := !isIdle segment

theorem steps_eq_filter (p : Path) : p.steps = p.segments.filter isStep := rfl

/-- Segments, last first, without the idle ones at the end; a `.` that opens a relative path is
kept. -/
def trim (isAbsolute : Bool) (reversed : List String) : List String :=
  match isAbsolute, reversed.reverse with
  | false, "." :: inner => (inner.reverse.dropWhile isIdle) ++ ["."]
  | _, _ => reversed.dropWhile isIdle

theorem trailing_eq (p : Path) : p.trailing = trim p.isAbsolute p.segments.reverse := by
  unfold trailing trim
  rw [List.reverse_reverse]
  generalize p.isAbsolute = absolute, p.segments = segments
  cases absolute with
  | true => rfl
  | false =>
    cases segments with
    | nil => rfl
    | cons first rest => by_cases dot : first = "." <;> simp [dot]

theorem parent?_eq (p : Path) :
    p.parent? = match p.trailing with
      | [] => none
      | _ :: rest => some (ofTrailing p.isAbsolute (trim p.isAbsolute rest)) := rfl

section Trim

variable (absolute : Bool) (reversed : List String)

theorem filter_dropWhile_idle :
    (reversed.dropWhile isIdle).filter isStep = reversed.filter isStep := by
  conv_rhs => rw [← List.takeWhile_append_dropWhile (p := isIdle) (l := reversed)]
  have idle : (reversed.takeWhile isIdle).filter isStep = [] := by
    rw [List.filter_eq_nil_iff]
    intro segment mem
    simpa [isStep] using List.all_eq_true.mp List.all_takeWhile segment mem
  rw [List.filter_append, idle, List.nil_append]

theorem filter_trim : (trim absolute reversed).filter isStep = reversed.filter isStep := by
  unfold trim
  split
  · next inner opening =>
    have all : reversed = inner.reverse ++ ["."] := by
      rw [← List.reverse_reverse reversed, opening, List.reverse_cons]
    rw [all, List.filter_append, List.filter_append, filter_dropWhile_idle]
  · exact filter_dropWhile_idle reversed

theorem trim_suffix_or : (∃ dropped, reversed = dropped ++ trim absolute reversed) ∨
    ∃ front, trim absolute reversed = front ++ ["."] ∧ reversed.getLast? = some "." ∧
      front ⊆ reversed := by
  unfold trim
  split
  · next inner opening =>
    have all : reversed = inner.reverse ++ ["."] := by
      rw [← List.reverse_reverse reversed, opening, List.reverse_cons]
    refine .inr ⟨_, rfl, by simp [all], ?_⟩
    rw [all]
    exact List.subset_append_of_subset_left _ (List.dropWhile_sublist isIdle).subset
  · exact .inl ⟨_, List.takeWhile_append_dropWhile.symm⟩

theorem trim_subset : trim absolute reversed ⊆ reversed := by
  rcases trim_suffix_or absolute reversed with ⟨dropped, all⟩ | ⟨front, all, last, inside⟩
  · intro segment mem
    rw [all]
    exact List.mem_append_right _ mem
  · rw [all]
    exact List.append_subset.mpr ⟨inside, by simpa using List.mem_of_getLast? last⟩

theorem getLast?_trim : ∀ segment ∈ (trim absolute reversed).getLast?,
    reversed.getLast? = some segment := by
  intro segment mem
  rcases trim_suffix_or absolute reversed with ⟨dropped, all⟩ | ⟨front, all, last, inside⟩
  · rw [all, List.getLast?_append]
    simp [Option.mem_def.mp mem]
  · rw [last, ← Option.mem_def.mp mem, all]
    simp

theorem head_dropWhile_idle {last : String} {rest : List String}
    (parts : reversed.dropWhile isIdle = last :: rest) : isStep last = true := by
  have head := List.head?_dropWhile_not isIdle reversed
  rw [parts] at head
  simpa [isStep] using head

theorem head_trim {last : String} {rest : List String}
    (parts : trim absolute reversed = last :: rest) : isStep last = true ∨ rest = [] := by
  unfold trim at parts
  split at parts
  · next inner _ =>
    cases front : inner.reverse.dropWhile isIdle with
    | nil => rw [front] at parts; cases parts; exact .inr rfl
    | cons first more =>
      rw [front] at parts
      cases parts
      exact .inl (head_dropWhile_idle _ front)
  · exact .inl (head_dropWhile_idle _ parts)

end Trim

theorem steps_trailing (p : Path) : (p.trailing.filter isStep).reverse = p.steps := by
  rw [trailing_eq, filter_trim, List.filter_reverse, List.reverse_reverse, steps_eq_filter]

theorem steps_ofTrailing (isAbsolute : Bool) {reversed : List String}
    (whole : ∀ segment ∈ reversed, '/' ∉ segment.toList) :
    (ofTrailing isAbsolute reversed).steps = (reversed.filter isStep).reverse := by
  have body : (Path.mk ("/".intercalate reversed.reverse)).steps =
      (reversed.filter isStep).reverse := by
    rw [steps_eq, ← List.filter_reverse]
    by_cases none : reversed = []
    · rw [none]
      decide
    · exact congrArg (List.filter isStep) (Text.split_intercalate (c := '/') (by simpa using none)
        (by simpa using whole))
  unfold ofTrailing
  split
  · have opening := steps_slash "" ("/".intercalate reversed.reverse)
    rw [steps_empty, List.nil_append, body, String.empty_append] at opening
    exact opening
  · exact body

/-- A path is absolute when its text opens with a slash, and so when the first of several segments
is empty. -/
theorem isAbsolute_intercalate {segment : String} (some : segment ≠ "")
    (whole : '/' ∉ segment.toList) (rest : List String) :
    (Path.mk ("/".intercalate (segment :: rest))).isAbsolute = false := by
  rw [← Bool.not_eq_true, isAbsolute_iff]
  intro first
  have opens : segment.toList.head? = Option.some '/' := by
    cases rest with
    | nil => simpa using first
    | cons next rest =>
      rw [String.intercalate_cons_cons, String.append_assoc, String.toList_append,
        List.head?_append_of_ne_nil] at first
      · exact first
      · exact fun none => some (String.toList_inj.mp none)
  exact whole (List.mem_of_head? opens)

theorem isAbsolute_ofTrailing (isAbsolute : Bool) {reversed : List String}
    (whole : ∀ segment ∈ reversed, '/' ∉ segment.toList)
    (opening : isAbsolute = false → ∀ segment ∈ reversed.getLast?, segment ≠ "") :
    (ofTrailing isAbsolute reversed).isAbsolute = isAbsolute := by
  unfold ofTrailing
  cases isAbsolute with
  | true => exact isAbsolute_iff.mpr (by simp)
  | false =>
    rcases List.eq_nil_or_concat reversed with rfl | ⟨rest, first, rfl⟩
    · decide
    · rw [List.concat_eq_append, List.reverse_append] at *
      exact isAbsolute_intercalate (opening rfl first (by simp)) (whole first (by simp)) _

theorem head_segments {p : Path} (relative : p.isAbsolute = false) (some : p.text ≠ "") :
    ∀ segment ∈ p.segments.head?, segment ≠ "" := by
  rintro _ first rfl
  rw [segments, relative] at first
  obtain ⟨rest, pieces⟩ := List.head?_eq_some_iff.mp first
  have text := Text.intercalate_split '/' p.text
  rw [if_neg (by simp)] at pieces
  rw [pieces] at text
  cases rest with
  | nil => exact some (by rw [← text]; rfl)
  | cons next rest =>
    have absolute : p.isAbsolute = true := by
      rw [isAbsolute_iff, ← text, String.intercalate_cons_cons]
      simp
    simp [absolute] at relative

theorem trailing_empty : (Path.mk "").trailing = [] := by decide

theorem steps_parent? {p q : Path} (parent : p.parent? = some q) :
    q.isAbsolute = p.isAbsolute ∧ q.steps = p.steps.dropLast := by
  rw [parent?_eq] at parent
  have all := p.steps_trailing
  cases trailing : p.trailing with
  | nil => rw [trailing] at parent; cases parent
  | cons last rest =>
    rw [trailing] at parent all
    cases parent
    rw [trailing_eq] at trailing
    have inside : rest ⊆ p.segments.reverse := fun segment mem =>
      trim_subset _ _ (trailing ▸ List.mem_cons_of_mem last mem)
    have whole : ∀ segment ∈ trim p.isAbsolute rest, '/' ∉ segment.toList := fun segment mem =>
      slash_notMem_segments (List.mem_reverse.mp (inside (trim_subset _ _ mem)))
    refine ⟨isAbsolute_ofTrailing _ whole fun relative segment mem => ?_, ?_⟩
    · have first : (last :: rest).getLast? = some segment := by
        rw [List.getLast?_cons, getLast?_trim _ _ segment mem]
        rfl
      have head := getLast?_trim _ p.segments.reverse segment (trailing ▸ first)
      rw [List.getLast?_reverse] at head
      refine head_segments relative (fun empty => ?_) segment head
      have none : p.trailing = [] := by
        rw [show p = ⟨""⟩ from congrArg Path.mk empty, trailing_empty]
      rw [← trailing_eq, none] at trailing
      cases trailing
    · rw [steps_ofTrailing _ whole, filter_trim, ← all]
      rcases head_trim _ _ trailing with step | rfl
      · rw [List.filter_cons_of_pos step, List.reverse_cons, List.dropLast_concat]
      · cases step : isStep last <;> simp [step]

theorem folder_of_steps {p : Path} (some : p.steps ≠ []) :
    p.folder.isAbsolute = p.isAbsolute ∧ p.folder.steps = p.steps.dropLast := by
  cases parent : p.parent? with
  | none =>
    have none : p.trailing = [] := by
      rw [parent?_eq] at parent
      cases trailing : p.trailing with
      | nil => rfl
      | cons last rest => rw [trailing] at parent; cases parent
    rw [← steps_trailing, none] at some
    exact absurd rfl some
  | some q =>
    rw [folder, parent, Option.getD_some]
    exact steps_parent? parent

end Path

end ClassDiagram
