/-! Cutting a text at a separator. `splitAt c` keeps empty pieces, so that a text always has
one piece more than it has separators; `afterLast c` is the piece behind the last one. -/

namespace ClassDiagram.Text

def splitChars (c : Char) : List Char → List (List Char)
  | [] => [[]]
  | x :: xs =>
    if x = c then [] :: splitChars c xs
    else match splitChars c xs with
      | [] => [[x]]
      | piece :: rest => (x :: piece) :: rest

theorem splitChars_ne_nil (c : Char) (cs : List Char) : splitChars c cs ≠ [] := by
  cases cs with
  | nil => simp [splitChars]
  | cons x xs =>
    unfold splitChars
    split
    · simp
    · split <;> simp

theorem intercalate_splitChars (c : Char) (cs : List Char) :
    List.intercalate [c] (splitChars c cs) = cs := by
  induction cs with
  | nil => simp [splitChars, List.intercalate]
  | cons x xs ih =>
    unfold splitChars
    by_cases h : x = c
    · rw [if_pos h]
      cases hs : splitChars c xs with
      | nil => exact absurd hs (splitChars_ne_nil c xs)
      | cons piece rest =>
        rw [hs] at ih
        simp only [List.intercalate, List.intersperse, List.flatten_cons, List.nil_append] at ih ⊢
        rw [ih, h]
        rfl
    · rw [if_neg h]
      cases hs : splitChars c xs with
      | nil => exact absurd hs (splitChars_ne_nil c xs)
      | cons piece rest =>
        rw [hs] at ih
        cases rest with
        | nil => simpa [List.intercalate] using ih
        | cons piece' rest => simpa [List.intercalate, List.intersperse] using ih

def split (c : Char) (s : String) : List String :=
  (splitChars c s.toList).map String.ofList

theorem length_split_pos (c : Char) (s : String) : 0 < (split c s).length := by
  rw [split, List.length_map]
  exact List.length_pos_iff.mpr (splitChars_ne_nil c s.toList)

theorem splitChars_eq_splitOn (c : Char) (cs : List Char) : splitChars c cs = cs.splitOn c := by
  induction cs with
  | nil => rfl
  | cons x xs ih =>
    rw [splitChars, List.splitOn_cons_eq_if_modifyHead, ← ih]
    by_cases h : x = c
    · simp [h]
    · cases hs : splitChars c xs with
      | nil => exact absurd hs (splitChars_ne_nil c xs)
      | cons piece rest => simp [h]

theorem notMem_of_mem_split {c : Char} {s piece : String} (mem : piece ∈ split c s) :
    c ∉ piece.toList := by
  have whole : ∀ cs, ∀ chars ∈ splitChars c cs, c ∉ chars := by
    intro cs
    induction cs with
    | nil => simp [splitChars]
    | cons x xs ih =>
      unfold splitChars
      by_cases h : x = c
      · simpa [h] using ih
      · cases hs : splitChars c xs with
        | nil => exact absurd hs (splitChars_ne_nil c xs)
        | cons first rest =>
          rw [hs] at ih
          simpa [h, Ne.symm h] using ih
  obtain ⟨chars, found, rfl⟩ := List.mem_map.mp mem
  simpa using whole s.toList chars found

theorem split_append (c : Char) (s t : String) :
    split c (s ++ String.singleton c ++ t) = split c s ++ split c t := by
  simp [split, splitChars_eq_splitOn, List.splitOn_append_cons_self]

theorem split_of_notMem {c : Char} {s : String} (absent : c ∉ s.toList) : split c s = [s] := by
  simp [split, splitChars_eq_splitOn, List.splitOn_eq_singleton absent]

theorem intercalate_split (c : Char) (s : String) :
    (String.singleton c).intercalate (split c s) = s := by
  rw [← String.toList_inj, String.toList_intercalate, split, List.map_map]
  simpa [Function.comp_def] using intercalate_splitChars c s.toList

theorem split_intercalate {c : Char} {pieces : List String} (some : pieces ≠ [])
    (whole : ∀ s ∈ pieces, c ∉ s.toList) :
    split c ((String.singleton c).intercalate pieces) = pieces := by
  have chars : ∀ cs ∈ pieces.map String.toList, c ∉ cs := by simpa using whole
  rw [split, String.toList_intercalate, splitChars_eq_splitOn, String.toList_singleton,
    List.splitOn_intercalate c chars (by simpa using some), List.map_map]
  simp [Function.comp_def]

/-- The characters behind the last `c`, or all of them when there is none. -/
def afterLast (c : Char) (cs : List Char) : List Char :=
  (cs.reverse.takeWhile (· ≠ c)).reverse

end ClassDiagram.Text
