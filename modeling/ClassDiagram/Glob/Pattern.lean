/-! File name patterns. In a pattern a question mark stands for any character, a star for any
text, and brackets for one character out of a class. Two stars alone between slashes stand for
folders in each other, any number of them. -/

namespace ClassDiagram.Glob

inductive CharRange where
  | single (c : Char)
  | between (first last : Char)
  deriving DecidableEq

namespace CharRange

def contains (c : Char) : CharRange → Bool
  | single d => c == d
  | between first last => first ≤ c && c ≤ last

end CharRange

inductive Token where
  | char (c : Char)
  | anyChar
  | anyText
  | within (ranges : List CharRange)
  | except (ranges : List CharRange)
  deriving DecidableEq

inductive Part where
  | folders
  | name (tokens : List Token)
  deriving DecidableEq

def rangesOf : List Char → List CharRange
  | a :: '-' :: b :: rest => .between a b :: rangesOf rest
  | a :: rest => .single a :: rangesOf rest
  | [] => []

/-- A class after its opening bracket, and the text after it. A closing bracket that comes first
is a member of the class. -/
def readClass : List Char → Option (Token × List Char)
  | '!' :: c :: rest =>
    (close? rest).map fun (inside, rest) => (.except (rangesOf (c :: inside)), rest)
  | c :: rest =>
    if c = '!' then none
    else (close? rest).map fun (inside, rest) => (.within (rangesOf (c :: inside)), rest)
  | [] => none
where
  close? (cs : List Char) : Option (List Char × List Char) :=
    match cs.dropWhile (· ≠ ']') with
    | [] => none
    | _ :: rest => some (cs.takeWhile (· ≠ ']'), rest)

theorem readClass_lt {cs rest : List Char} {token : Token}
    (read : readClass cs = some (token, rest)) : rest.length < cs.length := by
  have closed : ∀ {cs inside rest : List Char}, readClass.close? cs = some (inside, rest) →
      rest.length < cs.length := by
    intro cs inside rest closed
    unfold readClass.close? at closed
    have := (List.dropWhile_sublist (· ≠ ']') (l := cs)).length_le
    split at closed
    · cases closed
    · next found =>
      cases closed
      rw [found, List.length_cons] at this
      omega
  unfold readClass at read
  split at read
  · obtain ⟨⟨_, _⟩, found, same⟩ := Option.map_eq_some_iff.mp read
    cases same
    have := closed found
    simp only [List.length_cons]
    omega
  · split at read
    · cases read
    · obtain ⟨⟨_, _⟩, found, same⟩ := Option.map_eq_some_iff.mp read
      cases same
      have := closed found
      simp only [List.length_cons]
      omega
  · cases read

/-- The tokens of a name. Two stars may not stand beside anything else. -/
def tokens? (cs : List Char) : Option (List Token) :=
  match cs with
  | [] => some []
  | '?' :: rest => (tokens? rest).map (.anyChar :: ·)
  | '*' :: '*' :: _ => none
  | '*' :: rest => (tokens? rest).map (.anyText :: ·)
  | '[' :: rest =>
    match read : readClass rest with
    | none => none
    | some (token, rest) =>
      have := readClass_lt read
      (tokens? rest).map (token :: ·)
  | c :: rest => (tokens? rest).map (.char c :: ·)
termination_by cs.length
decreasing_by all_goals (simp only [List.length_cons]; omega)

def part? (cs : List Char) : Option Part :=
  if cs = ['*', '*'] then some .folders else (tokens? cs).map .name

def isPattern (text : String) : Bool := text.toList.any fun c => c == '*' || c == '?' || c == '['

end ClassDiagram.Glob
