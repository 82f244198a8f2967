import ClassDiagram.Toml.Layout
import ClassDiagram.Toml.Tree

/-! Dotted keys, as they stand in headers and before values. -/

namespace ClassDiagram.Toml

def isBareKeyChar (c : Char) : Bool := c.isAlphanum || c == '-' || c == '_'

def simpleKey? (cs : List Char) : Option (Lexeme × List Char) :=
  match quotedKey? cs with
  | some result => some result
  | none =>
    let bare := cs.takeWhile isBareKeyChar
    if bare = [] then none
    else some (⟨String.ofList bare, bare⟩, cs.dropWhile isBareKeyChar)

structure Segment where
  before : List Char
  key : Lexeme
  after : List Char

def segment? (cs : List Char) : Option (Segment × List Char) :=
  let (before, cs) := blanks cs
  match simpleKey? cs with
  | none => none
  | some (key, cs) =>
    let (after, rest) := blanks cs
    some (⟨before, key, after⟩, rest)

theorem simpleKey?_lt {cs rest : List Char} {key : Lexeme}
    (read : simpleKey? cs = some (key, rest)) : rest.length < cs.length := by
  unfold simpleKey? at read
  split at read
  · next found => exact quotedKey?_lt (read ▸ found)
  · simp only at read
    split at read
    · cases read
    · next nonempty =>
      cases read
      have total := congrArg List.length
        (List.takeWhile_append_dropWhile (p := isBareKeyChar) (l := cs))
      rw [List.length_append] at total
      have := List.length_pos_iff.mpr nonempty
      omega

theorem segment?_eq_some {cs rest : List Char} {segment : Segment}
    (read : segment? cs = some (segment, rest)) : ∃ key behind,
      simpleKey? (blanks cs).2 = some (key, behind) ∧ rest = (blanks behind).2 ∧
        segment = ⟨(blanks cs).1, key, (blanks behind).1⟩ := by
  unfold segment? at read
  simp only at read
  split at read
  · cases read
  · next found =>
    cases read
    exact ⟨_, _, found, rfl, rfl⟩

theorem segment?_lt {cs rest : List Char} {segment : Segment}
    (read : segment? cs = some (segment, rest)) : rest.length < cs.length := by
  obtain ⟨key, behind, found, rfl, rfl⟩ := segment?_eq_some read
  have := simpleKey?_lt found
  have := blanks_le cs
  have := blanks_le behind
  omega

def segments? (cs : List Char) : Option (List Segment × List Char) :=
  match read : segment? cs with
  | none => none
  | some (segment, '.' :: rest) =>
    have : rest.length < cs.length := by
      have := segment?_lt read
      simp only [List.length_cons] at this
      omega
    (segments? rest).map fun (segments, rest) => (segment :: segments, rest)
  | some (segment, rest) => some ([segment], rest)
termination_by cs.length

theorem segments?_lt {cs rest : List Char} {segments : List Segment}
    (read : segments? cs = some (segments, rest)) : rest.length < cs.length := by
  fun_induction segments? cs generalizing segments rest with
  | case1 => cases read
  | case2 cs segment inner found shorter ih =>
    obtain ⟨⟨more, end_⟩, found', same⟩ := Option.map_eq_some_iff.mp read
    cases same
    exact Nat.lt_trans (ih found') shorter
  | case3 cs segment inner _ found =>
    cases read
    exact segment?_lt found

def Segment.toKey (segment : Segment) : Key :=
  ⟨segment.key.content, some (String.ofList segment.key.spelling), .none,
    .around (String.ofList segment.before) (String.ofList segment.after)⟩

/-- The keys of a dotted key, the last one apart. The blanks around the whole belong to it. -/
def keysOf : List Segment → Option (List Key × Key)
  | [] => none
  | first :: rest =>
    let last := (first :: rest).getLast (List.cons_ne_nil _ _)
    let outer := .around (String.ofList first.before) (String.ofList last.after)
    let inner := .around (String.ofList last.before) ""
    some ((first :: rest).dropLast.map Segment.toKey,
      { last.toKey with leaf := outer, dotted := inner })

/-- The number of levels to which values may be nested, and of keys in a dotted key. -/
def levels : Nat := 79

def keyPath? (cs : List Char) : Option ((List Key × Key) × List Char) :=
  match segments? cs with
  | none => none
  | some (segments, rest) =>
    if segments.length ≤ levels then (keysOf segments).map fun keys => (keys, rest) else none

theorem keyPath?_eq_some {cs rest : List Char} {keys : List Key × Key}
    (read : keyPath? cs = some (keys, rest)) :
    ∃ segments, segments? cs = some (segments, rest) ∧ keysOf segments = some keys := by
  unfold keyPath? at read
  split at read
  · cases read
  · next segments _ found =>
    split at read
    · obtain ⟨_, divided, same⟩ := Option.map_eq_some_iff.mp read
      cases same
      exact ⟨segments, found, divided⟩
    · cases read

theorem keyPath?_lt {cs rest : List Char} {keys : List Key × Key}
    (read : keyPath? cs = some (keys, rest)) : rest.length < cs.length := by
  obtain ⟨_, found, _⟩ := keyPath?_eq_some read
  exact segments?_lt found

end ClassDiagram.Toml
