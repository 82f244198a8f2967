import ClassDiagram.Proofs.Toml.Layout

/-! Strings and words, read again where they are written. A lexeme ends where it ends, whatever
comes next, as long as that does not go on with it: a word with more letters, a string with more
marks. -/

namespace ClassDiagram.Toml

/-! ### Strings -/

section

variable {mark : Char} {escapes : Bool} {reversed cs inside rest : List Char}

theorem scanLine_cons (mark : Char) (escapes : Bool) (reversed : List Char) (c : Char)
    {cs : List Char} (more : cs ≠ []) :
    scanLine mark escapes reversed (c :: cs) =
      if c = mark then some (reversed.reverse, cs)
      else if escapes && c = '\\' then scanLine mark escapes (cs.head more :: c :: reversed) cs.tail
      else scanLine mark escapes (c :: reversed) cs := by
  cases cs with
  | nil => exact absurd rfl more
  | cons d cs => rfl

theorem scanLine_ends (scanned : scanLine mark escapes reversed cs = some (inside, rest)) :
    ∃ body, inside = reversed.reverse ++ body ∧
      ∀ rest', scanLine mark escapes reversed (body ++ mark :: rest') = some (inside, rest') := by
  fun_induction scanLine mark escapes reversed cs with
  | case1 => cases scanned
  | case2 reversed =>
    cases scanned
    refine ⟨[], by simp, fun rest' => ?_⟩
    cases rest' <;> simp [scanLine]
  | case3 => cases scanned
  | case4 reversed d rest =>
    cases scanned
    refine ⟨[], by simp, fun rest' => ?_⟩
    cases rest' <;> simp [scanLine]
  | case5 reversed c d rest other escaped ih =>
    obtain ⟨body, rfl, again⟩ := ih scanned
    refine ⟨c :: d :: body, by simp, fun rest' => ?_⟩
    rw [← again rest', List.cons_append, scanLine_cons _ _ _ _ (by simp), if_neg other,
      if_pos escaped]
    rfl
  | case6 reversed c d rest other plain ih =>
    obtain ⟨body, rfl, again⟩ := ih scanned
    refine ⟨c :: body, by simp, fun rest' => ?_⟩
    rw [← again rest', List.cons_append, scanLine_cons _ _ _ _ (by simp), if_neg other,
      if_neg plain]

theorem scanLines_cons (mark : Char) (escapes : Bool) (reversed : List Char) (c d e : Char)
    (cs : List Char) :
    scanLines mark escapes reversed (c :: d :: e :: cs) =
      if c = mark && d = mark && e = mark then
        let more := (cs.take 2).takeWhile (· = mark)
        some (reversed.reverse ++ more, cs.drop more.length)
      else if escapes && c = '\\' then scanLines mark escapes (d :: c :: reversed) (e :: cs)
      else scanLines mark escapes (c :: reversed) (d :: e :: cs) := by
  rw [scanLines]

/-- Up to two marks before the closing ones are taken, and as many again when these are followed by
something else. -/
theorem take_marks {more rest : List Char} (marks : ∀ c ∈ more, c = mark) (few : more.length ≤ 2)
    (apart : ∀ c ∈ rest.head?, c ≠ mark) :
    ((more ++ rest).take 2).takeWhile (· = mark) = more := by
  rw [List.take_append, List.take_of_length_le few, List.takeWhile_append_of_pos (by simpa using marks)]
  cases rest with
  | nil => simp
  | cons c rest =>
    have other : c ≠ mark := apart c rfl
    cases 2 - more.length <;> simp [other]

theorem marks_comm {more : List Char} (marks : ∀ c ∈ more, c = mark) :
    [mark, mark, mark] ++ more = more ++ [mark, mark, mark] := by
  rw [List.eq_replicate_of_mem marks, show [mark, mark, mark] = List.replicate 3 mark from rfl,
    List.replicate_append_replicate, List.replicate_append_replicate, Nat.add_comm]

theorem scanLines_ends (scanned : scanLines mark escapes reversed cs = some (inside, rest)) :
    ∃ body, inside = reversed.reverse ++ body ∧ cs = body ++ [mark, mark, mark] ++ rest ∧
      ∀ rest', (∀ c ∈ rest'.head?, c ≠ mark) →
        scanLines mark escapes reversed (body ++ [mark, mark, mark] ++ rest') =
          some (inside, rest') := by
  fun_induction scanLines mark escapes reversed cs with
  | case1 reversed c d e rest closing more =>
    cases scanned
    have marks : ∀ c ∈ more, c = mark := by
      simpa using List.all_eq_true.mp (List.all_takeWhile (p := (· = mark)) (l := rest.take 2))
    have few : more.length ≤ 2 :=
      Nat.le_trans (List.takeWhile_sublist _).length_le (List.length_take_le 2 rest)
    obtain ⟨rfl, rfl, rfl⟩ : c = mark ∧ d = mark ∧ e = mark := by simpa [and_assoc] using closing
    have front : more <+: rest := (List.takeWhile_prefix _).trans (List.take_prefix 2 rest)
    have split : rest = more ++ rest.drop more.length := (List.prefix_iff_eq_append.mp front).symm
    -- Marks are all the same, so those that are taken may as well stand before the closing ones.
    refine ⟨more, rfl, by rw [← marks_comm marks, List.append_assoc, ← split]; rfl,
      fun rest' apart => ?_⟩
    have taken := take_marks marks few apart
    rw [← marks_comm marks]
    simp [scanLines_cons, taken]
  | case2 reversed c d e rest other escaped ih =>
    obtain ⟨body, rfl, split, again⟩ := ih scanned
    refine ⟨c :: d :: body, by simp, by simp [split], fun rest' apart => ?_⟩
    have later := again rest' apart
    obtain ⟨first, behind, same⟩ : ∃ first behind, body ++ [mark, mark, mark] = first :: behind := by
      cases body <;> simp
    rw [same] at split later
    obtain rfl : e = first := by simpa using congrArg List.head? split
    simp only [List.cons_append, same]
    rw [scanLines_cons, if_neg other, if_pos escaped]
    exact later
  | case3 reversed c d e rest other plain ih =>
    obtain ⟨body, rfl, split, again⟩ := ih scanned
    refine ⟨c :: body, by simp, by simp [split], fun rest' apart => ?_⟩
    have later := again rest' apart
    obtain ⟨first, second, behind, same⟩ : ∃ first second behind,
        body ++ [mark, mark, mark] = first :: second :: behind := by
      cases body with
      | nil => simp
      | cons x xs => cases xs <;> simp
    rw [same] at split later
    obtain ⟨rfl, rfl, _⟩ : d = first ∧ e = second ∧ rest = behind ++ _ := by simpa using split
    simp only [List.cons_append, same]
    rw [scanLines_cons, if_neg other, if_neg plain]
    exact later
  | case4 => cases scanned

end

def isQuote (c : Char) : Bool := c == '"' || c == '\''

theorem quotedLine_again {mark : Char} {cs rest : List Char} {lexeme : Lexeme}
    (read : quotedLine mark cs = some (lexeme, rest)) :
    ∃ inside, lexeme.spelling = mark :: inside ++ [mark] ∧
      ∀ rest', quotedLine mark (inside ++ mark :: rest') = some (lexeme, rest') := by
  unfold quotedLine at read
  split at read
  · cases read
  · next inside rest scanned =>
    obtain ⟨content, told, same⟩ := Option.map_eq_some_iff.mp read
    cases same
    obtain ⟨body, rfl, again⟩ := scanLine_ends scanned
    refine ⟨inside, rfl, fun rest' => ?_⟩
    rw [quotedLine, again]
    simpa using told

theorem quotedLines_again {mark : Char} {cs rest : List Char} {lexeme : Lexeme}
    (read : quotedLines mark cs = some (lexeme, rest)) :
    ∃ inside, lexeme.spelling = [mark, mark, mark] ++ inside ++ [mark, mark, mark] ∧
      ∀ rest', (∀ c ∈ rest'.head?, c ≠ mark) →
        quotedLines mark (inside ++ [mark, mark, mark] ++ rest') = some (lexeme, rest') := by
  unfold quotedLines at read
  split at read
  · cases read
  · next inside rest scanned =>
    obtain ⟨content, told, same⟩ := Option.map_eq_some_iff.mp read
    cases same
    obtain ⟨body, rfl, _, again⟩ := scanLines_ends scanned
    refine ⟨inside, rfl, fun rest' apart => ?_⟩
    rw [quotedLines, again rest' apart]
    simpa using told

theorem quotedKey?_again {cs rest : List Char} {lexeme : Lexeme}
    (read : quotedKey? cs = some (lexeme, rest)) :
    ∃ mark inside, isQuote mark = true ∧ lexeme.spelling = mark :: inside ++ [mark] ∧
      ∀ rest', quotedLine mark (inside ++ mark :: rest') = some (lexeme, rest') := by
  unfold quotedKey? at read
  split at read
  · next mark rest =>
    split at read
    · next isMark =>
      obtain ⟨inside, spelling, again⟩ := quotedLine_again read
      exact ⟨mark, inside, by simpa [isQuote] using isMark, spelling, again⟩
    · cases read
  · cases read

theorem spelling_of_quotedLine_mark {mark : Char} {cs rest : List Char} {lexeme : Lexeme}
    (read : quotedLine mark (mark :: cs) = some (lexeme, rest)) :
    lexeme.spelling = [mark, mark] := by
  have ends : scanLine mark (hasEscapes mark) [] (mark :: cs) = some ([], cs) := by
    cases cs <;> simp [scanLine]
  rw [quotedLine, ends] at read
  obtain ⟨content, _, same⟩ := Option.map_eq_some_iff.mp read
  cases same
  rfl

theorem quotedKey?_mark {mark : Char} (isMark : isQuote mark = true) (cs : List Char) :
    quotedKey? (mark :: cs) = quotedLine mark cs :=
  if_pos (by simpa [isQuote] using isMark)

/-- A string on one line is not taken for one between triple marks: either another character comes
after its first mark, or it is empty and no mark follows it. -/
theorem quoted?_of_quotedLine {mark : Char} {inside rest : List Char} {lexeme : Lexeme}
    (isMark : isQuote mark = true) (spelling : lexeme.spelling = mark :: inside ++ [mark])
    (read : quotedLine mark (inside ++ mark :: rest) = some (lexeme, rest))
    (apart : ∀ c ∈ rest.head?, isQuote c = false) :
    quoted? (mark :: (inside ++ mark :: rest)) = some (lexeme, rest) := by
  suffices quoted? (mark :: (inside ++ mark :: rest)) =
      quotedKey? (mark :: (inside ++ mark :: rest)) by
    rw [this, quotedKey?_mark isMark, read]
  cases inside with
  | nil =>
    cases rest with
    | nil => rfl
    | cons e rest =>
      have other : e ≠ mark := by
        rintro rfl
        simp [apart e rfl] at isMark
      simp [quoted?, other]
  | cons d inside =>
    have other : d ≠ mark := by
      rintro rfl
      have short := spelling_of_quotedLine_mark read
      rw [spelling] at short
      simp at short
    cases inside <;> simp [quoted?, other]

theorem quoted?_marks {mark : Char} (isMark : isQuote mark = true) (cs : List Char) :
    quoted? (mark :: mark :: mark :: cs) = quotedLines mark cs := by
  have cases : mark = '"' ∨ mark = '\'' := by simpa [isQuote] using isMark
  simp [quoted?, cases]

theorem quoted?_again {cs rest : List Char} {lexeme : Lexeme}
    (read : quoted? cs = some (lexeme, rest)) :
    ∃ mark inside, isQuote mark = true ∧ lexeme.spelling = mark :: inside ∧
      ∀ rest', (∀ c ∈ rest'.head?, isQuote c = false) →
        quoted? (mark :: inside ++ rest') = some (lexeme, rest') := by
  have line : quotedKey? cs = some (lexeme, rest) → ∃ mark inside, isQuote mark = true ∧
      lexeme.spelling = mark :: inside ∧ ∀ rest', (∀ c ∈ rest'.head?, isQuote c = false) →
        quoted? (mark :: inside ++ rest') = some (lexeme, rest') := by
    intro read
    obtain ⟨mark, inside, isMark, spelling, again⟩ := quotedKey?_again read
    refine ⟨mark, inside ++ [mark], isMark, spelling, fun rest' apart => ?_⟩
    simpa using quoted?_of_quotedLine isMark spelling (again rest') apart
  unfold quoted? at read
  split at read
  · next mark d e rest =>
    split at read
    · next closing =>
      obtain ⟨⟨isMark, rfl⟩, rfl⟩ : (isQuote mark = true ∧ d = mark) ∧ e = mark := by
        simpa [isQuote] using closing
      obtain ⟨inside, spelling, again⟩ := quotedLines_again read
      refine ⟨e, _, isMark, spelling, fun rest' apart => ?_⟩
      have other : ∀ c ∈ rest'.head?, c ≠ e := by
        rintro _ first rfl
        simp [apart _ first] at isMark
      simpa [quoted?_marks isMark] using again rest' other
    · exact line read
  · exact line read

/-! ### Words -/

/-- What comes next does not go on with a word, a date or a string. -/
structure Stops (rest : List Char) : Prop where
  word : ∀ c ∈ rest.head?, isWordChar c = false
  quote : ∀ c ∈ rest.head?, isQuote c = false
  time : ∀ d more, rest = ' ' :: d :: more → d.isDigit = false

section

variable {word rest : List Char}

theorem takeWhile_word (letters : ∀ c ∈ word, isWordChar c = true)
    (stop : ∀ c ∈ rest.head?, isWordChar c = false) :
    (word ++ rest).takeWhile isWordChar = word ∧ (word ++ rest).dropWhile isWordChar = rest := by
  rw [List.takeWhile_append_of_pos letters, List.dropWhile_append_of_pos letters]
  cases rest with
  | nil => simp
  | cons c rest =>
    have other : isWordChar c = false := stop c rfl
    simp [other]

def joinTime (word : List Char) : List Char → List Char × List Char
  | ' ' :: d :: more =>
    if isDate word && d.isDigit then
      (word ++ ' ' :: (d :: more).takeWhile isWordChar, (d :: more).dropWhile isWordChar)
    else (word, ' ' :: d :: more)
  | rest => (word, rest)

theorem splitWord_eq_joinTime (cs : List Char) :
    splitWord cs = joinTime (cs.takeWhile isWordChar) (cs.dropWhile isWordChar) := by
  unfold splitWord joinTime
  simp only
  generalize cs.takeWhile isWordChar = word, cs.dropWhile isWordChar = rest
  rcases rest with _ | ⟨c, _ | ⟨d, more⟩⟩
  · rfl
  · by_cases blank : c = ' ' <;> simp [blank]
  · by_cases blank : c = ' ' <;> simp [blank]

theorem splitWord_append (letters : ∀ c ∈ word, isWordChar c = true)
    (stop : ∀ c ∈ rest.head?, isWordChar c = false) :
    splitWord (word ++ rest) = joinTime word rest := by
  obtain ⟨taken, left⟩ := takeWhile_word letters stop
  rw [splitWord_eq_joinTime, taken, left]

theorem joinTime_of_stops (stops : Stops rest) : joinTime word rest = (word, rest) := by
  unfold joinTime
  split
  · next d more => simp [stops.time d more rfl]
  · rfl

theorem isWordChar_of_isDigit {c : Char} (digit : c.isDigit = true) : isWordChar c = true := by
  simp [isWordChar, Char.isAlphanum, digit]

theorem splitWord_again {cs : List Char} (split : splitWord cs = (word, rest)) {rest' : List Char}
    (stops : Stops rest') : splitWord (word ++ rest') = (word, rest') := by
  have letters : ∀ cs : List Char, ∀ c ∈ cs.takeWhile isWordChar, isWordChar c = true := fun cs =>
    List.all_eq_true.mp List.all_takeWhile
  have plain : word = cs.takeWhile isWordChar → splitWord (word ++ rest') = (word, rest') := by
    rintro rfl
    rw [splitWord_append (letters cs) stops.word, joinTime_of_stops stops]
  rw [splitWord_eq_joinTime] at split
  generalize found : cs.dropWhile isWordChar = behind at split
  unfold joinTime at split
  split at split
  · next d more =>
    split at split
    · next date =>
      cases split
      obtain ⟨isDate, digit⟩ : isDate (cs.takeWhile isWordChar) = true ∧ d.isDigit = true := by
        simpa using date
      have first : isWordChar d = true := isWordChar_of_isDigit digit
      obtain ⟨taken, left⟩ := takeWhile_word (letters (d :: more)) stops.word
      rw [List.takeWhile_cons_of_pos first, List.cons_append] at taken left
      rw [List.takeWhile_cons_of_pos first, List.append_assoc, List.cons_append, List.cons_append,
        splitWord_append (letters cs) (by simp [isWordChar, Char.isAlphanum])]
      simp only [joinTime, isDate, digit, taken, left, Bool.and_self, reduceIte]
    · cases split
      exact plain rfl
  · cases split
    exact plain rfl

end

def isCloser (c : Char) : Bool := c == ',' || c == ']' || c == '\x7d' || c == '\n'

theorem head_skip? {c : Char} {cs : List Char} {b : Bool} (skips : skip? false (c :: cs) = some b) :
    c = '\n' ∨ c = '\r' ∨ c = '#' ∨ isBlank c = true ∧ skip? false cs = some b := by
  by_cases line : c = '\n'
  · exact .inl line
  by_cases ret : c = '\r'
  · exact .inr (.inl ret)
  rw [skip?_cons line ret] at skips
  grind

theorem stops_of_skip? {after rest : List Char} {b : Bool} (skips : skip? false after = some b)
    {c : Char} (closes : isCloser c = true) : Stops (after ++ c :: rest) := by
  -- Neither a closer nor any of the characters between parts goes on with a lexeme.
  have other : ∀ {after : List Char}, skip? false after = some b →
      ∀ d ∈ (after ++ c :: rest).head?, isWordChar d = false ∧ isQuote d = false := by
    intro after skips d head
    cases after with
    | nil =>
      obtain rfl : c = d := by simpa using head
      have cases : ((c = ',' ∨ c = ']') ∨ c = '\x7d') ∨ c = '\n' := by simpa [isCloser] using closes
      obtain ((rfl | rfl) | rfl) | rfl := cases <;> decide
    | cons x after =>
      obtain rfl : x = d := by simpa using head
      obtain rfl | rfl | rfl | ⟨blank, _⟩ := head_skip? skips
      · decide
      · decide
      · decide
      · have cases : x = ' ' ∨ x = '\t' := by simpa [isBlank] using blank
        obtain rfl | rfl := cases <;> decide
  refine ⟨fun d head => (other skips d head).1, fun d head => (other skips d head).2, ?_⟩
  intro d more same
  have next : isWordChar d = false := by
    cases after with
    | nil =>
      obtain ⟨rfl, _⟩ : c = ' ' ∧ _ := by simpa using same
      simp [isCloser] at closes
    | cons x after =>
      obtain ⟨rfl, behind⟩ : x = ' ' ∧ after ++ c :: rest = d :: more := by simpa using same
      obtain later : skip? false after = some b := by
        obtain h | h | h | ⟨_, later⟩ := head_skip? skips
        · cases h
        · cases h
        · cases h
        · exact later
      exact (other later d (by simp [behind])).1
  cases digit : d.isDigit with
  | false => rfl
  | true => rw [isWordChar_of_isDigit digit] at next; cases next

end ClassDiagram.Toml
