import ClassDiagram.Proofs.Toml.Lexemes
import ClassDiagram.Toml.Spelling
import Mathlib.Tactic.SplitIfs

/-! New strings and keys read as what they were written for, in whichever of the forms they have been
given. -/

namespace ClassDiagram.Toml

/-! ### Where a new string ends -/

/-- The inside of a string, with no more than `most` marks in a row, `row` of which came before. -/
inductive Inside (mark : Char) (escapes : Bool) (most : Nat) : Nat → List Char → Prop
  | nil (row : Nat) : Inside mark escapes most row []
  | mark {row : Nat} {rest : List Char} : row < most → Inside mark escapes most (row + 1) rest →
      Inside mark escapes most row (mark :: rest)
  | plain {row : Nat} {c : Char} {rest : List Char} : c ≠ mark → (escapes = true → c ≠ '\\') →
      Inside mark escapes most 0 rest → Inside mark escapes most row (c :: rest)
  | escaped {row : Nat} {d : Char} {rest : List Char} : mark ≠ '\\' → escapes = true →
      Inside mark escapes most 0 rest → Inside mark escapes most row ('\\' :: d :: rest)

section

variable {mark : Char} {escapes : Bool} {most row : Nat} {body rest : List Char}

theorem Inside.scanLine (inside : Inside mark escapes 0 row body) (reversed rest : List Char) :
    scanLine mark escapes reversed (body ++ mark :: rest) = some (reversed.reverse ++ body, rest) := by
  induction inside generalizing reversed with
  | nil => cases rest <;> simp [Toml.scanLine]
  | mark few => simp at few
  | plain other noEscape _ ih =>
    rw [List.cons_append, scanLine_cons _ _ _ _ (by simp), if_neg other, if_neg, ih]
    · simp
    · simpa using noEscape
  | escaped other escapes _ ih =>
    rw [List.cons_append, scanLine_cons _ _ _ _ (by simp), if_neg other.symm,
      if_pos (by simp [escapes])]
    simp [ih]

theorem scanLines_plain {c : Char} {text : List Char} (long : 2 ≤ text.length)
    (apart : c = mark → text.take 2 ≠ [mark, mark]) (noEscape : escapes = true → c ≠ '\\')
    (reversed : List Char) :
    scanLines mark escapes reversed (c :: text) = scanLines mark escapes (c :: reversed) text := by
  match text, long with
  | d :: e :: text, _ =>
    rw [scanLines_cons, if_neg, if_neg]
    · simpa using noEscape
    · simpa [and_assoc] using apart

theorem scanLines_escaped {d : Char} {text : List Char} (some : text ≠ []) (other : mark ≠ '\\')
    (escaping : escapes = true) (reversed : List Char) :
    scanLines mark escapes reversed ('\\' :: d :: text) =
      scanLines mark escapes (d :: '\\' :: reversed) text := by
  cases text with
  | nil => exact absurd rfl some
  | cons e text => rw [scanLines_cons, if_neg (by simp [other.symm]), if_pos (by simp [escaping])]

theorem scanLines_marks {more : List Char} (marks : ∀ c ∈ more, c = mark) (few : more.length ≤ 2)
    (apart : ∀ c ∈ rest.head?, c ≠ mark) (reversed : List Char) :
    scanLines mark escapes reversed (more ++ [mark, mark, mark] ++ rest) =
      some (reversed.reverse ++ more, rest) := by
  rw [← marks_comm marks]
  simp [scanLines_cons, take_marks marks few apart]

theorem Inside.length_marks (inside : Inside mark escapes most row body) (few : row ≤ most)
    (marks : ∀ c ∈ body, c = mark) : row + body.length ≤ most := by
  induction inside with
  | nil => simpa using few
  | mark room _ ih =>
    have := ih room (List.forall_mem_cons.mp marks).2
    rw [List.length_cons]
    omega
  | plain other => exact absurd (List.forall_mem_cons.mp marks).1 other
  | escaped other => exact absurd (List.forall_mem_cons.mp marks).1.symm other

theorem Inside.scanLines (inside : Inside mark escapes 2 row body)
    (noEscape : escapes = true → mark ≠ '\\') (apart : ∀ c ∈ rest.head?, c ≠ mark)
    (reversed : List Char) :
    scanLines mark escapes reversed (body ++ [mark, mark, mark] ++ rest) =
      some (reversed.reverse ++ body, rest) := by
  have long : ∀ body : List Char, 2 ≤ (body ++ [mark, mark, mark] ++ rest).length := by
    intro body
    simp only [List.length_append, List.length_cons]
    omega
  induction inside generalizing reversed with
  | nil =>
    have marks : ∀ c ∈ ([] : List Char), c = mark := by simp
    simpa using scanLines_marks marks (by simp) apart reversed
  | @mark row body few inner ih =>
    -- Three marks in a row are seen only where nothing but marks is left of the inside.
    by_cases marks : ∀ c ∈ body, c = mark
    · have all : ∀ c ∈ mark :: body, c = mark := by simpa using marks
      have length := inner.length_marks few marks
      exact scanLines_marks all (by rw [List.length_cons]; omega) apart reversed
    · have open_ : (body ++ [mark, mark, mark] ++ rest).take 2 ≠ [mark, mark] := by
        cases inner with
        | nil => simp at marks
        | plain other => simp [other]
        | escaped other => simp [other.symm]
        | mark few inner =>
          cases inner with
          | nil => simp at marks
          | plain other => simp [other]
          | escaped other => simp [other.symm]
          | mark many => omega
      rw [List.cons_append, List.cons_append, scanLines_plain (long body) (fun _ => open_) noEscape,
        ih]
      simp
  | plain other noEscape _ ih =>
    rw [List.cons_append, List.cons_append,
      scanLines_plain (long _) (fun same => absurd same other) noEscape, ih]
    simp
  | escaped other escaping _ ih =>
    simp only [List.cons_append]
    rw [scanLines_escaped (by simp) other escaping, ih]
    simp

end

/-! ### Strings with escapes -/

theorem small_of_needsEscape {c : Char} (needs : needsEscape c = true) : c.toNat < 128 := by
  simp only [needsEscape, Bool.or_eq_true, Bool.and_eq_true, decide_eq_true_eq] at needs
  omega

def isEscaped (c : Char) : Bool := needsEscape c || c == '\t' || c == '\n' || c == '\\'

theorem small_of_isEscaped {c : Char} (escaped : isEscaped c = true) : c.toNat < 128 := by
  have cases : ((needsEscape c = true ∨ c = '\t') ∨ c = '\n') ∨ c = '\\' := by
    simpa [isEscaped] using escaped
  obtain ((needs | rfl) | rfl) | rfl := cases
  · exact small_of_needsEscape needs
  all_goals decide

theorem forall_small {P : Char → Prop} (all : ∀ n < 128, P (Char.ofNat n)) {c : Char}
    (small : c.toNat < 128) : P c := by
  have this := all c.toNat small
  rwa [Char.ofNat_toNat] at this

/-- An escape is a backslash, a letter, and digits that stand for themselves. -/
theorem escapeCode_eq {c : Char} (small : c.toNat < 128) :
    ∃ d digits, escapeCode c = '\\' :: d :: digits ∧ ∀ x ∈ digits, x ≠ '"' ∧ x ≠ '\\' := by
  have shape : (escapeCode c).take 1 = ['\\'] ∧ 2 ≤ (escapeCode c).length ∧
      ((escapeCode c).drop 2).all (fun x => x ≠ '"' && x ≠ '\\') = true :=
    forall_small (P := fun c => (escapeCode c).take 1 = ['\\'] ∧ 2 ≤ (escapeCode c).length ∧
      ((escapeCode c).drop 2).all (fun x => x ≠ '"' && x ≠ '\\') = true) (by decide) small
  match code : escapeCode c, shape with
  | b :: d :: digits, ⟨opening, _, rest⟩ =>
    obtain rfl : b = '\\' := by simpa using opening
    exact ⟨d, digits, rfl, fun x mem => by simpa using List.all_eq_true.mp rest x mem⟩

theorem foldlM_escapeCode {c : Char} (small : c.toNat < 128) (multiline : Bool)
    (reversed : List Char) :
    (escapeCode c).foldlM (Unescaper.step multiline) ⟨.plain, reversed⟩ =
      some ⟨.plain, c :: reversed⟩ := by
  unfold escapeCode
  split
  · next short found =>
    unfold shortEscape? at found
    split at found <;> cases found <;> cases multiline <;> rfl
  · have first : Text.hexValue? (Text.upperHex (c.toNat / 16)) = some (c.toNat / 16) :=
      Text.hexValue?_upperHex ⟨c.toNat / 16, by omega⟩
    have second : Text.hexValue? (Text.upperHex (c.toNat % 16)) = some (c.toNat % 16) :=
      Text.hexValue?_upperHex ⟨c.toNat % 16, by omega⟩
    have zero : Text.hexValue? '0' = some 0 := by decide
    have whole : 16 * (c.toNat / 16) + c.toNat % 16 = c.toNat := Nat.div_add_mod c.toNat 16
    have valid : c.toNat.isValidChar := c.valid
    simp [Unescaper.step, Unescaper.plain, first, second, zero, whole, valid, Char.ofNat_toNat]

def piece (multiline : Bool) (c : Char) : List Char :=
  if multiline && c = '\n' then [c] else if isEscaped c then escapeCode c else [c]

theorem escapeText_cons {c : Char} (other : c ≠ '"') (multiline : Bool) (row : Nat)
    (rest : List Char) :
    escapeText multiline row (c :: rest) = piece multiline c ++ escapeText multiline 0 rest := by
  rw [escapeText]
  · simp [piece, isEscaped]
  · exact other

theorem isTextChar_of_not_isEscaped {c : Char} (plain : isEscaped c = false) :
    isTextChar c = true ∧ c ≠ '\\' := by
  have cases : ((needsEscape c = false ∧ c ≠ '\t') ∧ c ≠ '\n') ∧ c ≠ '\\' := by
    simpa [isEscaped] using plain
  obtain ⟨⟨⟨clean, tab⟩, line⟩, escape⟩ := cases
  have := clean
  simp only [needsEscape, Bool.or_eq_false_iff, Bool.and_eq_false_iff, decide_eq_false_iff_not] at this
  refine ⟨?_, escape⟩
  simp [isTextChar]
  grind

theorem foldlM_piece {c : Char} (multiline : Bool) (reversed : List Char) :
    (piece multiline c).foldlM (Unescaper.step multiline) ⟨.plain, reversed⟩ =
      some ⟨.plain, c :: reversed⟩ := by
  unfold piece
  split
  · next line =>
    obtain ⟨rfl, rfl⟩ : multiline = true ∧ c = '\n' := by simpa using line
    rfl
  · split
    · next escaped => exact foldlM_escapeCode (small_of_isEscaped escaped) multiline reversed
    · next plain =>
      obtain ⟨text, escape⟩ := isTextChar_of_not_isEscaped (by simpa using plain)
      simp [Unescaper.step, Unescaper.plain, text, escape]

theorem foldlM_escapeText (multiline : Bool) (row : Nat) (cs reversed : List Char) :
    (escapeText multiline row cs).foldlM (Unescaper.step multiline) ⟨.plain, reversed⟩ =
      some ⟨.plain, cs.reverse ++ reversed⟩ := by
  induction cs generalizing row reversed with
  | nil => rfl
  | cons c cs ih =>
    by_cases mark : c = '"'
    · subst mark
      rw [escapeText]
      split
      · rw [List.foldlM_cons]
        simp [Unescaper.step, Unescaper.plain, isTextChar, ih]
      · simp [Unescaper.step, Unescaper.plain, Unescaper.escaped?, Unescaper.isBlank, ih]
    · rw [escapeText_cons mark, List.foldlM_append, foldlM_piece]
      simp [ih]

theorem unescape_escapeText (multiline : Bool) (row : Nat) (cs : List Char) :
    unescape multiline (escapeText multiline row cs) = some (String.ofList cs) := by
  simp [unescape, Unescaper.start, foldlM_escapeText, Unescaper.finish]

theorem inside_plain {mark : Char} {escapes : Bool} {most : Nat} {digits rest : List Char}
    (plain : ∀ x ∈ digits, x ≠ mark ∧ (escapes = true → x ≠ '\\'))
    (inside : Inside mark escapes most 0 rest) : Inside mark escapes most 0 (digits ++ rest) := by
  induction digits with
  | nil => exact inside
  | cons d digits ih =>
    obtain ⟨⟨other, escape⟩, plain⟩ := List.forall_mem_cons.mp plain
    exact .plain other escape (ih plain)

theorem inside_piece {c : Char} (other : c ≠ '"') (multiline : Bool) {most row : Nat}
    {rest : List Char} (inside : Inside '"' true most 0 rest) :
    Inside '"' true most row (piece multiline c ++ rest) := by
  unfold piece
  split
  · next line =>
    obtain ⟨_, rfl⟩ : multiline = true ∧ c = '\n' := by simpa using line
    exact .plain other (by simp) inside
  · split
    · next escaped =>
      obtain ⟨d, digits, code, plain⟩ := escapeCode_eq (small_of_isEscaped escaped)
      rw [code]
      exact .escaped (by decide) rfl
        (inside_plain (fun x mem => ⟨(plain x mem).1, fun _ => (plain x mem).2⟩) inside)
    · next plain =>
      obtain ⟨_, escape⟩ := isTextChar_of_not_isEscaped (by simpa using plain)
      exact .plain other (fun _ => escape) inside

/-- The marks of a string with escapes do not close it. -/
theorem inside_escapeText (multiline : Bool) (row : Nat) (cs : List Char) :
    Inside '"' true (if multiline then 2 else 0) row (escapeText multiline row cs) := by
  induction cs generalizing row with
  | nil => exact .nil row
  | cons c cs ih =>
    by_cases mark : c = '"'
    · subst mark
      rw [escapeText]
      by_cases few : (multiline && decide (row < 2)) = true
      · rw [if_pos few]
        obtain ⟨rfl, room⟩ : multiline = true ∧ row < 2 := by simpa using few
        exact .mark room (ih (row + 1))
      · rw [if_neg few]
        exact .escaped (by decide) rfl (ih 0)
    · rw [escapeText_cons mark]
      exact inside_piece mark multiline (ih 0)

/-! ### Strings without escapes -/

section

variable {mark : Char} {cs : List Char}

theorem inside_of_notMem (absent : mark ∉ cs) (most row : Nat) :
    Inside mark false most row cs := by
  induction cs generalizing row with
  | nil => exact .nil row
  | cons c cs ih =>
    obtain ⟨other, absent⟩ : mark ≠ c ∧ mark ∉ cs := by simpa using absent
    exact .plain (Ne.symm other) (by simp) (ih absent 0)

def runStep (mark : Char) (state : Nat × Nat) (c : Char) : Nat × Nat :=
  let current := if c = mark then state.2 + 1 else 0
  (max state.1 current, current)

theorem le_foldl_runStep (mark : Char) (cs : List Char) (state : Nat × Nat) :
    state.1 ≤ (cs.foldl (runStep mark) state).1 := by
  induction cs generalizing state with
  | nil => exact Nat.le_refl _
  | cons c cs ih => exact Nat.le_trans (Nat.le_max_left _ _) (ih (runStep mark state c))

/-- Without more marks in a row than it may have, a text is the inside of a string. -/
theorem inside_of_run {most longest row : Nat}
    (few : (cs.foldl (runStep mark) (longest, row)).1 ≤ most) : Inside mark false most row cs := by
  induction cs generalizing longest row with
  | nil => exact .nil row
  | cons c cs ih =>
    rw [List.foldl_cons] at few
    by_cases same : c = mark
    · subst same
      have step : runStep c (longest, row) c = (max longest (row + 1), row + 1) := by simp [runStep]
      rw [step] at few
      have bound := Nat.le_trans (le_foldl_runStep c cs _) few
      exact .mark (Nat.le_trans (Nat.le_max_right longest _) bound) (ih few)
    · have step : runStep mark (longest, row) c = (max longest 0, 0) := by simp [runStep, same]
      rw [step] at few
      exact .plain same (by simp) (ih few)

theorem verbatim_of_clean {multiline : Bool} (clean : cs.any needsEscape = false)
    (line : multiline = false → '\n' ∉ cs) : verbatim multiline cs = some (String.ofList cs) := by
  rw [verbatim, if_pos]
  rw [List.all_eq_true]
  intro c mem
  have plain : needsEscape c = false := by simpa using List.any_eq_false.mp clean c mem
  by_cases newline : c = '\n'
  · cases multiline with
    | true => simp [newline]
    | false => exact absurd (newline ▸ mem) (line rfl)
  · have := plain
    simp only [needsEscape, Bool.or_eq_false_iff, Bool.and_eq_false_iff,
      decide_eq_false_iff_not] at this
    simp [isTextChar, newline]
    grind

end

/-! ### What is read -/

section

variable {mark : Char} {body rest : List Char} {content : String}

theorem quotedLine_inside (inside : Inside mark (hasEscapes mark) 0 0 body)
    (told : content? mark false body = some content) (rest : List Char) :
    quotedLine mark (body ++ mark :: rest) = some (⟨content, mark :: body ++ [mark]⟩, rest) := by
  rw [quotedLine, inside.scanLine]
  simp [told]

theorem quoted?_inside (isMark : isQuote mark = true)
    (inside : Inside mark (hasEscapes mark) 0 0 body)
    (told : content? mark false body = some content)
    (apart : ∀ c ∈ rest.head?, isQuote c = false) :
    quoted? ([mark] ++ body ++ [mark] ++ rest) =
      some (⟨content, [mark] ++ body ++ [mark]⟩, rest) := by
  simpa using quoted?_of_quotedLine isMark rfl (quotedLine_inside inside told rest) apart

theorem foldLines_of_notMem {cs : List Char} (absent : '\r' ∉ cs) : foldLines cs = cs := by
  fun_induction foldLines cs <;> grind

theorem dropFirstLineEnd_openLines {cs : List Char} (line : '\n' ∈ body → '\n' ∈ cs) :
    dropFirstLineEnd (openLines cs ++ body) = body := by
  unfold openLines
  split
  · rfl
  · next none =>
    have absent : '\n' ∉ body := fun mem => none (by simpa using line mem)
    cases body with
    | nil => rfl
    | cons c body =>
      rw [List.nil_append, dropFirstLineEnd]
      rintro rest same
      cases same
      simp at absent

theorem quoted?_lines (isMark : isQuote mark = true) (cs : List Char)
    (inside : Inside mark (hasEscapes mark) 2 0 body) (ret : '\r' ∉ body)
    (line : '\n' ∈ body → '\n' ∈ cs) (told : content? mark true body = some content)
    (apart : ∀ c ∈ rest.head?, isQuote c = false) :
    quoted? ([mark, mark, mark] ++ openLines cs ++ body ++ [mark, mark, mark] ++ rest) =
      some (⟨content, [mark, mark, mark] ++ openLines cs ++ body ++ [mark, mark, mark]⟩, rest) := by
  have cases : mark = '"' ∨ mark = '\'' := by simpa [isQuote] using isMark
  have noLine : '\n' ≠ mark := by rcases cases with rfl | rfl <;> decide
  have noEscape : mark ≠ '\\' := by rcases cases with rfl | rfl <;> decide
  have whole : Inside mark (hasEscapes mark) 2 0 (openLines cs ++ body) := by
    unfold openLines
    split
    · exact .plain noLine (by simp) inside
    · exact inside
  have fold : foldLines (openLines cs ++ body) = openLines cs ++ body := by
    refine foldLines_of_notMem fun mem => ?_
    rcases List.mem_append.mp mem with opening | mem
    · unfold openLines at opening
      split at opening <;> simp at opening
    · exact ret mem
  have other : ∀ c ∈ rest.head?, c ≠ mark := by
    rintro _ first rfl
    simp [apart _ first] at isMark
  have scanned := whole.scanLines (fun _ => noEscape) other []
  have text : [mark, mark, mark] ++ openLines cs ++ body ++ [mark, mark, mark] ++ rest =
      mark :: mark :: mark :: (openLines cs ++ body ++ [mark, mark, mark] ++ rest) := by simp
  rw [text, quoted?_marks isMark, quotedLines, scanned]
  simp [fold, dropFirstLineEnd_openLines line, told]

end

theorem mem_piece {multiline : Bool} {c x : Char} (mem : x ∈ piece multiline c) :
    x ≠ '\r' ∧ (x = '\n' → c = '\n') := by
  unfold piece at mem
  split at mem
  · next line =>
    obtain ⟨_, rfl⟩ : multiline = true ∧ c = '\n' := by simpa using line
    obtain rfl : x = '\n' := by simpa using mem
    simp
  · split at mem
    · next escaped =>
      have clean := forall_small
        (P := fun c => (escapeCode c).all (fun x => x ≠ '\r' && x ≠ '\n') = true) (by decide)
        (small_of_isEscaped escaped)
      obtain ⟨ret, line⟩ : x ≠ '\r' ∧ x ≠ '\n' := by simpa using List.all_eq_true.mp clean x mem
      exact ⟨ret, fun same => absurd same line⟩
    · next plain =>
      obtain rfl : x = c := by simpa using mem
      refine ⟨?_, id⟩
      rintro rfl
      exact plain (by decide)

/-- Carriage returns are escaped, and line feeds are if they do not stand for themselves. -/
theorem mem_escapeText {multiline : Bool} {row : Nat} {cs : List Char} {x : Char}
    (mem : x ∈ escapeText multiline row cs) : x ≠ '\r' ∧ (x = '\n' → '\n' ∈ cs) := by
  induction cs generalizing row with
  | nil => cases mem
  | cons c cs ih =>
    have later : ∀ {row}, x ∈ escapeText multiline row cs →
        x ≠ '\r' ∧ (x = '\n' → '\n' ∈ c :: cs) := fun mem =>
      ⟨(ih mem).1, fun line => List.mem_cons_of_mem c ((ih mem).2 line)⟩
    by_cases mark : c = '"'
    · subst mark
      rw [escapeText] at mem
      split at mem
      · rcases List.mem_cons.mp mem with rfl | mem
        · simp
        · exact later mem
      · rcases List.mem_cons.mp mem with rfl | mem
        · simp
        · rcases List.mem_cons.mp mem with rfl | mem
          · simp
          · exact later mem
    · rw [escapeText_cons mark] at mem
      rcases List.mem_append.mp mem with here | mem
      · obtain ⟨ret, line⟩ := mem_piece here
        exact ⟨ret, fun same => List.mem_cons.mpr (.inl (line same).symm)⟩
      · exact later mem

theorem return_notMem_of_clean {cs : List Char} (clean : cs.any needsEscape = false) :
    '\r' ∉ cs := by
  intro mem
  have plain := List.any_eq_false.mp clean '\r' mem
  exact plain (by decide)

section

variable {rest : List Char} (apart : ∀ c ∈ rest.head?, isQuote c = false)

include apart

theorem quoted?_escaped (cs : List Char) :
    quoted? (['"'] ++ escapeText false 0 cs ++ ['"'] ++ rest) =
      some (⟨String.ofList cs, ['"'] ++ escapeText false 0 cs ++ ['"']⟩, rest) :=
  quoted?_inside (by decide) (inside_escapeText false 0 cs) (unescape_escapeText false 0 cs) apart

theorem quoted?_escapedLines (cs : List Char) :
    quoted? (['"', '"', '"'] ++ openLines cs ++ escapeText true 0 cs ++ ['"', '"', '"'] ++ rest) =
      some (⟨String.ofList cs,
        ['"', '"', '"'] ++ openLines cs ++ escapeText true 0 cs ++ ['"', '"', '"']⟩, rest) :=
  quoted?_lines (by decide) cs (inside_escapeText true 0 cs) (fun mem => (mem_escapeText mem).1 rfl)
    (fun mem => (mem_escapeText mem).2 rfl) (unescape_escapeText true 0 cs) apart

theorem quoted?_verbatim {cs : List Char} (clean : cs.any needsEscape = false)
    (line : '\n' ∉ cs) (mark : '\'' ∉ cs) :
    quoted? (['\''] ++ cs ++ ['\''] ++ rest) =
      some (⟨String.ofList cs, ['\''] ++ cs ++ ['\'']⟩, rest) :=
  quoted?_inside (by decide) (inside_of_notMem mark 0 0) (verbatim_of_clean clean fun _ => line) apart

theorem quoted?_verbatimLines {cs : List Char} (clean : cs.any needsEscape = false)
    (few : longestRun '\'' cs ≤ 2) :
    quoted? (['\'', '\'', '\''] ++ openLines cs ++ cs ++ ['\'', '\'', '\''] ++ rest) =
      some (⟨String.ofList cs, ['\'', '\'', '\''] ++ openLines cs ++ cs ++ ['\'', '\'', '\'']⟩,
        rest) :=
  quoted?_lines (by decide) cs (inside_of_run few) (return_notMem_of_clean clean) id
    (verbatim_of_clean clean (by simp)) apart

theorem quoted?_spellText (cs : List Char) :
    quoted? (spellText cs ++ rest) = some (⟨String.ofList cs, spellText cs⟩, rest) := by
  unfold spellText
  simp only
  split_ifs with first second third fourth fifth
  · exact quoted?_escaped apart cs
  · obtain ⟨⟨clean, mark⟩, line⟩ : (cs.any needsEscape = false ∧ '\'' ∉ cs) ∧ '\n' ∉ cs := by
      simpa using second
    exact quoted?_verbatim apart clean line mark
  · exact quoted?_escapedLines apart cs
  · obtain ⟨clean, few⟩ : cs.any needsEscape = false ∧ longestRun '\'' cs ≤ 2 := by
      simpa using fourth
    exact quoted?_verbatimLines apart clean few
  · exact quoted?_escaped apart cs
  · exact quoted?_escapedLines apart cs

end

/-! ### Keys -/

section

variable {key rest : List Char}

theorem quotedKey?_inside {mark : Char} {content : String} (isMark : isQuote mark = true)
    (inside : Inside mark (hasEscapes mark) 0 0 key)
    (told : content? mark false key = some content) (rest : List Char) :
    quotedKey? ([mark] ++ key ++ [mark] ++ rest) =
      some (⟨content, [mark] ++ key ++ [mark]⟩, rest) := by
  simpa [quotedKey?_mark isMark] using quotedLine_inside inside told rest

theorem simpleKey?_of_quotedKey? {cs : List Char} {lexeme : Lexeme}
    (read : quotedKey? cs = some (lexeme, rest)) : simpleKey? cs = some (lexeme, rest) := by
  rw [simpleKey?, read]

theorem isQuote_of_isBareKeyChar {c : Char} (bare : isBareKeyChar c = true) :
    isQuote c = false := by
  cases quote : isQuote c with
  | false => rfl
  | true =>
    have cases : c = '"' ∨ c = '\'' := by simpa [isQuote] using quote
    obtain rfl | rfl := cases <;> exact absurd bare (by decide)

theorem quotedKey?_of_head {cs : List Char} (other : ∀ c ∈ cs.head?, isQuote c = false) :
    quotedKey? cs = none := by
  cases cs with
  | nil => rfl
  | cons c cs =>
    have other : isQuote c = false := other c rfl
    exact if_neg (by simpa [isQuote] using other)

theorem simpleKey?_bare (some : key ≠ []) (bare : ∀ c ∈ key, isBareKeyChar c = true)
    (apart : ∀ c ∈ rest.head?, isBareKeyChar c = false) :
    simpleKey? (key ++ rest) = Option.some (⟨String.ofList key, key⟩, rest) := by
  have head : ∀ c ∈ (key ++ rest).head?, isQuote c = false := by
    intro c first
    cases key with
    | nil => exact absurd rfl some
    | cons d key =>
      obtain rfl : d = c := by simpa using first
      exact isQuote_of_isBareKeyChar (bare d List.mem_cons_self)
  have taken : (key ++ rest).takeWhile isBareKeyChar = key ∧
      (key ++ rest).dropWhile isBareKeyChar = rest := by
    rw [List.takeWhile_append_of_pos bare, List.dropWhile_append_of_pos bare]
    cases rest with
    | nil => simp
    | cons c rest => simp [apart c rfl]
  rw [simpleKey?, quotedKey?_of_head head]
  simp [taken, some]

theorem simpleKey?_spellKey (cs : List Char) (apart : ∀ c ∈ rest.head?, isBareKeyChar c = false) :
    simpleKey? (spellKey cs ++ rest) = some (⟨String.ofList cs, spellKey cs⟩, rest) := by
  have escaped := quotedKey?_inside (by decide) (inside_escapeText false 0 cs)
    (unescape_escapeText false 0 cs) rest
  unfold spellKey
  simp only
  split_ifs with bare second third
  · obtain ⟨some, bare⟩ : cs ≠ [] ∧ ∀ c ∈ cs, isBareKeyChar c = true := by
      simpa [isBareKeyChar] using bare
    exact simpleKey?_bare some bare apart
  · exact simpleKey?_of_quotedKey? escaped
  · obtain ⟨clean, mark⟩ : (∀ c ∈ cs, needsEscape c = false ∧ c ≠ '\n') ∧ '\'' ∉ cs := by
      simpa using third
    have line : '\n' ∉ cs := fun mem => (clean '\n' mem).2 rfl
    have clean : cs.any needsEscape = false := by
      simpa using fun c mem => (clean c mem).1
    exact simpleKey?_of_quotedKey? (quotedKey?_inside (by decide) (inside_of_notMem mark 0 0)
      (verbatim_of_clean clean fun _ => line) rest)
  · exact simpleKey?_of_quotedKey? escaped

end

end ClassDiagram.Toml
