import ClassDiagram.Proofs.Toml.Values
import Mathlib.Algebra.Order.Group.Multiset

/-! The comments of a text, found without reading it: a number sign outside of strings opens a
comment, which goes up to the end of its line. What stands between the parts of a document keeps its
comments wherever it is written, and the parts themselves, arrays apart, have none. -/

namespace ClassDiagram.Toml

def comments (cs : List Char) : Multiset String :=
  match cs with
  | [] => 0
  | c :: rest =>
    if c = '#' then
      {String.ofList (c :: rest.takeWhile isTextChar)} + comments (rest.dropWhile isTextChar)
    else
      match _ : quoted? (c :: rest) with
      | some (_, more) => comments more
      | none => comments rest
termination_by cs.length
decreasing_by
  · exact Nat.lt_succ_of_le (List.dropWhile_sublist isTextChar).length_le
  · exact quoted?_lt ‹_›
  · exact Nat.lt_succ_self _

section

variable {c : Char} {cs rest before after : List Char} {b b' : Bool}

@[simp] theorem comments_nil : comments [] = 0 := by rw [comments]

theorem comments_mark (cs : List Char) :
    comments ('#' :: cs) =
      {String.ofList ('#' :: cs.takeWhile isTextChar)} + comments (cs.dropWhile isTextChar) := by
  rw [comments, if_pos rfl]

theorem comments_quoted {lexeme : Lexeme} (read : quoted? cs = some (lexeme, rest)) :
    comments cs = comments rest := by
  cases cs with
  | nil => cases read
  | cons c cs =>
    have mark : c ≠ '#' := by
      rintro rfl
      rw [quoted?_of_head (by simp [isQuote])] at read
      cases read
    rw [comments, if_neg mark]
    split
    · next found =>
      cases found.symm.trans read
      rfl
    · next found => cases found.symm.trans read

/-- What neither opens a comment nor a string. -/
def isPlain (c : Char) : Bool := c != '#' && !isQuote c

theorem comments_plain (plain : isPlain c = true) (cs : List Char) :
    comments (c :: cs) = comments cs := by
  obtain ⟨mark, quote⟩ : c ≠ '#' ∧ isQuote c = false := by simpa [isPlain] using plain
  have none : quoted? (c :: cs) = none := quoted?_of_head (by simpa using quote)
  rw [comments, if_neg mark]
  split
  · next found => cases none.symm.trans found
  · rfl

theorem comments_append_of_plain (plain : ∀ c ∈ before, isPlain c = true) (rest : List Char) :
    comments (before ++ rest) = comments rest := by
  induction before with
  | nil => rfl
  | cons c before ih =>
    obtain ⟨first, plain⟩ := List.forall_mem_cons.mp plain
    rw [List.cons_append, comments_plain first, ih plain]

theorem isPlain_of_isBlank (blank : isBlank c = true) : isPlain c = true := by
  have cases : c = ' ' ∨ c = '\t' := by simpa [isBlank] using blank
  obtain rfl | rfl := cases <;> decide

theorem comments_append_of_blank (blank : AllBlank before) (rest : List Char) :
    comments (before ++ rest) = comments rest :=
  comments_append_of_plain (fun c mem => isPlain_of_isBlank (blank c mem)) rest

/-! ### Between the parts -/

/-- The rest of a text once a comment has ended, if it is in one. -/
def outside (inComment : Bool) (cs : List Char) : List Char :=
  if inComment then cs.dropWhile isTextChar else cs

/-- What may come after text between parts: no comment that it ends in goes on. -/
def EndsLine (inComment : Bool) (rest : List Char) : Prop :=
  inComment = true → ∀ c ∈ rest.head?, isTextChar c = false

theorem takeWhile_of_head (ends : ∀ c ∈ rest.head?, isTextChar c = false) :
    rest.takeWhile isTextChar = [] ∧ rest.dropWhile isTextChar = rest := by
  cases rest with
  | nil => simp
  | cons c rest =>
    have stop : isTextChar c = false := ends c rfl
    simp [stop]

theorem comment_ends (skips : skip? true cs = some b) (ends : EndsLine b rest) :
    (cs ++ rest).takeWhile isTextChar = cs.takeWhile isTextChar ∧
      (cs ++ rest).dropWhile isTextChar = cs.dropWhile isTextChar ++ rest := by
  induction cs with
  | nil =>
    obtain rfl : true = b := Option.some.inj skips
    simpa using takeWhile_of_head (ends rfl)
  | cons c cs ih =>
    cases text : isTextChar c with
    | false => simp [text]
    | true =>
      have line : c ≠ '\n' := by
        rintro rfl
        exact absurd text (by decide)
      rw [skip?_cons line (ne_return_of_text text), if_pos rfl, if_pos text] at skips
      obtain ⟨taken, left⟩ := ih skips
      simp [text, taken, left]

theorem outside_of_head (inComment : Bool) (ends : ∀ c ∈ rest.head?, isTextChar c = false) :
    outside inComment rest = rest := by
  cases inComment with
  | false => rfl
  | true => exact (takeWhile_of_head ends).2

theorem comments_skip? (skips : skip? b cs = some b') (ends : EndsLine b' rest) :
    comments (outside b (cs ++ rest)) = comments (outside b cs) + comments rest := by
  have newline : isTextChar '\n' = false := by decide
  have ret : isTextChar '\r' = false := by decide
  fun_induction skip? b cs with
  | case1 inComment =>
    obtain rfl : inComment = b' := Option.some.inj skips
    cases inComment with
    | false => simp [outside]
    | true => simp [outside, takeWhile_of_head (ends rfl)]
  | case2 inComment cs ih =>
    simp only [outside, Bool.false_eq_true, if_false] at ih
    rw [List.cons_append, outside_of_head, outside_of_head, comments_plain (by decide),
      comments_plain (by decide), ih skips]
    · simpa using newline
    · simpa using newline
  | case3 inComment cs ih =>
    simp only [outside, Bool.false_eq_true, if_false] at ih
    rw [List.cons_append, List.cons_append, outside_of_head, outside_of_head,
      comments_plain (by decide), comments_plain (by decide), comments_plain (by decide),
      comments_plain (by decide), ih skips]
    · simpa using ret
    · simpa using ret
  | case4 c cs _ _ text ih => simpa [outside, text] using ih skips
  | case5 => cases skips
  | case6 inComment c cs _ _ open_ blank ih =>
    obtain rfl : inComment = false := by simpa using open_
    simpa [outside, comments_plain (isPlain_of_isBlank blank)] using ih skips
  | case7 inComment cs open_ _ _ _ ih =>
    obtain rfl : inComment = false := by simpa using open_
    have ih := ih skips
    simp only [outside, if_true] at ih
    simp [outside, comments_mark, (comment_ends skips ends).1, ih]
  | case8 => cases skips

theorem comment_withoutReturns (skips : skip? true cs = some b) :
    (cs.filter (· ≠ '\r')).takeWhile isTextChar = cs.takeWhile isTextChar := by
  have newline : isTextChar '\n' = false := by decide
  have ret : isTextChar '\r' = false := by decide
  generalize inside : true = inComment at skips
  fun_induction skip? inComment cs with
  | case1 => rfl
  | case2 => simp [newline]
  | case3 => simp [newline, ret]
  | case4 c cs _ _ text ih => simpa [text, ne_return_of_text text] using ih rfl skips
  | case5 => cases skips
  | _ => simp_all

theorem comments_withoutReturns (skips : skip? b cs = some b') :
    comments (outside b (cs.filter (· ≠ '\r'))) = comments (outside b cs) := by
  have newline : isTextChar '\n' = false := by decide
  have ret : isTextChar '\r' = false := by decide
  fun_induction skip? b cs with
  | case1 => rfl
  | case2 inComment cs ih =>
    have line : ('\n' :: cs).filter (· ≠ '\r') = '\n' :: cs.filter (· ≠ '\r') := rfl
    rw [line, outside_of_head, outside_of_head, comments_plain (by decide),
      comments_plain (by decide)]
    · exact ih skips
    · simpa using newline
    · simpa using newline
  | case3 inComment cs ih =>
    have line : ('\r' :: '\n' :: cs).filter (· ≠ '\r') = '\n' :: cs.filter (· ≠ '\r') := rfl
    rw [line, outside_of_head, outside_of_head, comments_plain (by decide),
      comments_plain (by decide), comments_plain (by decide)]
    · exact ih skips
    · simpa using ret
    · simpa using newline
  | case4 c cs _ _ text ih => simpa [outside, text, ne_return_of_text text] using ih skips
  | case5 => cases skips
  | case6 inComment c cs _ _ open_ blank ih =>
    obtain rfl : inComment = false := by simpa using open_
    simpa [outside, comments_plain (isPlain_of_isBlank blank), ne_return_of_blank blank] using ih skips
  | case7 inComment cs open_ _ _ _ ih =>
    obtain rfl : inComment = false := by simpa using open_
    have mark : ('#' :: cs).filter (· ≠ '\r') = '#' :: cs.filter (· ≠ '\r') := rfl
    change comments (('#' :: cs).filter (· ≠ '\r')) = comments ('#' :: cs)
    rw [mark, comments_mark, comments_mark, comment_withoutReturns skips]
    exact congrArg _ (ih skips)
  | case8 => cases skips

theorem comments_append (skips : skip? false cs = some b) (ends : EndsLine b rest) :
    comments (cs ++ rest) = comments cs + comments rest :=
  comments_skip? skips ends

theorem Skipped.comments_append (skipped : Skipped cs) (rest : List Char) :
    comments (cs ++ rest) = comments cs + comments rest :=
  Toml.comments_append skipped nofun

theorem LineEnd.comments_append (line : LineEnd cs) (rest : List Char) :
    comments (cs ++ '\n' :: rest) = comments cs + comments rest := by
  obtain ⟨b, skips⟩ := line.skips
  have newline : isTextChar '\n' = false := by decide
  have ends : EndsLine b ('\n' :: rest) := fun _ => by simpa using newline
  rw [Toml.comments_append skips ends, comments_plain (by decide)]

theorem trivia_split {reversed inside : List Char}
    (read : trivia b reversed cs = some (inside, rest)) : reversed.reverse ++ cs = inside ++ rest := by
  fun_induction trivia b reversed cs <;> grind

theorem comments_of_trivia (read : trivia false [] cs = some (before, rest)) :
    comments cs = comments before + comments rest := by
  obtain ⟨skipped, b, same, skips, closed⟩ := skip?_of_trivia read
  obtain rfl : before = skipped := same
  have whole : cs = before ++ rest := trivia_split read
  rw [whole]
  refine comments_append skips fun inComment => ?_
  cases rest with
  | nil => simp
  | cons c rest => exact absurd (closed (List.cons_ne_nil _ _)) (by simp [inComment])

theorem comments_of_blanks (cs : List Char) : comments (blanks cs).2 = comments cs := by
  have whole : (blanks cs).1 ++ (blanks cs).2 = cs := List.takeWhile_append_dropWhile
  rw [← comments_append_of_blank (allBlank_blanks cs) (blanks cs).2, whole]

theorem comments_of_lineEnd? (read : lineEnd? cs = some rest) :
    comments cs = comments rest ∧ ∀ c ∈ cs.head?, isTextChar c = false := by
  have newline : isTextChar '\n' = false := by decide
  have ret : isTextChar '\r' = false := by decide
  unfold lineEnd? at read
  split at read
  · cases read
    simp
  · cases read
    exact ⟨comments_plain (by decide) _, by simpa using newline⟩
  · cases read
    rw [comments_plain (by decide), comments_plain (by decide)]
    exact ⟨rfl, by simpa using ret⟩
  · cases read

theorem comments_of_lineTail {inside : List Char} (read : lineTail cs = some (inside, rest)) :
    comments cs = comments inside + comments rest := by
  have line := lineEnd_of_lineTail read
  obtain ⟨b, skips⟩ := line.skips
  have whole : (blanks cs).1 ++ (blanks cs).2 = cs := List.takeWhile_append_dropWhile
  unfold lineTail at read
  generalize blanks cs = parts at read whole
  obtain ⟨before, behind⟩ := parts
  simp only at read whole
  obtain ⟨more, ended, same⟩ := Option.map_eq_some_iff.mp read
  cases same
  obtain ⟨told, stops⟩ := comments_of_lineEnd? ended
  generalize found : (if behind.head? = some '#' then behind.takeWhile isTextChar else []) = comment
    at ended skips told stops
  have split : behind = comment ++ behind.drop comment.length := by
    rw [← found]
    split
    · exact (List.prefix_iff_eq_append.mp (List.takeWhile_prefix _)).symm
    · rfl
  rw [← whole, ← told, ← comments_append skips fun _ => stops, List.append_assoc, ← split]

/-! ### Keys -/

theorem quoted?_of_quotedKey? {lexeme : Lexeme} (read : quotedKey? cs = some (lexeme, rest))
    (apart : ∀ c ∈ rest.head?, isQuote c = false) : quoted? cs = some (lexeme, rest) := by
  unfold quoted?
  split
  · next mark d e more =>
    split
    · next marks =>
      -- Two marks are an empty key, and the third one comes right after it.
      obtain ⟨⟨isMark, rfl⟩, rfl⟩ : (isQuote mark = true ∧ d = mark) ∧ e = mark := by
        simpa [isQuote] using marks
      have ends : scanLine e (hasEscapes e) [] (e :: e :: more) = some ([], e :: more) := by
        simp [scanLine]
      rw [quotedKey?_mark isMark, quotedLine, ends] at read
      obtain ⟨_, _, same⟩ := Option.map_eq_some_iff.mp read
      cases same
      simp [apart e rfl] at isMark
    · exact read
  · exact read

theorem isPlain_of_isBareKeyChar (bare : isBareKeyChar c = true) : isPlain c = true := by
  have mark : c ≠ '#' := (not_skipped_of_key (.inr bare)).2.2.2.1
  simp [isPlain, mark, isQuote_of_isBareKeyChar bare]

theorem comments_of_simpleKey? {lexeme : Lexeme} (read : simpleKey? cs = some (lexeme, rest))
    (apart : ∀ c ∈ rest.head?, isQuote c = false) : comments cs = comments rest := by
  unfold simpleKey? at read
  split at read
  · next found => exact comments_quoted (quoted?_of_quotedKey? (read ▸ found) apart)
  · simp only at read
    split at read
    · cases read
    · cases read
      have bare : ∀ c ∈ cs.takeWhile isBareKeyChar, isPlain c = true := fun c mem =>
        isPlain_of_isBareKeyChar (List.all_eq_true.mp List.all_takeWhile c mem)
      have whole := comments_append_of_plain bare (cs.dropWhile isBareKeyChar)
      rwa [List.takeWhile_append_dropWhile] at whole

theorem quote_append (blank : AllBlank before) (apart : ∀ c ∈ rest.head?, isQuote c = false) :
    ∀ c ∈ (before ++ rest).head?, isQuote c = false := by
  cases before with
  | nil => exact apart
  | cons d before =>
    rintro c first
    obtain rfl : d = c := by simpa using first
    have plain : d ≠ '#' ∧ isQuote d = false := by
      simpa [isPlain] using isPlain_of_isBlank (blank d List.mem_cons_self)
    exact plain.2

theorem comments_of_segment? {segment : Segment} (read : segment? cs = some (segment, rest))
    (apart : ∀ c ∈ rest.head?, isQuote c = false) : comments cs = comments rest := by
  obtain ⟨key, behind, found, rfl, rfl⟩ := segment?_eq_some read
  have whole : (blanks behind).1 ++ (blanks behind).2 = behind := List.takeWhile_append_dropWhile
  have next := quote_append (allBlank_blanks behind) apart
  rw [whole] at next
  rw [← comments_of_blanks cs, comments_of_simpleKey? found next, comments_of_blanks]

theorem comments_of_segments? {segments : List Segment} (read : segments? cs = some (segments, rest))
    (apart : ∀ c ∈ rest.head?, isQuote c = false) : comments cs = comments rest := by
  fun_induction segments? cs generalizing segments rest with
  | case1 => cases read
  | case2 cs segment inner found _ ih =>
    obtain ⟨⟨more, _⟩, later, same⟩ := Option.map_eq_some_iff.mp read
    cases same
    have dot : isQuote '.' = false := by decide
    rw [comments_of_segment? found (by simpa using dot), comments_plain (by decide), ih later apart]
  | case3 cs segment inner _ found =>
    cases read
    exact comments_of_segment? found apart

theorem comments_of_keyPath? {keys : List Key × Key} (read : keyPath? cs = some (keys, rest))
    (apart : ∀ c ∈ rest.head?, isQuote c = false) : comments cs = comments rest := by
  obtain ⟨_, found, _⟩ := keyPath?_eq_some read
  exact comments_of_segments? found apart

theorem Key.Kept.comments_append {k : Key} (kept : k.Kept)
    (bare : ∀ c ∈ rest.head?, isBareKeyChar c = false)
    (quote : ∀ c ∈ rest.head?, isQuote c = false) :
    comments (k.text.toList ++ rest) = comments rest :=
  comments_of_simpleKey? (kept.text rest bare) quote

theorem comments_keysText {path : List Key} (kept : ∀ k ∈ path, k.Kept)
    (bare : ∀ c ∈ rest.head?, isBareKeyChar c = false)
    (quote : ∀ c ∈ rest.head?, isQuote c = false) :
    comments ((keysText path).toList ++ rest) = comments rest := by
  induction path with
  | nil => rfl
  | cons key path ih =>
    obtain ⟨own, kept⟩ := List.forall_mem_cons.mp kept
    cases path with
    | nil => exact own.comments_append bare quote
    | cons next path =>
      have right : AllBlank (key.dotted.right .tight).toList :=
        own.dotted.right AllBlank.nil fun _ => AllBlank.withoutReturns
      have left : AllBlank (next.dotted.left .tight).toList :=
        (kept next List.mem_cons_self).dotted.left AllBlank.nil fun _ => AllBlank.withoutReturns
      have text : (keysText (key :: next :: path)).toList ++ rest =
          key.text.toList ++ ((key.dotted.right .tight).toList ++
            '.' :: ((next.dotted.left .tight).toList ++ ((keysText (next :: path)).toList ++ rest))) := by
        rw [keysText, dottedTail_cons]
        · simp
        · simp
      have dot : isBareKeyChar '.' = false ∧ isQuote '.' = false := by decide
      rw [text, own.comments_append (bare_append right (by simpa using dot.1))
        (quote_append right (by simpa using dot.2)), comments_append_of_blank right,
        comments_plain (by decide), comments_append_of_blank left, ih kept]

end

end ClassDiagram.Toml
