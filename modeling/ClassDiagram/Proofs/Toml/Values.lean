import ClassDiagram.Proofs.Toml.Fields
import ClassDiagram.Proofs.Toml.Readers

/-! Values, read again where they are written. A value that was read, or made, keeps its data when
its text is read in another place, and it is written again as that text. -/

namespace ClassDiagram.Toml

namespace Value

/-! ### The text of a value, apart from the layout around it -/

def decor : Value → Decor
  | scalar _ _ decor => decor
  | array _ _ _ decor => decor
  | inline _ _ _ decor => decor

def body : Value → String
  | scalar content spelling _ => spelling.getD (String.ofList (spellScalar content))
  | array items comma trailing _ =>
    "[" ++ joinItems (itemTexts items) ++ (if comma then "," else "") ++ withoutReturns trailing ++
      "]"
  | inline _ preamble entries _ =>
    "\x7b" ++ withoutReturns preamble ++ joinPairs (entryTexts [] entries) ++ "\x7d"

section

variable (v : Value) (d : Decor)

theorem text_eq (usual : Usual) : v.text usual = v.decor.wrap usual v.body := by
  cases v <;> simp only [text, decor, body]

@[simp] theorem decor_withDecor : (v.withDecor d).decor = d := by cases v <;> rfl

@[simp] theorem body_withDecor : (v.withDecor d).body = v.body := by cases v <;> rfl

@[simp] theorem data_withDecor : (v.withDecor d).data = v.data := by cases v <;> rfl

@[simp] theorem isDotted_withDecor : (v.withDecor d).isDotted = v.isDotted := by cases v <;> rfl

end

/-- A value whose text, read again, gives the same data and the same text, if nothing goes on with
it. -/
structure Rereads (v : Value) : Prop where
  leaf : v.isDotted = false
  opens : Opens v.body.toList
  closed : ∀ c ∈ v.body.toList.head?, c ≠ ']'
  again : ∀ depth rest v' rest', Stops rest →
    value? depth (v.body.toList ++ rest) = some (v', rest') →
      rest' = rest ∧ v'.data = v.data ∧ v'.isDotted = false ∧ v'.body = v.body

theorem Rereads.withDecor {v : Value} (rereads : v.Rereads) (d : Decor) :
    (v.withDecor d).Rereads where
  leaf := by simpa using rereads.leaf
  opens := by simpa using rereads.opens
  closed := by simpa using rereads.closed
  again := by simpa using rereads.again

end Value

/-! ### Scalars -/

theorem quoted?_of_head {cs : List Char} (other : ∀ c ∈ cs.head?, isQuote c = false) :
    quoted? cs = none := by
  have key := quotedKey?_of_head other
  unfold quoted?
  split
  · next c d e rest =>
    have plain : (c = '"' || c = '\'') = false := by simpa [isQuote] using other c rfl
    rw [plain]
    exact key
  · exact key

theorem not_bracket_of_scalar {c : Char} (scalar : isQuote c = true ∨ isWordChar c = true) :
    isBlank c = false ∧ c ≠ '\n' ∧ c ≠ '\r' ∧ c ≠ '#' ∧ c ≠ ']' ∧ c ≠ '[' ∧ c ≠ '\x7b' := by
  have other : ∀ d, isQuote d = false → isWordChar d = false → c ≠ d := by
    rintro d quote word rfl
    simp [quote, word] at scalar
  have space : c ≠ ' ' := other ' ' (by decide) (by decide)
  have tab : c ≠ '\t' := other '\t' (by decide) (by decide)
  exact ⟨by simp [isBlank, space, tab], other _ (by decide) (by decide),
    other _ (by decide) (by decide), other _ (by decide) (by decide),
    other _ (by decide) (by decide), other _ (by decide) (by decide),
    other _ (by decide) (by decide)⟩

theorem value?_of_scalar {c : Char} (scalar : isQuote c = true ∨ isWordChar c = true) (depth : Nat)
    (cs : List Char) : value? depth (c :: cs) = scalar? (c :: cs) := by
  obtain ⟨_, _, _, _, _, bracket, brace⟩ := not_bracket_of_scalar scalar
  exact value?_scalar depth (fun rest same => bracket (List.cons.inj same).1)
    fun rest same => brace (List.cons.inj same).1

theorem rereads_of_head {content : Scalar} {spelling : Option String} {decor : Decor} {c : Char}
    {inside : List Char} (body : (Value.scalar content spelling decor).body.toList = c :: inside)
    (scalar : isQuote c = true ∨ isWordChar c = true)
    (again : ∀ rest, Stops rest → scalar? (c :: inside ++ rest) =
      some (.scalar content (some (String.ofList (c :: inside))) .none, rest)) :
    (Value.scalar content spelling decor).Rereads := by
  obtain ⟨blank, line, ret, comment, closed, _⟩ := not_bracket_of_scalar scalar
  refine ⟨rfl, ⟨c, inside, body, blank, line, ret, comment⟩, ?_, ?_⟩
  · rw [body]
    simpa using closed
  · intro depth rest v' rest' stops read
    rw [body, List.cons_append, value?_of_scalar scalar, ← List.cons_append, again rest stops] at read
    cases read
    refine ⟨rfl, rfl, rfl, ?_⟩
    rw [← String.ofList_toList (s := (Value.scalar content spelling decor).body), body]
    rfl

theorem head_of_splitWord {cs word rest : List Char} {c : Char}
    (split : splitWord cs = (c :: word, rest)) : isWordChar c = true := by
  have letters : ∀ d ∈ cs.takeWhile isWordChar, isWordChar d = true :=
    List.all_eq_true.mp List.all_takeWhile
  rw [splitWord_eq_joinTime] at split
  generalize cs.takeWhile isWordChar = taken at split letters
  generalize cs.dropWhile isWordChar = left at split
  unfold joinTime at split
  cases taken with
  | nil =>
    have undated : isDate [] = false := by decide
    simp only [undated, Bool.false_and] at split
    split at split <;> cases split
  | cons d taken =>
    have first : d = c := by
      split at split
      · split at split <;> cases split <;> rfl
      · cases split
        rfl
    exact first ▸ letters d List.mem_cons_self

theorem isQuote_of_isWordChar {c : Char} (letter : isWordChar c = true) : isQuote c = false := by
  cases quote : isQuote c with
  | false => rfl
  | true =>
    have cases : c = '"' ∨ c = '\'' := by simpa [isQuote] using quote
    obtain rfl | rfl := cases <;> exact absurd letter (by decide)

theorem scalar?_word {c : Char} {word rest : List Char} {content : Scalar}
    (letter : isWordChar c = true) (told : scalarOf? (c :: word) = some content)
    (split : splitWord (c :: word ++ rest) = (c :: word, rest)) :
    scalar? (c :: word ++ rest) =
      some (.scalar content (some (String.ofList (c :: word))) .none, rest) := by
  rw [scalar?, quoted?_of_head (by simpa using isQuote_of_isWordChar letter), split]
  simp only [told, Option.map_some]

theorem rereads_of_scalar? {cs rest : List Char} {v : Value} (read : scalar? cs = some (v, rest)) :
    v.Rereads := by
  unfold scalar? at read
  split at read
  · next lexeme rest found =>
    cases read
    obtain ⟨mark, inside, isMark, spelling, again⟩ := quoted?_again found
    refine rereads_of_head (by simpa [Value.body] using spelling) (.inl isMark) fun rest stops => ?_
    rw [scalar?, again rest stops.quote, ← spelling]
  · split at read
    · cases read
    · next c word rest split =>
      obtain ⟨content, told, same⟩ := Option.map_eq_some_iff.mp read
      cases same
      have letter := head_of_splitWord split
      have body : (Value.scalar content (some (String.ofList (c :: word))) .none).body.toList =
          c :: word := by simp [Value.body]
      refine rereads_of_head body (.inr letter) fun rest stops => ?_
      exact scalar?_word letter told (splitWord_again split stops)

/-! What is made, and so has no spelling, rereads as well. -/

theorem rereads_text (content : String) (decor : Decor) :
    (Value.scalar (.text content) none decor).Rereads := by
  have read := fun (rest : List Char) (apart : ∀ c ∈ rest.head?, isQuote c = false) =>
    quoted?_spellText apart content.toList
  obtain ⟨mark, inside, isMark, spelling, _⟩ := quoted?_again (read [] (by simp))
  simp only at spelling
  refine rereads_of_head (by simpa [Value.body, spellScalar] using spelling) (.inl isMark)
    fun rest stops => ?_
  have again := read rest stops.quote
  rw [spelling] at again
  rw [scalar?, again, String.ofList_toList]

theorem rereads_bool (b : Bool) (decor : Decor) :
    (Value.scalar (.bool b) none decor).Rereads := by
  have word : ∀ {c word rest}, (∀ d ∈ c :: word, isWordChar d = true) → Stops rest →
      splitWord (c :: word ++ rest) = (c :: word, rest) := by
    intro c word rest letters stops
    rw [splitWord_append letters stops.word, joinTime_of_stops stops]
  cases b with
  | true =>
    have body : (Value.scalar (.bool true) none decor).body.toList = ['t', 'r', 'u', 'e'] := by
      simp [Value.body, spellScalar]
    have told : scalarOf? ['t', 'r', 'u', 'e'] = some (.bool true) := by decide
    refine rereads_of_head body (.inr (by decide)) fun rest stops => ?_
    exact scalar?_word (by decide) told (word (List.all_eq_true.mp (by decide)) stops)
  | false =>
    have body : (Value.scalar (.bool false) none decor).body.toList = ['f', 'a', 'l', 's', 'e'] := by
      simp [Value.body, spellScalar]
    have told : scalarOf? ['f', 'a', 'l', 's', 'e'] = some (.bool false) := by decide
    refine rereads_of_head body (.inr (by decide)) fun rest stops => ?_
    exact scalar?_word (by decide) told (word (List.all_eq_true.mp (by decide)) stops)

/-! ### Arrays -/

namespace Value

theorem itemTexts_eq_map (items : List Value) : itemTexts items = items.map text := by
  induction items with
  | nil => rfl
  | cons v items ih => rw [itemTexts, ih]; rfl

theorem dataItems_eq_map (items : List Value) : dataItems items = items.map data := by
  induction items with
  | nil => rfl
  | cons v items ih => rw [dataItems, ih]; rfl

structure InArray (v : Value) : Prop where
  rereads : v.Rereads
  sides : v.decor.Sides Skipped Skipped

def moreItems (items : List Value) : String :=
  String.join (items.map fun v => "," ++ v.text .spaceBefore)

theorem joinItems_cons (v : Value) (items : List Value) :
    joinItems (itemTexts (v :: items)) = v.text .tight ++ moreItems items := by
  rw [itemTexts_eq_map, List.map_cons, joinItems, moreItems, List.map_map]
  rfl

theorem moreItems_cons (v : Value) (items : List Value) :
    moreItems (v :: items) = "," ++ v.text .spaceBefore ++ moreItems items := by
  simp [moreItems, String.join_cons]

end Value

theorem Skipped.withoutReturns {cs : List Char} (skipped : Skipped cs) :
    Skipped (cs.filter (· ≠ '\r')) := skip?_withoutReturns skipped

theorem Skipped.nil : Skipped [] := rfl

theorem opens_closer {c : Char} {rest : List Char} (closes : isCloser c = true) (line : c ≠ '\n') :
    Opens (c :: rest) := by
  have cases : ((c = ',' ∨ c = ']') ∨ c = '\x7d') ∨ c = '\n' := by simpa [isCloser] using closes
  refine ⟨c, rest, rfl, ?_⟩
  obtain ((rfl | rfl) | rfl) | rfl := cases
  · decide
  · decide
  · decide
  · exact absurd rfl line

section

variable {v v' : Value} {depth : Nat} {reversed : List Value} {t rest rest' : List Char}

theorem items?_close (skipped : Skipped t) :
    items? depth reversed (t ++ ']' :: rest) =
      some (.array reversed.reverse (!reversed.isEmpty) (String.ofList t) .none, rest) := by
  rw [items?_eq, trivia_skipped skipped (opens_closer (by decide) (by decide))]
  rfl

theorem items?_step {cs before inner : List Char} (skip : trivia false [] cs = some (before, inner))
    (open_ : ∀ more, inner ≠ ']' :: more) :
    items? depth reversed cs =
      (value? depth inner).bind fun (v, rest) =>
        match trivia false [] rest with
        | some (after, ',' :: more) =>
          items? depth (v.withDecor (.around (String.ofList before) (String.ofList after)) ::
            reversed) more
        | some (after, ']' :: more) =>
          some (.array (v.withDecor (.around (String.ofList before) (String.ofList after)) ::
            reversed).reverse false "" .none, more)
        | _ => none := by
  rw [items?_eq, skip]
  split
  · next none => cases none
  · next same =>
    cases same
    exact absurd rfl (open_ _)
  · next same =>
    cases same
    rfl

theorem items?_item (kept : v.InArray) {usual : Usual} (before : Skipped usual.before.toList)
    (after : Skipped usual.after.toList) (skipped : Skipped t) (still : '\r' ∉ t) {c : Char}
    (close : c = ',' ∨ c = ']')
    (read : items? depth reversed ((v.text usual).toList ++ t ++ c :: rest) = some (v', rest')) :
    ∃ w, w.data = v.data ∧ (∀ u, w.text u = v.text usual ++ String.ofList t) ∧
      (c = ',' → items? depth (w :: reversed) rest = some (v', rest')) ∧
      (c = ']' → rest' = rest ∧ v' = .array (w :: reversed).reverse false "" .none) := by
  have left : Skipped (v.decor.left usual).toList :=
    kept.sides.left before fun _ => Skipped.withoutReturns
  have right : Skipped ((v.decor.right usual).toList ++ t) :=
    (kept.sides.right after fun _ => Skipped.withoutReturns).append skipped
  have closes : isCloser c = true := by obtain rfl | rfl := close <;> decide
  have ends : Opens (c :: rest) := opens_closer closes (by rintro rfl; simp at close)
  have text : (v.text usual).toList ++ t ++ c :: rest = (v.decor.left usual).toList ++
      (v.body.toList ++ ((v.decor.right usual).toList ++ t ++ c :: rest)) := by
    simp [v.text_eq, Decor.wrap]
  obtain ⟨d, inside, body, opens⟩ := kept.rereads.opens
  have here : Opens (v.body.toList ++ ((v.decor.right usual).toList ++ t ++ c :: rest)) :=
    ⟨d, _, by rw [body]; rfl, opens⟩
  have open_ : d ≠ ']' := kept.rereads.closed d (by rw [body]; rfl)
  have other : ∀ more, v.body.toList ++ ((v.decor.right usual).toList ++ t ++ c :: rest) ≠
      ']' :: more := by
    rw [body]
    exact fun more same => open_ (List.cons.inj same).1
  rw [text, items?_step (trivia_skipped left here) other, Option.bind_eq_some_iff] at read
  obtain ⟨⟨w, behind⟩, read, next⟩ := read
  obtain ⟨rfl, same, _, again⟩ := kept.rereads.again _ _ _ _ (stops_of_skip? right closes) read
  simp only [trivia_skipped right ends] at next
  refine ⟨w.withDecor (.around (String.ofList (v.decor.left usual).toList)
    (String.ofList ((v.decor.right usual).toList ++ t))), by simpa using same, fun u => ?_, ?_, ?_⟩
  · have behind : withoutReturns (String.ofList ((v.decor.right usual).toList ++ t)) =
        v.decor.right usual ++ String.ofList t := by
      rw [withoutReturns_of_notMem (by simpa [toList_right] using still)]
      simp
    rw [Value.text_eq, Value.text_eq, Value.decor_withDecor, Value.body_withDecor, again, Decor.wrap,
      Decor.left_around, Decor.right_around, behind, String.ofList_toList, Decor.withoutReturns_left,
      Decor.wrap, ← String.append_assoc]
  · rintro rfl
    exact next
  · rintro rfl
    cases next
    exact ⟨rfl, rfl⟩

theorem items?_again {more : List Value} (kept : v.InArray) (others : ∀ w ∈ more, w.InArray)
    {usual : Usual} (before : Skipped usual.before.toList) (after : Skipped usual.after.toList)
    (comma : Bool) (trailing : Skipped t) (still : '\r' ∉ t)
    (read : items? depth reversed ((v.text usual).toList ++ (Value.moreItems more).toList ++
      (if comma then [','] else []) ++ t ++ ']' :: rest) = some (v', rest')) :
    rest' = rest ∧ ∃ w ws comma' trailing',
      v' = .array (reversed.reverse ++ w :: ws) comma' trailing' .none ∧
      (w :: ws).map Value.data = (v :: more).map Value.data ∧
      ∀ u, w.text u ++ Value.moreItems ws ++ (if comma' then "," else "") ++
        withoutReturns trailing' =
          v.text usual ++ Value.moreItems more ++ (if comma then "," else "") ++ String.ofList t := by
  induction more generalizing v usual reversed with
  | nil =>
    cases comma with
    | true =>
      have text : (v.text usual).toList ++ (Value.moreItems []).toList ++
          (if true = true then [','] else []) ++ t ++ ']' :: rest =
            (v.text usual).toList ++ [] ++ ',' :: (t ++ ']' :: rest) := by
        simp [Value.moreItems]
      rw [text] at read
      obtain ⟨w, same, written, next, _⟩ :=
        items?_item kept before after .nil List.not_mem_nil (.inl rfl) read
      cases (items?_close trailing).symm.trans (next rfl)
      refine ⟨rfl, w, [], _, _, by rw [List.reverse_cons], by simp [same], fun u => ?_⟩
      rw [written, withoutReturns_of_notMem (by simpa using still)]
      simp [Value.moreItems]
    | false =>
      have text : (v.text usual).toList ++ (Value.moreItems []).toList ++
          (if false = true then [','] else []) ++ t ++ ']' :: rest =
            (v.text usual).toList ++ t ++ ']' :: rest := by
        simp [Value.moreItems]
      rw [text] at read
      obtain ⟨w, same, written, _, closed⟩ :=
        items?_item kept before after trailing still (.inr rfl) read
      obtain ⟨rfl, rfl⟩ := closed rfl
      refine ⟨rfl, w, [], _, _, by rw [List.reverse_cons], by simp [same], fun u => ?_⟩
      rw [written, withoutReturns_of_notMem (by simp)]
      simp [Value.moreItems]
  | cons next more ih =>
    obtain ⟨own, others⟩ := List.forall_mem_cons.mp others
    have text : (v.text usual).toList ++ (Value.moreItems (next :: more)).toList ++
        (if comma then [','] else []) ++ t ++ ']' :: rest = (v.text usual).toList ++ [] ++
          ',' :: ((next.text .spaceBefore).toList ++ (Value.moreItems more).toList ++
            (if comma then [','] else []) ++ t ++ ']' :: rest) := by
      simp [Value.moreItems_cons]
    rw [text] at read
    obtain ⟨w, same, written, later, _⟩ :=
      items?_item kept before after .nil List.not_mem_nil (.inl rfl) read
    obtain ⟨rfl, w', ws, comma', trailing', rfl, data, texts⟩ := ih own others
      (show Skipped Usual.spaceBefore.before.toList from rfl) rfl (later rfl)
    refine ⟨rfl, w, w' :: ws, comma', trailing', by simp, by rw [List.map_cons, data, same]; rfl,
      fun u => ?_⟩
    have texts := texts .spaceBefore
    simp only [String.append_assoc] at texts
    simp only [written, Value.moreItems_cons, String.append_assoc, texts]
    simp

theorem Value.Rereads.inArray {v : Value} {before after : List Char} (rereads : v.Rereads)
    (left : Skipped before) (right : Skipped after) :
    (v.withDecor (.around (String.ofList before) (String.ofList after))).InArray := by
  refine ⟨rereads.withDecor _, ?_⟩
  constructor <;> simp [Decor.around, left, right]

theorem rereads_of_array {items : List Value} {comma : Bool} {trailing : String} {decor : Decor}
    (kept : ∀ v ∈ items, v.InArray) (skipped : Skipped trailing.toList)
    (some : comma = true → items ≠ []) : (Value.array items comma trailing decor).Rereads := by
  have body : (Value.array items comma trailing decor).body.toList =
      '[' :: ((joinItems (Value.itemTexts items)).toList ++ (if comma then [','] else []) ++
        trailing.toList.filter (· ≠ '\r') ++ [']']) := by
    cases comma <;> simp [Value.body, toList_withoutReturns]
  refine ⟨rfl, ⟨'[', _, body, by decide⟩, by rw [body]; simp, ?_⟩
  intro depth rest v' rest' _ read
  rw [body, List.cons_append, value?_bracket] at read
  split at read
  · cases read
  · cases items with
    | nil =>
      obtain rfl : comma = false := by
        cases comma with
        | false => rfl
        | true => exact absurd rfl (some rfl)
      have closed := @items?_close (depth - 1) [] _ rest skipped.withoutReturns
      simp [Value.itemTexts, joinItems] at read closed
      rw [closed] at read
      cases read
      refine ⟨rfl, rfl, rfl, ?_⟩
      simp only [Value.body, Value.itemTexts, joinItems]
      rw [withoutReturns_of_notMem (by simp)]
      simp [withoutReturns]
    | cons v items =>
      obtain ⟨own, others⟩ := List.forall_mem_cons.mp kept
      have again := @items?_again v v' (depth - 1) [] _ rest rest' items own others .tight rfl rfl
        comma skipped.withoutReturns (by simp)
      rw [Value.joinItems_cons] at read
      obtain ⟨rfl, w, ws, comma', trailing', rfl, data, texts⟩ := again (by simpa using read)
      refine ⟨rfl, ?_, rfl, ?_⟩
      · simpa [Value.data, Value.dataItems_eq_map] using data
      · have texts := congrArg (fun text => "[" ++ text ++ "]") (texts .tight)
        rw [show String.ofList (trailing.toList.filter (· ≠ '\r')) = withoutReturns trailing from rfl]
          at texts
        simpa only [Value.body, List.reverse_nil, List.nil_append, Value.joinItems_cons,
          ← String.append_assoc] using texts

end

/-! ### Inline tables -/

section

variable {p : List Key × Value} {v v' : Value} {depth : Nat} {reversed : List Pair}
  {t rest rest' : List Char} {entries : InlineEntries}

/-- A value that rereads under a key that does, with blanks around both. -/
structure Key.Holds (key : Key) (v : Value) : Prop where
  own : key.Kept
  blank : key.leaf.Blank
  rereads : v.Rereads
  sides : v.decor.Blank

structure Pair.Kept (p : Pair) : Prop where
  path : ∀ k ∈ p.path, k.Kept
  holds : p.key.Holds p.value

/-- A pair that is read where a value is written under a dotted key, and is written as it was. -/
structure Pair.Again (p : Pair) (q : List Key × Value) (usual : Usual) : Prop where
  fits : p.Fits true q
  key : keysText (p.path ++ [p.key]) = keysText q.1
  sides : ∀ last ∈ q.1.getLast?, ∀ text, p.key.leaf.wrap .spaced text = last.leaf.wrap .spaced text
  value : ∀ u, p.value.text u = q.2.text usual

theorem inlineOf?_kept {pairs : List Pair} (kept : ∀ p ∈ pairs, p.Kept)
    (made : inlineOf? pairs = some v) :
    ∃ entries, v = .inline false "" entries .none ∧ InlineKept Key.Kept Key.Holds entries := by
  have all : ∀ {known entries}, InlineKept Key.Kept Key.Holds known →
      pairs.foldlM (fun entries p => placeInline p.key p.value p.path entries) known =
        some entries → InlineKept Key.Kept Key.Holds entries := by
    clear made
    intro known entries soFar folded
    induction pairs generalizing known with
    | nil =>
      cases folded
      exact soFar
    | cons p pairs ih =>
      obtain ⟨own, kept⟩ := List.forall_mem_cons.mp kept
      rw [List.foldlM_cons] at folded
      obtain ⟨next, placed, folded⟩ := Option.bind_eq_some_iff.mp folded
      exact ih kept (soFar.placeInline own.path own.holds.rereads.leaf own.holds placed).1 folded
  obtain ⟨entries, folded, same⟩ := Option.map_eq_some_iff.mp made
  exact ⟨entries, same.symm, all .nil folded⟩

theorem allBlank_left {d : Decor} (blank : d.Blank) {usual : Usual}
    (other : AllBlank usual.before.toList) : AllBlank (d.left usual).toList :=
  blank.left other fun _ => AllBlank.withoutReturns

theorem allBlank_right {d : Decor} (blank : d.Blank) {usual : Usual}
    (other : AllBlank usual.after.toList) : AllBlank (d.right usual).toList :=
  blank.right other fun _ => AllBlank.withoutReturns

theorem blank_of_closer {c : Char} {rest : List Char} (closes : isCloser c = true) :
    ∀ d ∈ (c :: rest).head?, isBlank d = false := by
  have cases : ((c = ',' ∨ c = ']') ∨ c = '\x7d') ∨ c = '\n' := by simpa [isCloser] using closes
  obtain ((rfl | rfl) | rfl) | rfl := cases <;> simp [isBlank]

theorem endsKey_equals (rest : List Char) : EndsKey ('=' :: rest) where
  bare := by simp; decide
  blank := by simp [isBlank]
  dot := by simp

theorem pairs?_item {front : List Key} {key : Key} (keys : ∀ k ∈ front, k.Kept)
    (holds : key.Holds v) {usual : Usual} (before : AllBlank usual.before.toList)
    (after : AllBlank usual.after.toList) {c : Char} (close : c = ',' ∨ c = '\x7d')
    (read : pairs? depth reversed ((pathText .spaced (front ++ [key])).toList ++
      '=' :: ((v.text usual).toList ++ c :: rest)) = some (v', rest')) :
    ∃ p : Pair, p.Again (front ++ [key], v) usual ∧
      (c = ',' → pairs? depth (p :: reversed) rest = some (v', rest')) ∧
      (c = '\x7d' → rest' = rest ∧ inlineOf? (p :: reversed).reverse = some v') := by
  have closes : isCloser c = true := by obtain rfl | rfl := close <;> decide
  have opening := allBlank_left holds.blank
    (show AllBlank Usual.spaced.before.toList from List.all_eq_true.mp rfl)
  have closing := allBlank_right holds.blank
    (show AllBlank Usual.spaced.after.toList from List.all_eq_true.mp rfl)
  have left := allBlank_left holds.sides before
  have right := allBlank_right holds.sides after
  have path : front ++ [key] ≠ [] := by simp
  have kept : ∀ k ∈ front ++ [key], k.Kept :=
    List.forall_mem_append.mpr ⟨keys, by simpa using holds.own⟩
  have text : (pathText .spaced (front ++ [key])).toList ++ '=' :: ((v.text usual).toList ++
      c :: rest) = (key.leaf.left .spaced).toList ++ (keysText (front ++ [key])).toList ++
          (key.leaf.right .spaced).toList ++ '=' :: ((v.decor.left usual).toList ++
            (v.body.toList ++ ((v.decor.right usual).toList ++ c :: rest))) := by
    rw [pathText_eq _ path]
    simp [v.text_eq, Decor.wrap]
  rw [text] at read
  obtain ⟨d, more, body, opens⟩ := holds.rereads.opens
  obtain ⟨k, more', written, isKey⟩ := head_keysText path kept
  -- No key begins with the brace that closes a table without pairs.
  have some : ∀ b r, blanks ((key.leaf.left .spaced).toList ++
      (keysText (front ++ [key])).toList ++ (key.leaf.right .spaced).toList ++ '=' ::
        ((v.decor.left usual).toList ++ (v.body.toList ++ ((v.decor.right usual).toList ++
          c :: rest)))) ≠ (b, '\x7d' :: r) := by
    intro b r same
    rw [List.append_assoc, List.append_assoc, blanks_split opening] at same
    · rw [written] at same
      exact (not_skipped_of_key isKey).2.2.2.2.2 (List.cons.inj (Prod.mk.inj same).2).1
    · rw [written]
      simpa using (not_skipped_of_key isKey).1
  rw [pairs?_pair depth fun _ => some] at read
  split at read
  · next path' key' behind found =>
    obtain ⟨same, again⟩ := keyPath?_again path kept opening closing (endsKey_equals _) found
    obtain ⟨named, _, around, _⟩ := last_keysAgain again
    cases same
    have value : blanks ((v.decor.left usual).toList ++ (v.body.toList ++
        ((v.decor.right usual).toList ++ c :: rest))) =
          ((v.decor.left usual).toList, v.body.toList ++
            ((v.decor.right usual).toList ++ c :: rest)) := by
      refine blanks_split left ?_
      rw [body]
      simpa using opens.1
    rw [value] at read
    obtain ⟨⟨w, behind⟩, read, next⟩ := Option.bind_eq_some_iff.mp read
    obtain ⟨rfl, same, leaf, reread⟩ := holds.rereads.again _ _ _ _
      (stops_of_skip? (skip?_of_blank right) closes) read
    have tail : blanks ((v.decor.right usual).toList ++ c :: rest) =
        ((v.decor.right usual).toList, c :: rest) := blanks_split right (blank_of_closer closes)
    simp only [tail] at next
    refine ⟨⟨path', key', w.withDecor (.around (String.ofList (v.decor.left usual).toList)
      (String.ofList (v.decor.right usual).toList))⟩, ⟨⟨⟨front, key, rfl, ?_, named⟩, ?_, ?_⟩, ?_, ?_,
        fun u => ?_⟩, ?_, ?_⟩
    · exact pathLook_keysAgain again
    · rw [Value.data_withDecor, same]
    · simpa using leaf
    · exact keysText_keysAgain again
    · simp [around, Decor.wrap, Decor.left_around, Decor.right_around, Decor.withoutReturns_left,
        Decor.withoutReturns_right]
    · simp [Value.text_eq, reread, Decor.wrap, Decor.left_around, Decor.right_around,
        Decor.withoutReturns_left, Decor.withoutReturns_right]
    · rintro rfl
      exact next
    · rintro rfl
      obtain ⟨made, told, pair⟩ := Option.map_eq_some_iff.mp next
      cases pair
      exact ⟨rfl, told⟩
  · cases read

def Value.LeafKept (p : List Key × Value) : Prop :=
  ∃ front key, p.1 = front ++ [key] ∧ (∀ k ∈ front, k.Kept) ∧ key.Holds p.2

def Value.leafText (p : List Key × Value) : List Key × (Usual → String) := (p.1, p.2.text)

theorem Pair.Again.text {q q' : List Key × Value} {usual : Usual} {p : Pair}
    (again : p.Again q usual) (gives : p.Gives true q') (u : Usual) :
    pathText .spaced q'.1 ++ "=" ++ q'.2.text u = pathText .spaced q.1 ++ "=" ++ q.2.text usual := by
  obtain ⟨front, whole, look⟩ := gives.key
  obtain ⟨front', last, whole', _⟩ := again.fits.key
  have sides := again.sides last (by simp [whole'])
  rw [gives.value, again.value, whole, pathText_eq _ (by simp), keysText_of_look look, again.key,
    List.getLast_concat, sides, whole', pathText_eq _ (by simp), List.getLast_concat]

theorem pairs?_again {first : List Key × Value} {more : List (List Key × Value)}
    (kept : Value.LeafKept first) (others : ∀ p ∈ more, Value.LeafKept p)
    (read : pairs? depth reversed ((joinPairs ((first :: more).map Value.leafText)).toList ++
      '\x7d' :: rest) = some (v', rest')) :
    rest' = rest ∧ ∃ pairs : List Pair, inlineOf? (reversed.reverse ++ pairs) = some v' ∧
      List.Forall₂ (Pair.Fits true) pairs (first :: more) ∧
      ∀ leaves, List.Forall₂ (Pair.Gives true) pairs leaves →
        joinPairs (leaves.map Value.leafText) = joinPairs ((first :: more).map Value.leafText) := by
  induction more generalizing first reversed with
  | nil =>
    obtain ⟨path, v⟩ := first
    obtain ⟨front, key, rfl, keys, holds⟩ := kept
    have text : (joinPairs ([(front ++ [key], v)].map Value.leafText)).toList ++ '\x7d' :: rest =
        (pathText .spaced (front ++ [key])).toList ++
          '=' :: ((v.text .spaced).toList ++ '\x7d' :: rest) := by
      simp [Value.leafText, joinPairs]
    rw [text] at read
    obtain ⟨p, again, _, closed⟩ := pairs?_item keys holds (List.all_eq_true.mp rfl)
      (List.all_eq_true.mp rfl) (.inr rfl) read
    obtain ⟨rfl, made⟩ := closed rfl
    refine ⟨rfl, [p], by simpa using made, .cons again.fits .nil, fun leaves gives => ?_⟩
    obtain ⟨q, _, own, none, rfl⟩ := List.forall₂_cons_left_iff.mp gives
    cases none
    exact again.text own .spaced
  | cons next more ih =>
    obtain ⟨own, others⟩ := List.forall_mem_cons.mp others
    obtain ⟨path, v⟩ := first
    obtain ⟨front, key, rfl, keys, holds⟩ := kept
    have text : (joinPairs (((front ++ [key], v) :: next :: more).map Value.leafText)).toList ++
        '\x7d' :: rest = (pathText .spaced (front ++ [key])).toList ++
          '=' :: ((v.text .spaceBefore).toList ++ ',' ::
            ((joinPairs ((next :: more).map Value.leafText)).toList ++ '\x7d' :: rest)) := by
      simp [Value.leafText, joinPairs]
    rw [text] at read
    obtain ⟨p, again, later, _⟩ := pairs?_item keys holds (List.all_eq_true.mp rfl)
      (List.all_eq_true.mp rfl) (.inl rfl) read
    obtain ⟨rfl, pairs, made, fits, texts⟩ := ih own others (later rfl)
    refine ⟨rfl, p :: pairs, by simpa using made, .cons again.fits fits, fun leaves gives => ?_⟩
    obtain ⟨q, leaves, own, others, rfl⟩ := List.forall₂_cons_left_iff.mp gives
    have rest := texts leaves others
    obtain ⟨q', leaves, rfl⟩ : ∃ q' leaves', leaves = q' :: leaves' := by
      have lengths := others.length_eq.symm.trans fits.length_eq
      cases leaves with
      | nil => simp at lengths
      | cons q' leaves => exact ⟨q', leaves, rfl⟩
    have first := again.text own .spaceBefore
    simp only [List.map_cons, Value.leafText, joinPairs] at rest first ⊢
    rw [first, rest]

theorem pair_kept {cs behind more : List Char} {path : List Key} {key : Key}
    (found : keyPath? cs = some ((path, key), '=' :: behind)) (rereads : v.Rereads) :
    (⟨path, key, v.withDecor (.around (String.ofList (blanks behind).1)
      (String.ofList (blanks more).1))⟩ : Pair).Kept := by
  obtain ⟨keys, own, blank⟩ := keyPath?_kept found
  refine ⟨fun k mem => (keys k mem).1, own, blank, rereads.withDecor _, ?_⟩
  rw [Value.decor_withDecor]
  exact Decor.blank_around (allBlank_blanks _) (allBlank_blanks _)

theorem rereads_of_inline {preamble : String} {decor : Decor} (blank : AllBlank preamble.toList)
    (bare : preamble = "" ∨ entries = []) (kept : InlineKept Key.Kept Key.Holds entries) :
    (Value.inline false preamble entries decor).Rereads := by
  have body : (Value.inline false preamble entries decor).body.toList = '\x7b' ::
      (preamble.toList.filter (· ≠ '\r') ++
        (joinPairs ((Value.leavesOf [] entries).map Value.leafText)).toList ++ ['\x7d']) := by
    have texts := Value.entryTexts_eq_leavesOf [] entries
    simp [Value.body, texts, toList_withoutReturns]
    rfl
  have opening := blank.withoutReturns
  refine ⟨rfl, ⟨'\x7b', _, body, by decide⟩, by rw [body]; simp, ?_⟩
  intro depth rest v' rest' _ read
  rw [body, List.cons_append, value?_brace] at read
  split at read
  · cases read
  · have leaves : ∀ p ∈ Value.leavesOf [] entries, Value.LeafKept p := by
      intro p mem
      obtain ⟨front, key, whole, keys, _, holds⟩ := kept.leaves [] p mem
      exact ⟨front, key, by simpa using whole, keys, holds⟩
    cases written : Value.leavesOf [] entries with
    | nil =>
      obtain rfl : entries = [] := by
        by_contra filled
        exact kept.leavesOf_ne_nil filled written
      have ends : ∀ d ∈ ('\x7d' :: rest).head?, isBlank d = false := blank_of_closer (by decide)
      have empty := pairs?_empty (depth - 1) (blanks_split opening ends)
      simp only [written, List.map_nil, joinPairs, String.toList_empty, List.append_nil,
        List.append_assoc, List.singleton_append] at read
      cases empty.symm.trans read
      refine ⟨rfl, rfl, rfl, ?_⟩
      simp only [Value.body, Value.entryTexts, joinPairs]
      rw [withoutReturns_of_notMem (by simp)]
      simp [withoutReturns]
    | cons first more =>
      obtain rfl : preamble = "" := by
        refine bare.resolve_right ?_
        rintro rfl
        cases written
      have text := Value.entryTexts_eq_leavesOf [] entries
      have fits := fun pairs => @InlineKept.placeAll _ _ [] _ pairs kept true (by simp)
      rw [written] at leaves read fits text
      obtain ⟨own, others⟩ := List.forall_mem_cons.mp leaves
      have again := @pairs?_again v' (depth - 1) [] rest rest' first more own others
      obtain ⟨rfl, pairs, made, fit, texts⟩ := again (by simpa using read)
      obtain ⟨entries', placed, data, gives⟩ := fits pairs fit
      have same : v' = .inline false "" entries' .none := by
        have told : inlineOf? pairs = (placeAll [] pairs).map fun entries =>
          .inline false "" entries .none := rfl
        rw [List.reverse_nil, List.nil_append, told, placed] at made
        exact (Option.some.inj made).symm
      subst same
      refine ⟨rfl, ?_, rfl, ?_⟩
      · rw [Value.data, Value.data, data]
      · rw [Value.body, Value.body, text, Value.entryTexts_eq_leavesOf]
        exact congrArg (fun text => "\x7b" ++ withoutReturns "" ++ text ++ "\x7d") (texts _ gives)

end

/-! ### All values -/

mutual

theorem ReadsValue.rereads {cs rest : List Char} {v : Value} (reads : ReadsValue cs v rest) : v.Rereads :=
  match reads with
  | .scalar found => rereads_of_scalar? found
  | .array items => by
    obtain ⟨items, comma, trailing, rfl, kept, skipped, some⟩ := items.kept (by simp)
    exact rereads_of_array kept skipped some
  | .inline pairs => by
    obtain ⟨preamble, entries, rfl, blank, bare, kept⟩ := pairs.kept (by simp)
    exact rereads_of_inline blank bare kept

theorem ReadsItems.kept {reversed : List Value} {cs rest : List Char} {v : Value}
    (reads : ReadsItems reversed cs v rest) (kept : ∀ v ∈ reversed, v.InArray) :
    ∃ items comma trailing, v = .array items comma trailing .none ∧ (∀ v ∈ items, v.InArray) ∧
      Skipped trailing.toList ∧ (comma = true → items ≠ []) :=
  match reads with
  | .close skip =>
    ⟨_, _, _, rfl, by simpa using kept, by simpa using skipped_of_trivia skip (by simp), by simp⟩
  | .last skip value tail => by
    have own := value.rereads.inArray (skipped_of_trivia skip value.ne_nil)
      (skipped_of_trivia tail (by simp))
    refine ⟨_, _, _, rfl, ?_, by simp [Skipped.nil], by simp⟩
    simpa [or_imp, forall_and, and_comm] using And.intro own kept
  | .more skip value tail next => by
    have own := value.rereads.inArray (skipped_of_trivia skip value.ne_nil)
      (skipped_of_trivia tail (by simp))
    exact next.kept (List.forall_mem_cons.mpr ⟨own, kept⟩)

theorem ReadsPairs.kept {reversed : List Pair} {cs rest : List Char} {v : Value}
    (reads : ReadsPairs reversed cs v rest) (kept : ∀ p ∈ reversed, p.Kept) :
    ∃ preamble entries, v = .inline false preamble entries .none ∧ AllBlank preamble.toList ∧
      (preamble = "" ∨ entries = []) ∧ InlineKept Key.Kept Key.Holds entries :=
  match reads with
  | @ReadsPairs.empty cs _ _ closed => by
    have blank := allBlank_blanks cs
    rw [closed] at blank
    exact ⟨_, _, rfl, by simpa using blank, .inr rfl, .nil⟩
  | .last found value _ made => by
    obtain ⟨entries, rfl, all⟩ := inlineOf?_kept (fun p mem => List.forall_mem_cons.mpr
      ⟨pair_kept found value.rereads, kept⟩ p (List.mem_reverse.mp mem)) made
    exact ⟨_, _, rfl, AllBlank.nil, .inl rfl, all⟩
  | .more found value _ next =>
    next.kept (List.forall_mem_cons.mpr ⟨pair_kept found value.rereads, kept⟩)

end

theorem rereads_of_value? {depth : Nat} {cs rest : List Char} {v : Value}
    (read : value? depth cs = some (v, rest)) : v.Rereads :=
  (reads_of_value? read).rereads

end ClassDiagram.Toml
