import ClassDiagram.Proofs.Toml.Comments
import Mathlib.Algebra.BigOperators.Group.List.Basic

/-! The comments of values. A value that was read has the comments of the text that it was read
from, and it is written with them: those of an array stand around its items, and an inline table has
those of its values. -/

namespace ClassDiagram.Toml

/-! ### Layout -/

/-- Blanks, line ends and comments, the last of which may go on to the end of the text. -/
def Skips (cs : List Char) : Prop := ∃ b, skip? false cs = some b

theorem Skips.withoutReturns {cs : List Char} (skips : Skips cs) : Skips (cs.filter (· ≠ '\r')) :=
  skips.imp fun _ => skip?_withoutReturns

def AllSpace (cs : List Char) : Prop := ∀ c ∈ cs, c = ' ' ∨ c = '\n'

theorem AllSpace.skipped {cs : List Char} (space : AllSpace cs) : Skipped cs := by
  induction cs with
  | nil => rfl
  | cons c cs ih =>
    obtain ⟨first, later⟩ := List.forall_mem_cons.mp space
    obtain rfl | rfl := first
    · rw [Skipped, skip?_cons (by decide) (by decide), if_neg (by decide), if_pos (by decide)]
      exact ih later
    · exact ih later

theorem AllSpace.comments {cs : List Char} (space : AllSpace cs) : comments cs = 0 := by
  have plain : ∀ c ∈ cs, isPlain c = true := by
    intro c mem
    obtain rfl | rfl := space c mem <;> decide
  simpa using comments_append_of_plain plain []

namespace Decor

def comments (d : Decor) : Multiset String :=
  Toml.comments (d.before.getD "").toList + Toml.comments (d.after.getD "").toList

@[simp] theorem comments_none : Decor.none.comments = 0 := by simp [comments, Decor.none]

variable {d : Decor} {usual : Usual}

theorem comments_left (skips : ∀ text ∈ d.before, Skips text.toList)
    (space : AllSpace usual.before.toList) :
    Toml.comments (d.left usual).toList = Toml.comments (d.before.getD "").toList := by
  rw [toList_left]
  cases written : d.before with
  | none =>
    have none : AllSpace (usual.before.toList.filter (· ≠ '\r')) :=
      fun c mem => space c (List.mem_filter.mp mem).1
    simpa using none.comments
  | some text =>
    obtain ⟨b, skips⟩ := skips text written
    exact comments_withoutReturns skips

theorem comments_right (skips : ∀ text ∈ d.after, Skips text.toList)
    (space : AllSpace usual.after.toList) :
    Toml.comments (d.right usual).toList = Toml.comments (d.after.getD "").toList := by
  rw [toList_right]
  cases written : d.after with
  | none =>
    have none : AllSpace (usual.after.toList.filter (· ≠ '\r')) :=
      fun c mem => space c (List.mem_filter.mp mem).1
    simpa using none.comments
  | some text =>
    obtain ⟨b, skips⟩ := skips text written
    exact comments_withoutReturns skips

theorem Sides.mono {P P' Q Q' : List Char → Prop} (sides : d.Sides P Q) (before : ∀ cs, P cs → P' cs)
    (after : ∀ cs, Q cs → Q' cs) : d.Sides P' Q' :=
  ⟨fun text mem => before _ (sides.before text mem), fun text mem => after _ (sides.after text mem)⟩

theorem Blank.comments (blank : d.Blank) : d.comments = 0 := by
  have none : ∀ {text : Option String}, (∀ s ∈ text, AllBlank s.toList) →
      Toml.comments (text.getD "").toList = 0 := by
    intro text blank
    cases text with
    | none => simp
    | some s => simpa using comments_append_of_blank (blank s rfl) []
  rw [Decor.comments, none blank.before, none blank.after, add_zero]

end Decor

/-! ### Values -/

namespace Value

def comments (v : Value) : Multiset String := Toml.comments v.body.toList + v.decor.comments

/-- A value that keeps its comments apart from those of the text after it. -/
def Apart (v : Value) : Prop :=
  ∀ rest, Stops rest → Toml.comments (v.body.toList ++ rest) =
    Toml.comments v.body.toList + Toml.comments rest

variable {v : Value} {usual : Usual} {rest : List Char}

theorem Apart.withDecor (apart : v.Apart) (d : Decor) : (v.withDecor d).Apart := by
  simpa [Apart] using apart

theorem comments_withDecor (v : Value) (d : Decor) :
    (v.withDecor d).comments = Toml.comments v.body.toList + d.comments := by
  simp [comments]

theorem Apart.comments_text (apart : v.Apart) (sides : v.decor.Sides Skipped Skips)
    (before : AllSpace usual.before.toList) (after : AllSpace usual.after.toList)
    (stops : Stops ((v.decor.right usual).toList ++ rest))
    (ends : ∀ b, skip? false (v.decor.right usual).toList = some b → EndsLine b rest) :
    Toml.comments ((v.text usual).toList ++ rest) = v.comments + Toml.comments rest := by
  have left : Skipped (v.decor.left usual).toList :=
    sides.left before.skipped fun _ => Skipped.withoutReturns
  obtain ⟨b, right⟩ : Skips (v.decor.right usual).toList :=
    sides.right ⟨_, after.skipped⟩ fun _ => Skips.withoutReturns
  have text : (v.text usual).toList ++ rest = (v.decor.left usual).toList ++
      (v.body.toList ++ ((v.decor.right usual).toList ++ rest)) := by
    simp [v.text_eq, Decor.wrap]
  rw [text, left.comments_append, apart _ stops, comments_append right (ends b right),
    Decor.comments_left (fun text mem => ⟨_, sides.before text mem⟩) before,
    Decor.comments_right sides.after after, comments, Decor.comments]
  ac_rfl

end Value

/-! ### Scalars -/

section

variable {cs rest : List Char} {v : Value}

/-- A text that has no comments, wherever it stands. -/
def Silent (cs : List Char) : Prop := ∀ rest, Stops rest → comments (cs ++ rest) = comments rest

theorem stops_nil : Stops [] := ⟨by simp, by simp, by simp⟩

theorem Silent.comments {cs : List Char} (silent : Silent cs) : comments cs = 0 := by
  simpa using silent [] stops_nil

theorem Value.apart_of_silent (silent : Silent v.body.toList) : v.Apart := by
  intro rest stops
  rw [silent rest stops, silent.comments, zero_add]

theorem silent_quoted {lexeme : Lexeme} (read : quoted? cs = some (lexeme, rest)) :
    Silent lexeme.spelling := by
  intro rest' stops
  obtain ⟨mark, inside, _, spelling, again⟩ := quoted?_again read
  rw [spelling, comments_quoted (again rest' stops.quote)]

theorem isPlain_of_isWordChar {c : Char} (letter : isWordChar c = true) : isPlain c = true := by
  have mark : c ≠ '#' := (not_bracket_of_scalar (.inr letter)).2.2.2.1
  simp [isPlain, mark, isQuote_of_isWordChar letter]

theorem silent_of_plain (plain : ∀ c ∈ cs, isPlain c = true) : Silent cs :=
  fun rest _ => comments_append_of_plain plain rest

theorem splitWord_split {cs word rest : List Char} (split : splitWord cs = (word, rest)) :
    cs = word ++ rest ∧ ∀ c ∈ word, isPlain c = true := by
  have letters : ∀ cs : List Char, ∀ c ∈ cs.takeWhile isWordChar, isPlain c = true := fun cs c mem =>
    isPlain_of_isWordChar (List.all_eq_true.mp List.all_takeWhile c mem)
  have whole : cs.takeWhile isWordChar ++ cs.dropWhile isWordChar = cs :=
    List.takeWhile_append_dropWhile
  rw [splitWord_eq_joinTime] at split
  generalize cs.dropWhile isWordChar = behind at split whole
  unfold joinTime at split
  split at split
  · next d more =>
    split at split
    · cases split
      refine ⟨whole.symm.trans ?_, ?_⟩
      · rw [List.append_assoc, List.cons_append, List.takeWhile_append_dropWhile]
      · have space : isPlain ' ' = true := by decide
        exact List.forall_mem_append.mpr
          ⟨letters cs, List.forall_mem_cons.mpr ⟨space, letters (d :: more)⟩⟩
    · cases split
      exact ⟨whole.symm, letters cs⟩
  · cases split
    exact ⟨whole.symm, letters cs⟩

theorem comments_of_scalar? (read : scalar? cs = some (v, rest)) :
    Silent v.body.toList ∧ comments cs = comments rest := by
  unfold scalar? at read
  split at read
  · next found =>
    cases read
    simpa [Value.body] using And.intro (silent_quoted found) (comments_quoted found)
  · split at read
    · cases read
    · next c word rest split =>
      obtain ⟨content, _, same⟩ := Option.map_eq_some_iff.mp read
      cases same
      obtain ⟨whole, plain⟩ := splitWord_split split
      refine ⟨by simpa [Value.body] using silent_of_plain plain, ?_⟩
      rw [whole, comments_append_of_plain plain]

theorem silent_text (content : String) (decor : Decor) :
    Silent (Value.scalar (.text content) none decor).body.toList := by
  have read : quoted? (spellText content.toList ++ []) = some (_, []) :=
    quoted?_spellText (by simp) content.toList
  simpa [Value.body, spellScalar] using silent_quoted read

theorem silent_bool (b : Bool) (decor : Decor) :
    Silent (Value.scalar (.bool b) none decor).body.toList := by
  refine silent_of_plain ?_
  cases b <;> simp [Value.body, spellScalar, isPlain, isQuote]

end

/-! ### Arrays -/

namespace Value

structure ApartInArray (v : Value) : Prop where
  apart : v.Apart
  sides : v.decor.Sides Skipped Skipped

section

variable {v : Value} {usual : Usual} {t rest : List Char}

theorem ApartInArray.comments_item (kept : v.ApartInArray) (before : AllSpace usual.before.toList)
    (after : AllSpace usual.after.toList) (skipped : Skipped t) {c : Char}
    (closes : isCloser c = true) :
    Toml.comments ((v.text usual).toList ++ t ++ c :: rest) =
      v.comments + Toml.comments t + Toml.comments (c :: rest) := by
  have right : Skipped (v.decor.right usual).toList :=
    kept.sides.right after.skipped fun _ => Skipped.withoutReturns
  have stops : Stops ((v.decor.right usual).toList ++ (t ++ c :: rest)) := by
    rw [← List.append_assoc]
    exact stops_of_skip? (right.append skipped) closes
  have sides : v.decor.Sides Skipped Skips := kept.sides.mono (fun _ => id) fun _ skips => ⟨_, skips⟩
  have ends : ∀ b, skip? false (v.decor.right usual).toList = some b → EndsLine b (t ++ c :: rest) := by
    intro b skips
    obtain rfl : false = b := Option.some.inj (right.symm.trans skips)
    exact nofun
  rw [List.append_assoc, kept.apart.comments_text sides before after stops ends,
    skipped.comments_append, add_assoc]

theorem comments_items {more : List Value} (kept : v.ApartInArray)
    (others : ∀ w ∈ more, w.ApartInArray) (before : AllSpace usual.before.toList)
    (after : AllSpace usual.after.toList) (comma : Bool) (trailing : Skipped t) :
    Toml.comments ((v.text usual).toList ++ (moreItems more).toList ++
      (if comma then [','] else []) ++ t ++ ']' :: rest) =
      ((v :: more).map comments).sum + Toml.comments t + Toml.comments rest := by
  induction more generalizing v usual with
  | nil =>
    cases comma with
    | true =>
      have text : (v.text usual).toList ++ (moreItems []).toList ++
          (if true = true then [','] else []) ++ t ++ ']' :: rest =
            (v.text usual).toList ++ [] ++ ',' :: (t ++ ']' :: rest) := by
        simp [moreItems]
      rw [text, kept.comments_item before after .nil (by decide), comments_plain (by decide),
        trailing.comments_append, comments_plain (by decide)]
      simp [add_assoc]
    | false =>
      have text : (v.text usual).toList ++ (moreItems []).toList ++
          (if false = true then [','] else []) ++ t ++ ']' :: rest =
            (v.text usual).toList ++ t ++ ']' :: rest := by
        simp [moreItems]
      rw [text, kept.comments_item before after trailing (by decide), comments_plain (by decide)]
      simp
  | cons next more ih =>
    obtain ⟨own, others⟩ := List.forall_mem_cons.mp others
    have text : (v.text usual).toList ++ (moreItems (next :: more)).toList ++
        (if comma then [','] else []) ++ t ++ ']' :: rest = (v.text usual).toList ++ [] ++
          ',' :: ((next.text .spaceBefore).toList ++ (moreItems more).toList ++
            (if comma then [','] else []) ++ t ++ ']' :: rest) := by
      simp [moreItems_cons]
    rw [text, kept.comments_item before after .nil (by decide), comments_plain (by decide),
      ih own others (by simp [Usual.spaceBefore, AllSpace]) (by simp [Usual.spaceBefore, AllSpace])]
    simp [add_assoc]

theorem comments_array {items : List Value} {comma : Bool} {trailing : String} (decor : Decor)
    (kept : ∀ v ∈ items, v.ApartInArray) (skipped : Skipped trailing.toList)
    (some : comma = true → items ≠ []) (rest : List Char) :
    Toml.comments ((array items comma trailing decor).body.toList ++ rest) =
      (items.map comments).sum + Toml.comments trailing.toList + Toml.comments rest := by
  have body : (array items comma trailing decor).body.toList ++ rest =
      '[' :: ((joinItems (itemTexts items)).toList ++ (if comma then [','] else []) ++
        trailing.toList.filter (· ≠ '\r') ++ ']' :: rest) := by
    cases comma <;> simp [body, toList_withoutReturns]
  have inside : Toml.comments (trailing.toList.filter (· ≠ '\r')) = Toml.comments trailing.toList :=
    comments_withoutReturns skipped
  rw [body, comments_plain (by decide)]
  cases items with
  | nil =>
    obtain rfl : comma = false := by
      cases comma with
      | false => rfl
      | true => exact absurd rfl (some rfl)
    have closed := skipped.withoutReturns.comments_append (']' :: rest)
    rw [inside, comments_plain (by decide)] at closed
    simpa [itemTexts, joinItems] using closed
  | cons v items =>
    obtain ⟨own, others⟩ := List.forall_mem_cons.mp kept
    rw [joinItems_cons, String.toList_append, comments_items own others
      (by simp [Usual.tight, AllSpace]) (by simp [Usual.tight, AllSpace]) comma
      skipped.withoutReturns, inside]

theorem apart_array (items : List Value) (comma : Bool) (trailing : String) (decor : Decor)
    (kept : ∀ v ∈ items, v.ApartInArray) (skipped : Skipped trailing.toList)
    (some : comma = true → items ≠ []) :
    (array items comma trailing decor).Apart ∧
      Toml.comments (array items comma trailing decor).body.toList =
        (items.map comments).sum + Toml.comments trailing.toList := by
  have whole := comments_array decor kept skipped some
  have own := whole []
  rw [List.append_nil, comments_nil, add_zero] at own
  exact ⟨fun rest _ => own ▸ whole rest, own⟩

end

end Value

theorem Value.Apart.inArray {v : Value} {before after : List Char} (apart : v.Apart)
    (left : Skipped before) (right : Skipped after) :
    (v.withDecor (.around (String.ofList before) (String.ofList after))).ApartInArray := by
  refine ⟨apart.withDecor _, ?_⟩
  constructor <;> simp [Decor.around, left, right]

theorem comments_of_item {v : Value} {cs before inner behind after rest : List Char}
    (skip : trivia false [] cs = some (before, inner))
    (taken : comments inner = comments v.body.toList + comments behind)
    (tail : trivia false [] behind = some (after, rest)) :
    comments cs =
      (v.withDecor (.around (String.ofList before) (String.ofList after))).comments +
        comments rest := by
  rw [comments_of_trivia skip, taken, comments_of_trivia tail, Value.comments_withDecor]
  simp only [Decor.comments, Decor.around, Option.getD_some, String.toList_ofList]
  ac_rfl

/-! ### Pairs -/

section

variable {front : List Key} {key : Key} {v : Value} {usual usual' : Usual} {rest : List Char}

theorem comments_pathText (keys : ∀ k ∈ front ++ [key], k.Kept)
    (sides : key.leaf.Sides Skipped AllBlank) (before : AllSpace usual.before.toList)
    (after : AllBlank usual.after.toList) {c : Char} (plain : isBareKeyChar c = false)
    (quote : isQuote c = false) :
    comments ((pathText usual (front ++ [key])).toList ++ c :: rest) =
      key.leaf.comments + comments (c :: rest) := by
  have left : Skipped (key.leaf.left usual).toList :=
    sides.left before.skipped fun _ => Skipped.withoutReturns
  have right : AllBlank (key.leaf.right usual).toList :=
    sides.right after fun _ => AllBlank.withoutReturns
  have none : comments (key.leaf.after.getD "").toList = 0 := by
    cases written : key.leaf.after with
    | none => simp
    | some text => simpa using comments_append_of_blank (sides.after text written) []
  have text : (pathText usual (front ++ [key])).toList ++ c :: rest =
      (key.leaf.left usual).toList ++ ((keysText (front ++ [key])).toList ++
        ((key.leaf.right usual).toList ++ c :: rest)) := by
    rw [pathText_eq _ (by simp)]
    simp [Decor.wrap]
  rw [text, left.comments_append,
    comments_keysText keys (bare_append right (by simpa using plain))
      (quote_append right (by simpa using quote)), comments_append_of_blank right,
    Decor.comments_left (fun text mem => ⟨_, sides.before text mem⟩) before, Decor.comments, none,
    add_zero]

end

/-! ### Inline tables -/

/-- A value that keeps its comments apart under a key that is kept, with blanks around both. -/
structure Key.HoldsApart (key : Key) (v : Value) : Prop where
  own : key.Kept
  blank : key.leaf.Blank
  apart : v.Apart
  sides : v.decor.Blank

theorem AllBlank.skipped {cs : List Char} (blank : AllBlank cs) : Skipped cs := skip?_of_blank blank

section

variable {p : List Key × Value} {entries : InlineEntries} {usual : Usual} {rest : List Char}

def Value.LeafApart (p : List Key × Value) : Prop :=
  ∃ front key, p.1 = front ++ [key] ∧ (∀ k ∈ front, k.Kept) ∧ key.HoldsApart p.2

theorem Value.LeafApart.comments_pair (kept : Value.LeafApart p)
    (before : AllBlank usual.before.toList ∧ AllSpace usual.before.toList)
    (after : AllBlank usual.after.toList ∧ AllSpace usual.after.toList) {c : Char}
    (closes : isCloser c = true) :
    Toml.comments ((pathText .spaced p.1).toList ++ '=' :: ((p.2.text usual).toList ++ c :: rest)) =
      p.2.comments + Toml.comments (c :: rest) := by
  obtain ⟨path, v⟩ := p
  obtain ⟨front, key, rfl, keys, holds⟩ := kept
  have right : AllBlank (v.decor.right usual).toList :=
    holds.sides.right after.1 fun _ => AllBlank.withoutReturns
  have sides : v.decor.Sides Skipped Skips :=
    holds.sides.mono (fun _ => AllBlank.skipped) fun _ blank => ⟨_, blank.skipped⟩
  have ends : ∀ b, skip? false (v.decor.right usual).toList = some b → EndsLine b (c :: rest) := by
    intro b skips
    obtain rfl : false = b := Option.some.inj (right.skipped.symm.trans skips)
    exact nofun
  have path : ∀ k ∈ front ++ [key], k.Kept :=
    List.forall_mem_append.mpr ⟨keys, by simpa using holds.own⟩
  rw [comments_pathText path (holds.blank.mono (fun _ => AllBlank.skipped) fun _ => id)
      (by simp [Usual.spaced, AllSpace]) (by simp [Usual.spaced, AllBlank, isBlank]) (by decide)
      (by decide), comments_plain (by decide), holds.blank.comments, zero_add,
    holds.apart.comments_text sides before.2 after.2 (stops_of_skip? right.skipped closes) ends]

theorem comments_joinPairs {first : List Key × Value} {more : List (List Key × Value)}
    (kept : Value.LeafApart first) (others : ∀ p ∈ more, Value.LeafApart p) (rest : List Char) :
    comments ((joinPairs ((first :: more).map Value.leafText)).toList ++ '\x7d' :: rest) =
      ((first :: more).map fun p => p.2.comments).sum + comments rest := by
  induction more generalizing first with
  | nil =>
    have text : (joinPairs ([first].map Value.leafText)).toList ++ '\x7d' :: rest =
        (pathText .spaced first.1).toList ++ '=' :: ((first.2.text .spaced).toList ++ '\x7d' :: rest) := by
      simp [Value.leafText, joinPairs]
    rw [text, kept.comments_pair (by simp [Usual.spaced, AllBlank, AllSpace, isBlank])
      (by simp [Usual.spaced, AllBlank, AllSpace, isBlank]) (by decide), comments_plain (by decide)]
    simp
  | cons next more ih =>
    obtain ⟨own, others⟩ := List.forall_mem_cons.mp others
    have text : (joinPairs ((first :: next :: more).map Value.leafText)).toList ++ '\x7d' :: rest =
        (pathText .spaced first.1).toList ++ '=' :: ((first.2.text .spaceBefore).toList ++ ',' ::
          ((joinPairs ((next :: more).map Value.leafText)).toList ++ '\x7d' :: rest)) := by
      simp [Value.leafText, joinPairs]
    rw [text, kept.comments_pair (by simp [Usual.spaceBefore, AllBlank, AllSpace, isBlank])
      (by simp [Usual.spaceBefore, AllBlank, AllSpace]) (by decide), comments_plain (by decide),
      ih own others]
    simp [add_assoc]

def inlineComments (path : List Key) (entries : InlineEntries) : Multiset String :=
  ((Value.leavesOf path entries).map fun p => p.2.comments).sum

section

variable {path : List Key} {key : Key} {v : Value} {inner inner' : InlineEntries}
  {K : Key → Prop} {L : Key → Value → Prop} {added : Multiset String}

theorem inlineComments_leaf (leaf : v.isDotted = false) :
    inlineComments path ((key, v) :: entries) = v.comments + inlineComments path entries := by
  simp [inlineComments, Value.leavesOf, Value.leaves_of_leaf leaf]

theorem inlineComments_dotted {preamble : String} {decor : Decor} :
    inlineComments path ((key, .inline true preamble inner decor) :: entries) =
      inlineComments (path ++ [key]) inner + inlineComments path entries := by
  simp [inlineComments, Value.leavesOf, Value.leaves]

theorem inlineComments_append (first second : InlineEntries) :
    inlineComments path (first ++ second) =
      inlineComments path first + inlineComments path second := by
  have leaves : Value.leavesOf path (first ++ second) =
      Value.leavesOf path first ++ Value.leavesOf path second := by
    induction first with
    | nil => rfl
    | cons e first ih => simp [Value.leavesOf, ih]
  simp [inlineComments, leaves]

theorem inlineComments_exchange (kept : InlineKept K L entries) {name preamble : String}
    {decor : Decor}
    (found : entries.find? (fun e => e.1.name = name) = some (key, .inline true preamble inner decor))
    (more : InlineKept K L inner →
      ∀ path, inlineComments path inner' = inlineComments path inner + added) :
    inlineComments path (entries.map fun e =>
      if e.1.name = name then (e.1, .inline true preamble inner' decor) else e) =
        inlineComments path entries + added := by
  have same : ∀ {rest : InlineEntries}, (∀ e ∈ rest, e.1.name ≠ name) →
      rest.map (fun e => if e.1.name = name then
        (e.1, Value.inline true preamble inner' decor) else e) = rest := by
    intro rest apart
    exact (List.map_congr_left fun e mem => if_neg (apart e mem)).trans (List.map_id rest)
  induction kept with
  | nil => cases found
  | @leaf first v rest apart leaf passes rest' ih =>
    by_cases here : first.name = name
    · simp only [List.find?_cons, here, decide_true, Option.some.injEq, Prod.mk.injEq] at found
      rw [found.2] at leaf
      cases leaf
    · simp only [List.find?_cons, here, decide_false] at found
      rw [List.map_cons, if_neg here, inlineComments_leaf leaf, inlineComments_leaf leaf, ih found,
        add_assoc]
  | @dotted first _ _ rest _ apart passes _ below rest' _ ih =>
    by_cases here : first.name = name
    · simp only [List.find?_cons, here, decide_true, Option.some.injEq, Prod.mk.injEq,
        Value.inline.injEq] at found
      obtain ⟨rfl, _, rfl, rfl, rfl⟩ := found
      rw [List.map_cons, if_pos here, same (here ▸ apart), inlineComments_dotted,
        inlineComments_dotted, more below]
      ac_rfl
    · simp only [List.find?_cons, here, decide_false] at found
      rw [List.map_cons, if_neg here, inlineComments_dotted, inlineComments_dotted, ih found,
        add_assoc]

theorem inlineComments_placeInline (kept : InlineKept K L entries) {way : List Key}
    (leaf : v.isDotted = false) {entries' : InlineEntries}
    (placed : placeInline key v way entries = some entries') (path : List Key) :
    inlineComments path entries' = inlineComments path entries + v.comments := by
  induction way generalizing entries entries' path with
  | nil =>
    rw [placeInline] at placed
    split at placed
    · cases placed
    · cases placed
      rw [inlineComments_append, inlineComments_leaf leaf]
      simp [inlineComments, Value.leavesOf]
  | cons k way ih =>
    rw [placeInline] at placed
    split at placed
    · obtain ⟨inner, inserted, rfl⟩ := Option.map_eq_some_iff.mp placed
      rw [inlineComments_append, inlineComments_dotted, ih .nil inserted]
      simp [inlineComments, Value.leavesOf]
    · next found =>
      obtain ⟨inner, inserted, rfl⟩ := Option.map_eq_some_iff.mp placed
      exact inlineComments_exchange kept found fun kept => ih kept inserted
    · cases placed

end

theorem comments_inline {preamble : String} (decor : Decor) (blank : AllBlank preamble.toList)
    (kept : InlineKept Key.Kept Key.HoldsApart entries) (rest : List Char) :
    comments ((Value.inline false preamble entries decor).body.toList ++ rest) =
      inlineComments [] entries + comments rest := by
  have body : (Value.inline false preamble entries decor).body.toList ++ rest =
      '\x7b' :: (preamble.toList.filter (· ≠ '\r') ++
        ((joinPairs ((Value.leavesOf [] entries).map Value.leafText)).toList ++ '\x7d' :: rest)) := by
    have texts := Value.entryTexts_eq_leavesOf [] entries
    simp [Value.body, texts, toList_withoutReturns]
    rfl
  have leaves : ∀ p ∈ Value.leavesOf [] entries, Value.LeafApart p := by
    intro p mem
    obtain ⟨front, key, whole, keys, _, holds⟩ := kept.leaves [] p mem
    exact ⟨front, key, by simpa using whole, keys, holds⟩
  rw [body, comments_plain (by decide), comments_append_of_blank blank.withoutReturns, inlineComments]
  cases written : Value.leavesOf [] entries with
  | nil => simpa [joinPairs] using comments_plain (by decide) rest
  | cons first more =>
    rw [written] at leaves
    obtain ⟨own, others⟩ := List.forall_mem_cons.mp leaves
    exact comments_joinPairs own others rest

theorem apart_inline (preamble : String) (decor : Decor) (blank : AllBlank preamble.toList)
    (kept : InlineKept Key.Kept Key.HoldsApart entries) :
    (Value.inline false preamble entries decor).Apart ∧
      comments (Value.inline false preamble entries decor).body.toList =
        inlineComments [] entries := by
  have whole := comments_inline decor blank kept
  have own := whole []
  rw [List.append_nil, comments_nil, add_zero] at own
  exact ⟨fun rest _ => own ▸ whole rest, own⟩

structure Pair.KeptApart (p : Pair) : Prop where
  path : ∀ k ∈ p.path, k.Kept
  leaf : p.value.isDotted = false
  holds : p.key.HoldsApart p.value

theorem comments_of_inlineOf? {pairs : List Pair} {v : Value} (kept : ∀ p ∈ pairs, p.KeptApart)
    (made : inlineOf? pairs = some v) :
    v.Apart ∧ comments v.body.toList = (pairs.map fun p => p.value.comments).sum := by
  have all : ∀ {known entries}, InlineKept Key.Kept Key.HoldsApart known →
      pairs.foldlM (fun entries p => placeInline p.key p.value p.path entries) known =
        some entries → InlineKept Key.Kept Key.HoldsApart entries ∧
          inlineComments [] entries =
            inlineComments [] known + (pairs.map fun p => p.value.comments).sum := by
    clear made
    intro known entries soFar folded
    induction pairs generalizing known with
    | nil =>
      cases folded
      exact ⟨soFar, by simp⟩
    | cons p pairs ih =>
      obtain ⟨own, kept⟩ := List.forall_mem_cons.mp kept
      rw [List.foldlM_cons] at folded
      obtain ⟨next, placed, folded⟩ := Option.bind_eq_some_iff.mp folded
      obtain ⟨later, sum⟩ :=
        ih kept (soFar.placeInline own.path own.leaf own.holds placed).1 folded
      refine ⟨later, ?_⟩
      rw [sum, inlineComments_placeInline soFar own.leaf placed, List.map_cons, List.sum_cons,
        add_assoc]
  obtain ⟨entries, folded, rfl⟩ := Option.map_eq_some_iff.mp made
  obtain ⟨kept, sum⟩ := all .nil folded
  obtain ⟨apart, body⟩ := apart_inline "" .none AllBlank.nil kept
  exact ⟨apart, by rw [body, sum]; simp [inlineComments, Value.leavesOf]⟩

theorem pair_apart {v : Value} {cs behind more : List Char} {path : List Key} {key : Key}
    (found : keyPath? cs = some ((path, key), '=' :: behind)) (leaf : v.isDotted = false)
    (apart : v.Apart) :
    (⟨path, key, v.withDecor (.around (String.ofList (blanks behind).1)
      (String.ofList (blanks more).1))⟩ : Pair).KeptApart := by
  obtain ⟨keys, own, blank⟩ := keyPath?_kept found
  refine ⟨fun k mem => (keys k mem).1, by rw [Value.isDotted_withDecor, leaf], own, blank,
    apart.withDecor _, ?_⟩
  rw [Value.decor_withDecor]
  exact Decor.blank_around (allBlank_blanks _) (allBlank_blanks _)

theorem comments_of_pair {v : Value} {cs behind more : List Char} {path : List Key} {key : Key}
    (found : keyPath? cs = some ((path, key), '=' :: behind))
    (taken : comments (blanks behind).2 = comments v.body.toList + comments more) :
    comments cs = (v.withDecor (.around (String.ofList (blanks behind).1)
      (String.ofList (blanks more).1))).comments + comments (blanks more).2 := by
  have equals : isQuote '=' = false := by decide
  have decor := Decor.blank_around (allBlank_blanks behind) (allBlank_blanks more)
  rw [comments_of_keyPath? found (by simpa using equals), comments_plain (by decide),
    ← comments_of_blanks behind, taken, ← comments_of_blanks more, Value.comments_withDecor,
    decor.comments, add_zero]

end

/-! ### All values -/

mutual

theorem ReadsValue.comments {cs rest : List Char} {v : Value} (reads : ReadsValue cs v rest) :
    v.Apart ∧ Toml.comments cs = Toml.comments v.body.toList + Toml.comments rest :=
  match reads with
  | .scalar found => by
    obtain ⟨silent, told⟩ := comments_of_scalar? found
    exact ⟨Value.apart_of_silent silent, by rw [told, silent.comments, zero_add]⟩
  | .array items => by
    obtain ⟨apart, told⟩ := items.comments (by simp)
    exact ⟨apart, by simpa [comments_plain (show isPlain '[' = true by decide)] using told⟩
  | .inline pairs => by
    obtain ⟨apart, told⟩ := pairs.comments (by simp)
    exact ⟨apart, by simpa [comments_plain (show isPlain '\x7b' = true by decide)] using told⟩

theorem ReadsItems.comments {reversed : List Value} {cs rest : List Char} {v : Value}
    (reads : ReadsItems reversed cs v rest) (kept : ∀ v ∈ reversed, v.ApartInArray) :
    v.Apart ∧ (reversed.map Value.comments).sum + Toml.comments cs =
      Toml.comments v.body.toList + Toml.comments rest :=
  match reads with
  | @ReadsItems.close reversed _ before _ skip => by
    obtain ⟨apart, told⟩ := Value.apart_array reversed.reverse (!reversed.isEmpty)
      (String.ofList before) .none (by simpa using kept)
      (by simpa using skipped_of_trivia skip (by simp)) (by simp)
    refine ⟨apart, ?_⟩
    rw [told, comments_of_trivia skip, comments_plain (by decide), List.map_reverse,
      List.sum_reverse]
    simp [add_assoc]
  | @ReadsItems.last reversed _ before _ _ after _ w skip value tail => by
    obtain ⟨apart, taken⟩ := value.comments
    have own := apart.inArray (skipped_of_trivia skip value.ne_nil)
      (skipped_of_trivia tail (by simp))
    obtain ⟨apart, body⟩ := Value.apart_array
      (w.withDecor (.around (String.ofList before) (String.ofList after)) :: reversed).reverse
      false "" .none (by simpa [or_imp, forall_and, and_comm] using And.intro own kept) .nil (by simp)
    refine ⟨apart, ?_⟩
    rw [body, comments_of_item skip taken tail, comments_plain (by decide), List.map_reverse,
      List.sum_reverse, List.map_cons, List.sum_cons]
    simp only [String.toList_empty, comments_nil, add_zero]
    ac_rfl
  | .more skip value tail next => by
    obtain ⟨apart, taken⟩ := value.comments
    have own := apart.inArray (skipped_of_trivia skip value.ne_nil)
      (skipped_of_trivia tail (by simp))
    obtain ⟨apart, whole⟩ := next.comments (List.forall_mem_cons.mpr ⟨own, kept⟩)
    refine ⟨apart, whole ▸ ?_⟩
    rw [comments_of_item skip taken tail, comments_plain (by decide), List.map_cons, List.sum_cons]
    ac_rfl

theorem ReadsPairs.comments {reversed : List Pair} {cs rest : List Char} {v : Value}
    (reads : ReadsPairs reversed cs v rest) (kept : ∀ p ∈ reversed, p.KeptApart) :
    v.Apart ∧ (reversed.map fun p => p.value.comments).sum + Toml.comments cs =
      Toml.comments v.body.toList + Toml.comments rest :=
  match reads with
  | @ReadsPairs.empty cs before _ closed => by
    have blank := allBlank_blanks cs
    have front := comments_of_blanks cs
    rw [closed] at blank front
    obtain ⟨apart, body⟩ := apart_inline (String.ofList before) .none (by simpa using blank) .nil
    refine ⟨apart, ?_⟩
    rw [body, ← front, comments_plain (by decide)]
    simp [inlineComments, Value.leavesOf]
  | .last found value ended made => by
    obtain ⟨apart, taken⟩ := value.comments
    obtain ⟨whole, body⟩ := comments_of_inlineOf? (fun p mem => List.forall_mem_cons.mpr
      ⟨pair_apart found value.rereads.leaf apart, kept⟩ p (List.mem_reverse.mp mem)) made
    refine ⟨whole, ?_⟩
    rw [body, comments_of_pair found taken, ended, comments_plain (by decide), List.map_reverse,
      List.sum_reverse, List.map_cons, List.sum_cons]
    ac_rfl
  | .more found value ended next => by
    obtain ⟨apart, taken⟩ := value.comments
    obtain ⟨apart, whole⟩ := next.comments (List.forall_mem_cons.mpr
      ⟨pair_apart found value.rereads.leaf apart, kept⟩)
    refine ⟨apart, whole ▸ ?_⟩
    rw [comments_of_pair found taken, ended, comments_plain (by decide), List.map_cons,
      List.sum_cons]
    ac_rfl

end

theorem comments_of_value? {depth : Nat} {cs rest : List Char} {v : Value}
    (read : value? depth cs = some (v, rest)) :
    v.Apart ∧ comments cs = comments v.body.toList + comments rest :=
  (reads_of_value? read).comments

end ClassDiagram.Toml
