import ClassDiagram.Proofs.Toml.Comments.Values
import Mathlib.Data.Nat.Init

/-! Statements, read again where they are written. A document reads as the statements that it is
written as, each with the same names and data. -/

namespace ClassDiagram.Toml

inductive Said where
  | header (isArray : Bool) (path : List String)
  | pair (path : List String) (data : Data)

def Statement.said : Statement → Said
  | header isArray path last _ => .header isArray (names (path ++ [last]))
  | pair p => .pair (names (p.path ++ [p.key])) p.value.data

/-! ### What is read -/

/-- A statement from the front of a text, and what is left. -/
inductive ReadsStatement : List Char → Statement → List Char → Prop
  | array {cs behind tail rest : List Char} {path : List Key} {last : Key} :
      keyPath? cs = some ((path, last), ']' :: ']' :: behind) →
      lineTail behind = some (tail, rest) →
      ReadsStatement ('[' :: '[' :: cs) (.header true path last (String.ofList tail)) rest
  | table {cs behind tail rest : List Char} {path : List Key} {last : Key} :
      (∀ inner, cs ≠ '[' :: inner) → keyPath? cs = some ((path, last), ']' :: behind) →
      lineTail behind = some (tail, rest) →
      ReadsStatement ('[' :: cs) (.header false path last (String.ofList tail)) rest
  | pair {cs behind more tail rest : List Char} {path : List Key} {key : Key} {v : Value} :
      (∀ inner, cs ≠ '[' :: inner) → keyPath? cs = some ((path, key), '=' :: behind) →
      value? levels (blanks behind).2 = some (v, more) → lineTail more = some (tail, rest) →
      ReadsStatement cs
        (.pair ⟨path, key,
          v.withDecor (.around (String.ofList (blanks behind).1) (String.ofList tail))⟩) rest

/-- The rest of a text, behind the statements that are given, the last one first. -/
inductive ReadsStatements :
    List (String × Statement) → List Char → List (String × Statement) → String → Prop
  | done {reversed : List (String × Statement)} {cs before : List Char} :
      trivia false [] cs = some (before, []) →
      ReadsStatements reversed cs reversed.reverse (String.ofList before)
  | more {reversed statements : List (String × Statement)} {cs before inner rest : List Char}
      {s : Statement} {trailing : String} :
      trivia false [] cs = some (before, inner) → inner ≠ [] → ReadsStatement inner s rest →
      ReadsStatements ((String.ofList before, s) :: reversed) rest statements trailing →
      ReadsStatements reversed cs statements trailing

theorem reads_of_readPair {cs : List Char} {s : Statement} {rest : Rest cs}
    (only : ∀ inner, cs ≠ '[' :: inner) (read : readPair cs = some (s, rest)) :
    ReadsStatement cs s rest.val := by
  unfold readPair at read
  split at read
  · next path key behind found =>
    split at read
    · cases read
    · next v more shorter value =>
      split at read
      · cases read
      · next tail =>
        cases read
        have value : value? levels (blanks behind).2 = some (v, more) := by
          rw [value?, value]
          rfl
        exact .pair only found value tail
  · cases read

theorem keyPath?_of_readHeader {isArray : Bool} {cs : List Char} {s : Statement} {rest : Rest cs}
    (read : readHeader isArray cs = some (s, rest)) : ∃ path last behind tail,
      keyPath? cs = some ((path, last), (if isArray then [']', ']'] else [']']) ++ behind) ∧
        lineTail behind = some (tail, rest.val) ∧
          s = .header isArray path last (String.ofList tail) := by
  unfold readHeader at read
  split at read
  · cases read
  · next found =>
    split at read
    · split at read
      · cases read
      · next tail =>
        cases read
        exact ⟨_, _, _, _, found, tail, rfl⟩
    · split at read
      · cases read
      · next tail =>
        cases read
        exact ⟨_, _, _, _, found, tail, rfl⟩
    · cases read

theorem reads_of_readStatement {cs : List Char} {s : Statement} {rest : Rest cs}
    (read : readStatement cs = some (s, rest)) : ReadsStatement cs s rest.val := by
  unfold readStatement at read
  split at read
  · obtain ⟨⟨s, more, _⟩, header, same⟩ := Option.map_eq_some_iff.mp read
    cases same
    obtain ⟨_, _, _, _, found, tail, rfl⟩ := keyPath?_of_readHeader header
    exact .array found tail
  · next only =>
    obtain ⟨⟨s, more, _⟩, header, same⟩ := Option.map_eq_some_iff.mp read
    cases same
    obtain ⟨_, _, _, _, found, tail, rfl⟩ := keyPath?_of_readHeader header
    exact .table only found tail
  · next only => exact reads_of_readPair only read

theorem reads_of_readStatements {reversed statements : List (String × Statement)} {cs : List Char}
    {trailing : String} (read : readStatements reversed cs = some (statements, trailing)) :
    ReadsStatements reversed cs statements trailing := by
  fun_induction readStatements reversed cs with
  | case1 => cases read
  | case2 _ _ _ skip =>
    cases read
    exact .done skip
  | case3 => cases read
  | case4 _ _ _ _ other skip s rest _ found _ ih =>
    exact .more skip other (reads_of_readStatement found) (ih read)

/-! ### Statements that were read -/

structure Key.OfTable (k : Key) : Prop where
  kept : k.Kept
  blank : k.leaf.Blank

/-- A value with a line of its own. -/
structure Value.OnLine (v : Value) : Prop where
  rereads : v.Rereads
  apart : v.Apart
  sides : v.decor.Sides AllBlank LineEnd

def Statement.Kept : Statement → Prop
  | header _ path last tail => (∀ k ∈ path ++ [last], k.OfTable) ∧ LineEnd tail.toList
  | pair p => (∀ k ∈ p.path ++ [p.key], k.OfTable) ∧ p.value.OnLine

theorem keyPath?_ofTable {cs rest : List Char} {path : List Key} {last : Key}
    (read : keyPath? cs = some ((path, last), rest)) : ∀ k ∈ path ++ [last], k.OfTable := by
  obtain ⟨keys, own, blank⟩ := keyPath?_kept read
  refine List.forall_mem_append.mpr ⟨fun k mem => ⟨(keys k mem).1, (keys k mem).2⟩, ?_⟩
  simpa using Key.OfTable.mk own blank

theorem ReadsStatement.kept {cs rest : List Char} {s : Statement}
    (reads : ReadsStatement cs s rest) : s.Kept := by
  cases reads with
  | array found tail => exact ⟨keyPath?_ofTable found, by simpa using lineEnd_of_lineTail tail⟩
  | table _ found tail => exact ⟨keyPath?_ofTable found, by simpa using lineEnd_of_lineTail tail⟩
  | @pair _ behind _ _ _ _ _ _ _ found value tail =>
    refine ⟨keyPath?_ofTable found, (rereads_of_value? value).withDecor _,
      (comments_of_value? value).1.withDecor _, ?_⟩
    have before := allBlank_blanks behind
    have after := lineEnd_of_lineTail tail
    constructor <;> simp [Decor.around, before, after]

theorem ReadsStatements.kept {reversed statements : List (String × Statement)} {cs : List Char}
    {trailing : String} (reads : ReadsStatements reversed cs statements trailing)
    (kept : ∀ s ∈ reversed, Skipped s.1.toList ∧ s.2.Kept) :
    (∀ s ∈ statements, Skipped s.1.toList ∧ s.2.Kept) ∧
      ∃ b, skip? false trailing.toList = some b := by
  induction reads with
  | done skip =>
    obtain ⟨skipped, b, same, skips, _⟩ := skip?_of_trivia skip
    refine ⟨fun s mem => kept s (List.mem_reverse.mp mem), b, ?_⟩
    rw [String.toList_ofList, same]
    exact skips
  | more skip some statement _ ih =>
    refine ih (List.forall_mem_cons.mpr ⟨⟨?_, statement.kept⟩, kept⟩)
    rw [String.toList_ofList]
    exact skipped_of_trivia skip some

theorem kept_of_statements? {text trailing : String} {statements : List (String × Statement)}
    (read : statements? text = some (statements, trailing)) :
    (∀ s ∈ statements, Skipped s.1.toList ∧ s.2.Kept) ∧
      ∃ b, skip? false trailing.toList = some b :=
  (reads_of_readStatements read).kept (by simp)

/-! ### Statements that are written -/

/-- What is written as one statement: a header with the layout around it, or a pair. -/
inductive Part where
  | header (isArray : Bool) (path : List Key) (before after : String)
  | pair (path : List Key) (value : Value)

def Value.ReadAs (v w : Value) : Prop :=
  ∃ depth rest, Stops rest ∧ value? depth (v.body.toList ++ rest) = some (w, rest)

theorem Value.ReadAs.again {v w : Value} (read : v.ReadAs w) (rereads : v.Rereads) :
    w.data = v.data ∧ w.isDotted = false ∧ w.body = v.body := by
  obtain ⟨_, _, stops, read⟩ := read
  exact (rereads.again _ _ _ _ stops read).2

namespace Part

def said : Part → Said
  | header isArray path _ _ => .header isArray (names path)
  | pair path v => .pair (names path) v.data

inductive ReadAs : Part → String × Statement → Prop
  | header {isArray : Bool} {path path' : List Key} {last last' : Key} {before after : String}
      (keys : keysAgain (last.leaf.left .tight).toList (last.leaf.right .tight).toList
        (path ++ [last]) = some (path', last')) :
      ReadAs (header isArray (path ++ [last]) before after)
        (before, .header isArray path' last' after)
  | pair {path path' : List Key} {last last' : Key} {v w : Value}
      (keys : keysAgain [] (last.leaf.right .spaceAfter).toList (path ++ [last]) =
        some (path', last'))
      (value : v.ReadAs w) (rereads : v.Rereads) :
      ReadAs (pair (path ++ [last]) v) (last.leaf.left .spaceAfter, .pair ⟨path', last',
        w.withDecor (.around (v.decor.left .spaceBefore) (v.decor.right .spaceBefore))⟩)

theorem ReadAs.said {part : Part} {s : String × Statement} (read : part.ReadAs s) :
    s.2.said = part.said := by
  cases read with
  | header keys => exact congrArg (Said.header _) (names_keysAgain keys)
  | pair keys value rereads =>
    rw [Statement.said, Part.said, names_keysAgain keys, Value.data_withDecor, (value.again rereads).1]

end Part

/-- A part as it is written: blank lines and comments before it, and its own text up to the line
end. -/
structure Written where
  before : List Char
  text : List Char
  part : Part

namespace Written

def line (w : Written) : List Char := w.before ++ w.text ++ ['\n']

structure Again (w : Written) : Prop where
  before : Skipped w.before
  opens : Opens w.text
  unmarked : ∀ c ∈ w.text.head?, c ≠ '\uFEFF'
  again : ∀ rest s rest', ReadsStatement (w.text ++ '\n' :: rest) s rest' →
    rest' = rest ∧ w.part.ReadAs (String.ofList w.before, s)

end Written

theorem readStatements_again {ws : List Written} (again : ∀ w ∈ ws, w.Again) {trailing : List Char}
    {b : Bool} (skips : skip? false trailing = some b)
    {reversed statements : List (String × Statement)} {left : String}
    (reads : ReadsStatements reversed (ws.flatMap Written.line ++ trailing) statements left) :
    left = String.ofList trailing ∧ ∃ more, statements = reversed.reverse ++ more ∧
      List.Forall₂ Part.ReadAs (ws.map Written.part) more := by
  induction ws generalizing reversed with
  | nil =>
    have whole := trivia_all skips
    cases reads with
    | done skip =>
      cases whole.symm.trans skip
      exact ⟨rfl, [], (List.append_nil _).symm, .nil⟩
    | more skip some _ _ =>
      cases whole.symm.trans skip
      exact absurd rfl some
  | cons w ws ih =>
    obtain ⟨own, again⟩ := List.forall_mem_cons.mp again
    obtain ⟨c, inside, text, opens⟩ := own.opens
    have whole : (w :: ws).flatMap Written.line ++ trailing =
        w.before ++ (w.text ++ '\n' :: (ws.flatMap Written.line ++ trailing)) := by
      simp [Written.line]
    have here : Opens (w.text ++ '\n' :: (ws.flatMap Written.line ++ trailing)) :=
      ⟨c, _, by rw [text]; rfl, opens⟩
    have skipped := trivia_skipped own.before here
    rw [whole] at reads
    cases reads with
    | done skip =>
      have none := (Prod.mk.inj (Option.some.inj (skipped.symm.trans skip))).2
      rw [text] at none
      cases none
    | more skip _ statement next =>
      obtain ⟨rfl, rfl⟩ := Prod.mk.inj (Option.some.inj (skipped.symm.trans skip))
      obtain ⟨rfl, first⟩ := own.again _ _ _ statement
      obtain ⟨ends, more, rfl, others⟩ := ih again next
      exact ⟨ends, _, by simp, .cons first others⟩

/-! ### Pairs and headers -/

def Value.InTable (p : List Key × Value) : Prop :=
  ∃ front key, p.1 = front ++ [key] ∧ (∀ k ∈ front ++ [key], k.Kept) ∧
    key.leaf.Sides Skipped AllBlank ∧ p.2.OnLine

theorem pair_again {path : List Key} {v : Value} (kept : Value.InTable (path, v)) :
    ∃ w : Written, w.Again ∧ w.part = .pair path v ∧
      w.line = (pathText .spaceAfter path ++ "=" ++ v.text .spaceBefore ++ "\n").toList := by
  obtain ⟨front, key, whole, keys, sides, value⟩ := kept
  obtain rfl : path = front ++ [key] := whole
  have rereads : v.Rereads := value.rereads
  have layout : v.decor.Sides AllBlank LineEnd := value.sides
  have some : front ++ [key] ≠ [] := by simp
  obtain ⟨opens, other⟩ := opens_keysText some keys
  have before : Skipped (key.leaf.left .spaceAfter).toList :=
    sides.left rfl fun _ => Skipped.withoutReturns
  have after : AllBlank (key.leaf.right .spaceAfter).toList :=
    sides.right (List.all_eq_true.mp rfl) fun _ => AllBlank.withoutReturns
  have left : AllBlank (v.decor.left .spaceBefore).toList :=
    layout.left (List.all_eq_true.mp rfl) fun _ => AllBlank.withoutReturns
  have right : LineEnd (v.decor.right .spaceBefore).toList :=
    layout.right LineEnd.nil fun _ => LineEnd.withoutReturns
  refine ⟨⟨(key.leaf.left .spaceAfter).toList, (keysText (front ++ [key])).toList ++
    ((key.leaf.right .spaceAfter).toList ++ '=' :: ((v.decor.left .spaceBefore).toList ++
      v.body.toList ++ (v.decor.right .spaceBefore).toList)), _⟩,
    ⟨before, opens.append _, ?_, ?_⟩, rfl, ?_⟩
  · obtain ⟨c, more, written, isKey⟩ := head_keysText some keys
    rw [written]
    rintro _ ⟨⟩ rfl
    exact absurd isKey (by decide)
  · intro rest s rest' reads
    have text : (keysText (front ++ [key])).toList ++ ((key.leaf.right .spaceAfter).toList ++
        '=' :: ((v.decor.left .spaceBefore).toList ++ v.body.toList ++
          (v.decor.right .spaceBefore).toList)) ++ '\n' :: rest =
        [] ++ (keysText (front ++ [key])).toList ++ (key.leaf.right .spaceAfter).toList ++
          '=' :: ((v.decor.left .spaceBefore).toList ++ (v.body.toList ++
            ((v.decor.right .spaceBefore).toList ++ '\n' :: rest))) := by
      simp
    have only : ∀ inner, [] ++ (keysText (front ++ [key])).toList ++
        (key.leaf.right .spaceAfter).toList ++ '=' :: ((v.decor.left .spaceBefore).toList ++
          (v.body.toList ++ ((v.decor.right .spaceBefore).toList ++ '\n' :: rest))) ≠ '[' :: inner := by
      intro inner same
      obtain ⟨c, more, written, _⟩ := opens
      rw [List.nil_append, written] at same
      exact (other c (by rw [written]; rfl)).1 (List.cons.inj same).1
    rw [text] at reads
    generalize whole : _ ++ '=' :: _ = cs at reads only
    cases reads with
    | array => exact absurd rfl (only _)
    | table => exact absurd rfl (only _)
    | pair _ found read tail =>
      obtain ⟨same, again⟩ := keyPath?_again some keys AllBlank.nil after (endsKey_equals _)
        (whole ▸ found)
      obtain rfl := (List.cons.inj same).2
      have value : blanks ((v.decor.left .spaceBefore).toList ++ (v.body.toList ++
          ((v.decor.right .spaceBefore).toList ++ '\n' :: rest))) =
            ((v.decor.left .spaceBefore).toList, v.body.toList ++
              ((v.decor.right .spaceBefore).toList ++ '\n' :: rest)) := by
        obtain ⟨d, inside, body, blank, _⟩ := rereads.opens
        refine blanks_split left ?_
        rw [body]
        simpa using blank
      rw [value] at read ⊢
      obtain ⟨b, skips⟩ := right.skips
      have stops : Stops ((v.decor.right .spaceBefore).toList ++ '\n' :: rest) :=
        stops_of_skip? skips (by decide)
      obtain ⟨rfl, _⟩ := rereads.again _ _ _ _ stops read
      obtain ⟨rfl, rfl⟩ := Prod.mk.inj
        (Option.some.inj ((lineTail_of_lineEnd right rest).symm.trans tail))
      refine ⟨rfl, ?_⟩
      simpa using Part.ReadAs.pair again ⟨_, _, stops, read⟩ rereads
  · rw [pathText_eq _ some]
    simp [Written.line, Value.text_eq, Decor.wrap]

theorem endsKey_bracket (rest : List Char) : EndsKey (']' :: rest) :=
  ⟨by simp; decide, by simp [isBlank], by simp⟩

/-- A name between single brackets does not begin with a bracket of its own. -/
theorem bracket_notMem_head {path : List Key} {before rest : List Char} (blank : AllBlank before)
    (some : path ≠ []) (kept : ∀ k ∈ path, k.Kept) :
    (before ++ ((keysText path).toList ++ rest)).head? ≠ Option.some '[' := by
  intro head
  cases before with
  | nil =>
    obtain ⟨⟨c, more, written, _⟩, other⟩ := opens_keysText some kept
    rw [written] at head other
    exact (other c rfl).1 (Option.some.inj head)
  | cons d before =>
    obtain rfl : d = '[' := Option.some.inj head
    exact absurd (blank _ List.mem_cons_self) (by decide)

def headerUsual (first : Bool) : Usual := ⟨if first then "" else "\n", ""⟩

def Section.headerPart (first : Bool) (s : Section) : Part :=
  .header s.isArray s.path (s.style.decor.left (headerUsual first))
    (s.style.decor.right (headerUsual first))

theorem header_again {s : Section} (first : Bool) (some : s.path ≠ [])
    (keys : ∀ k ∈ s.path, k.OfTable) (sides : s.style.decor.Sides Skipped LineEnd) :
    ∃ w : Written, w.Again ∧ w.part = s.headerPart first ∧ w.line = (s.header first).toList := by
  obtain ⟨front, last, whole⟩ : ∃ front last, s.path = front ++ [last] :=
    ⟨_, _, (List.dropLast_concat_getLast some).symm⟩
  have kept : ∀ k ∈ front ++ [last], k.Kept := fun k mem => (keys k (whole ▸ mem)).kept
  have blank := (keys last (by simp [whole])).blank
  have opening := allBlank_left blank (show AllBlank Usual.tight.before.toList from AllBlank.nil)
  have closing := allBlank_right blank (show AllBlank Usual.tight.after.toList from AllBlank.nil)
  obtain ⟨usual, layout⟩ : ∃ usual : Usual, usual = headerUsual first := ⟨_, rfl⟩
  have before : Skipped (s.style.decor.left usual).toList := by
    refine sides.left ?_ fun _ => Skipped.withoutReturns
    rw [layout]
    cases first <;> rfl
  have after : LineEnd (s.style.decor.right usual).toList := by
    refine sides.right ?_ fun _ => LineEnd.withoutReturns
    rw [layout]
    exact LineEnd.nil
  have some : front ++ [last] ≠ [] := by simp
  obtain ⟨name, written⟩ : ∃ name, name = (last.leaf.left .tight).toList ++
    (keysText (front ++ [last])).toList ++ (last.leaf.right .tight).toList := ⟨_, rfl⟩
  have path : (pathText .tight s.path).toList = name := by
    rw [whole, pathText_eq _ some, written]
    simp [Decor.wrap]
  have part : ∀ {path' last'}, keysAgain (last.leaf.left .tight).toList
      (last.leaf.right .tight).toList (front ++ [last]) = Option.some (path', last') →
        (s.headerPart first).ReadAs (s.style.decor.left usual,
          .header s.isArray path' last' (s.style.decor.right usual)) := by
    intro path' last' again
    rw [Section.headerPart, whole, ← layout]
    exact .header again
  cases array : s.isArray with
  | true =>
    refine ⟨⟨(s.style.decor.left usual).toList, '[' :: '[' :: (name ++ [']', ']'] ++
      (s.style.decor.right usual).toList), _⟩, ⟨before, ⟨'[', _, rfl, by decide⟩, by simp, ?_⟩, rfl, ?_⟩
    · intro rest t rest' reads
      rw [List.cons_append, List.cons_append] at reads
      generalize whole : name ++ _ ++ _ ++ _ = cs at reads
      cases reads with
      | array found tail =>
        rw [← whole, List.append_assoc, List.append_assoc, List.cons_append, List.singleton_append,
          written] at found
        obtain ⟨same, again⟩ := keyPath?_again some kept opening closing (endsKey_bracket _) found
        obtain rfl := (List.cons.inj (List.cons.inj same).2).2
        obtain ⟨rfl, rfl⟩ := Prod.mk.inj
          (Option.some.inj ((lineTail_of_lineEnd after rest).symm.trans tail))
        exact ⟨rfl, by simpa [array, Section.headerPart] using part again⟩
      | table only => exact absurd rfl (only _)
      | pair only => exact absurd rfl (only _)
    · simp [Written.line, Section.header, Decor.wrap, path, array, layout, headerUsual]
  | false =>
    refine ⟨⟨(s.style.decor.left usual).toList, '[' :: (name ++ [']'] ++
      (s.style.decor.right usual).toList), _⟩, ⟨before, ⟨'[', _, rfl, by decide⟩, by simp, ?_⟩, rfl, ?_⟩
    · intro rest t rest' reads
      have single : ∀ r, name ++ [']'] ++ (s.style.decor.right usual).toList ++ '\n' :: rest ≠
          '[' :: r := by
        intro r same
        have head : (name ++ ([']'] ++ (s.style.decor.right usual).toList ++ '\n' :: rest)).head? =
            Option.some '[' := by
          rw [← List.append_assoc, ← List.append_assoc, same]
          rfl
        rw [written, List.append_assoc, List.append_assoc] at head
        exact bracket_notMem_head opening some kept head
      rw [List.cons_append] at reads
      generalize whole : name ++ _ ++ _ ++ _ = cs at reads single
      cases reads with
      | array => exact absurd rfl (single _)
      | table _ found tail =>
        rw [← whole, List.append_assoc, List.append_assoc, List.singleton_append, written] at found
        obtain ⟨same, again⟩ := keyPath?_again some kept opening closing (endsKey_bracket _) found
        obtain rfl := (List.cons.inj same).2
        obtain ⟨rfl, rfl⟩ := Prod.mk.inj
          (Option.some.inj ((lineTail_of_lineEnd after rest).symm.trans tail))
        exact ⟨rfl, by simpa [array, Section.headerPart] using part again⟩
      | pair only => exact absurd rfl (only _)
    · simp [Written.line, Section.header, Decor.wrap, path, array, layout, headerUsual]

end ClassDiagram.Toml
