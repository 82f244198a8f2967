import ClassDiagram.Proofs.Toml.Spelling
import ClassDiagram.Toml.KeyPath

/-! Keys, read again where they are written. A key keeps its spelling, and between the dots of a
dotted key there are blanks only. -/

namespace ClassDiagram.Toml

/-! ### Single keys -/

def Lexeme.IsKey (lexeme : Lexeme) : Prop :=
  ∀ rest, (∀ c ∈ rest.head?, isBareKeyChar c = false) →
    simpleKey? (lexeme.spelling ++ rest) = some (lexeme, rest)

theorem isKey_of_simpleKey? {cs rest : List Char} {lexeme : Lexeme}
    (read : simpleKey? cs = some (lexeme, rest)) : lexeme.IsKey := by
  intro rest' apart
  unfold simpleKey? at read
  split at read
  · next found =>
    obtain ⟨mark, inside, isMark, spelling, again⟩ := quotedKey?_again (read ▸ found)
    refine simpleKey?_of_quotedKey? ?_
    rw [spelling]
    simpa [quotedKey?_mark isMark] using again rest'
  · simp only at read
    split at read
    · cases read
    · next some =>
      cases read
      exact simpleKey?_bare some (List.all_eq_true.mp List.all_takeWhile) apart

theorem head_of_simpleKey? {cs rest : List Char} {lexeme : Lexeme}
    (read : simpleKey? cs = some (lexeme, rest)) :
    ∃ c more, cs = c :: more ∧ (isQuote c = true ∨ isBareKeyChar c = true) := by
  cases cs with
  | nil => simp [simpleKey?, quotedKey?] at read
  | cons c more =>
    refine ⟨c, more, rfl, ?_⟩
    cases quote : isQuote c with
    | true => exact .inl rfl
    | false =>
      have none : quotedKey? (c :: more) = none := quotedKey?_of_head (by simpa using quote)
      cases bare : isBareKeyChar c with
      | true => exact .inr rfl
      | false => simp [simpleKey?, none, bare] at read

theorem not_skipped_of_key {c : Char} (key : isQuote c = true ∨ isBareKeyChar c = true) :
    isBlank c = false ∧ c ≠ '\n' ∧ c ≠ '\r' ∧ c ≠ '#' ∧ c ≠ '[' ∧ c ≠ '\x7d' := by
  have other : ∀ d, isQuote d = false → isBareKeyChar d = false → c ≠ d := by
    rintro d quote bare rfl
    simp [quote, bare] at key
  have space : c ≠ ' ' := other ' ' (by decide) (by decide)
  have tab : c ≠ '\t' := other '\t' (by decide) (by decide)
  exact ⟨by simp [isBlank, space, tab], other _ (by decide) (by decide), other _ (by decide) (by decide),
    other _ (by decide) (by decide), other _ (by decide) (by decide), other _ (by decide) (by decide)⟩

/-! ### Layout -/

section

variable {before after : List Char → Prop} {d : Decor} {usual : Usual}

theorem toList_left (d : Decor) (usual : Usual) :
    (d.left usual).toList = (d.before.getD usual.before).toList.filter (· ≠ '\r') :=
  toList_withoutReturns _

theorem toList_right (d : Decor) (usual : Usual) :
    (d.right usual).toList = (d.after.getD usual.after).toList.filter (· ≠ '\r') :=
  toList_withoutReturns _

theorem withoutReturns_again (text : String) :
    withoutReturns (withoutReturns text) = withoutReturns text :=
  withoutReturns_of_notMem (by simp [toList_withoutReturns])

theorem Decor.left_around (before after : String) (usual : Usual) :
    (Decor.around before after).left usual = Toml.withoutReturns before := rfl

theorem Decor.right_around (before after : String) (usual : Usual) :
    (Decor.around before after).right usual = Toml.withoutReturns after := rfl

theorem Decor.withoutReturns_left (d : Decor) (usual : Usual) :
    Toml.withoutReturns (d.left usual) = d.left usual := withoutReturns_again _

theorem Decor.withoutReturns_right (d : Decor) (usual : Usual) :
    Toml.withoutReturns (d.right usual) = d.right usual := withoutReturns_again _

theorem Decor.Sides.left (sides : d.Sides before after) (other : before usual.before.toList)
    (stable : ∀ cs, before cs → before (cs.filter (· ≠ '\r'))) :
    before (d.left usual).toList := by
  rw [toList_left]
  cases written : d.before with
  | none => exact stable _ other
  | some text => exact stable _ (sides.before text written)

theorem Decor.Sides.right (sides : d.Sides before after) (other : after usual.after.toList)
    (stable : ∀ cs, after cs → after (cs.filter (· ≠ '\r'))) :
    after (d.right usual).toList := by
  rw [toList_right]
  cases written : d.after with
  | none => exact stable _ other
  | some text => exact stable _ (sides.after text written)

theorem AllBlank.withoutReturns {cs : List Char} (blank : AllBlank cs) :
    AllBlank (cs.filter (· ≠ '\r')) := fun c mem => blank c (List.mem_filter.mp mem).1

end

abbrev Decor.Blank (d : Decor) : Prop := d.Sides AllBlank AllBlank

theorem Decor.blank_none : Decor.none.Blank := ⟨by simp [Decor.none], by simp [Decor.none]⟩

theorem Decor.blank_around {before after : List Char} (first : AllBlank before)
    (second : AllBlank after) :
    (Decor.around (String.ofList before) (String.ofList after)).Blank := by
  constructor <;> simp [Decor.around, first, second]

namespace Key

/-- A key that reads itself, and that has blanks only where it stands between dots. -/
structure Kept (k : Key) : Prop where
  text : Lexeme.IsKey ⟨k.name, k.text.toList⟩
  dotted : k.dotted.Blank

theorem kept_new (name : String) : (Key.new name).Kept := by
  refine ⟨fun rest apart => ?_, Decor.blank_none⟩
  have read := simpleKey?_spellKey name.toList apart
  simpa [Key.new, Key.text] using read

end Key

/-! ### Dotted keys -/

def keysText : List Key → String
  | [] => ""
  | [key] => key.text
  | key :: rest => key.text ++ key.dotted.right .tight ++ dottedTail rest

theorem dottedTail_cons (key : Key) (rest : List Key) :
    dottedTail (key :: rest) = "." ++ key.dotted.left .tight ++ keysText (key :: rest) := by
  cases rest with
  | nil => rfl
  | cons next rest => simp [dottedTail, keysText, Decor.wrap, String.append_assoc]

theorem pathText_eq (usual : Usual) {path : List Key} (some : path ≠ []) :
    pathText usual path = (path.getLast some).leaf.wrap usual (keysText path) := by
  match path with
  | [key] => rfl
  | key :: next :: rest => 
    simp [pathText, keysText, List.getLast_cons, List.getLastD_eq_getLast?,
      List.getLast?_eq_some_getLast]

/-- What is seen of a key before a dot. Before the first key of all is nothing of its own. -/
def Key.look (first : Bool) (k : Key) : String × String × String × String :=
  (k.name, k.text, if first then "" else k.dotted.left .tight, k.dotted.right .tight)

def pathLook (first : Bool) : List Key → List (String × String × String × String)
  | [] => []
  | k :: rest => k.look first :: pathLook false rest

theorem pathLook_length {first : Bool} {front front' : List Key}
    (same : pathLook first front' = pathLook first front) : front'.length = front.length := by
  have length : ∀ (first : Bool) (path : List Key), (pathLook first path).length = path.length := by
    intro first path
    induction path generalizing first with
    | nil => rfl
    | cons k path ih => exact congrArg (· + 1) (ih false)
  rw [← length first, same, length]

theorem dottedTail_of_look {path path' : List Key} (same : pathLook false path' = pathLook false path)
    (k : Key) : dottedTail (path' ++ [k]) = dottedTail (path ++ [k]) := by
  have step : ∀ (key : Key) (rest : List Key), dottedTail (key :: rest ++ [k]) =
      "." ++ key.dotted.wrap .tight key.text ++ dottedTail (rest ++ [k]) := by
    intro key rest
    cases rest <;> rfl
  induction path generalizing path' with
  | nil =>
    obtain rfl : path' = [] := List.length_eq_zero_iff.mp (pathLook_length same)
    rfl
  | cons key path ih =>
    cases path' with
    | nil => cases same
    | cons key' path' =>
      obtain ⟨own, others⟩ := List.cons.inj same
      simp only [Key.look, Bool.false_eq_true, if_false, Prod.mk.injEq] at own
      rw [step, step, Decor.wrap, Decor.wrap, own.2.1, own.2.2.1, own.2.2.2, ih others]

theorem keysText_of_look {path path' : List Key} (same : pathLook true path' = pathLook true path)
    (k : Key) : keysText (path' ++ [k]) = keysText (path ++ [k]) := by
  have step : ∀ (key : Key) (rest : List Key), keysText (key :: rest ++ [k]) =
      key.text ++ key.dotted.right .tight ++ dottedTail (rest ++ [k]) := by
    intro key rest
    cases rest <;> rfl
  cases path with
  | nil =>
    obtain rfl : path' = [] := List.length_eq_zero_iff.mp (pathLook_length same)
    rfl
  | cons key path =>
    cases path' with
    | nil => cases same
    | cons key' path' =>
      obtain ⟨own, others⟩ := List.cons.inj same
      simp only [Key.look, if_true, Prod.mk.injEq] at own
      rw [step, step, own.2.1, own.2.2.2, dottedTail_of_look others]

theorem keysText_last {k k' : Key} (text : k'.text = k.text)
    (left : k'.dotted.left .tight = k.dotted.left .tight) (path : List Key) :
    keysText (path ++ [k']) = keysText (path ++ [k]) := by
  induction path with
  | nil => exact text
  | cons first path ih =>
    cases path with
    | nil => simp [keysText, dottedTail, text, left]
    | cons next path =>
      have whole : ∀ k : Key, keysText (first :: next :: path ++ [k]) = first.text ++
          first.dotted.right .tight ++ dottedTail (next :: (path ++ [k])) := fun k => rfl
      rw [whole, whole, dottedTail_cons, dottedTail_cons]
      simp only [List.cons_append] at ih
      rw [ih]

theorem head_keysText {path : List Key} (some : path ≠ []) (kept : ∀ k ∈ path, k.Kept) :
    ∃ c more, (keysText path).toList = c :: more ∧ (isQuote c = true ∨ isBareKeyChar c = true) := by
  cases path with
  | nil => exact absurd rfl some
  | cons key path =>
    obtain ⟨c, more, opening, isKey⟩ :=
      head_of_simpleKey? ((kept key List.mem_cons_self).text [] (by simp))
    rw [List.append_nil] at opening
    have opening : key.text.toList = c :: more := opening
    cases path with
    | nil => exact ⟨c, more, opening, isKey⟩
    | cons next path =>
      refine ⟨c, more ++ (key.dotted.right .tight ++ dottedTail (next :: path)).toList, ?_, isKey⟩
      simp [keysText, opening]

theorem opens_keysText {path : List Key} (some : path ≠ []) (kept : ∀ k ∈ path, k.Kept) :
    Opens (keysText path).toList ∧ ∀ c ∈ (keysText path).toList.head?, c ≠ '[' ∧ c ≠ '\x7d' := by
  obtain ⟨c, more, written, isKey⟩ := head_keysText some kept
  obtain ⟨blank, line, ret, comment, bracket, brace⟩ := not_skipped_of_key isKey
  refine ⟨⟨c, more, written, blank, line, ret, comment⟩, ?_⟩
  rw [written]
  simpa using ⟨bracket, brace⟩

def names (path : List Key) : List String := path.map Key.name

structure EndsKey (rest : List Char) : Prop where
  bare : ∀ c ∈ rest.head?, isBareKeyChar c = false
  blank : ∀ c ∈ rest.head?, isBlank c = false
  dot : ∀ c ∈ rest.head?, c ≠ '.'

theorem bare_append {after rest : List Char} (blank : AllBlank after)
    (stop : ∀ c ∈ rest.head?, isBareKeyChar c = false) :
    ∀ c ∈ (after ++ rest).head?, isBareKeyChar c = false := by
  cases after with
  | nil => exact stop
  | cons d after =>
    rintro c first
    obtain rfl : d = c := by simpa using first
    have cases : d = ' ' ∨ d = '\t' := by simpa [isBlank] using blank d List.mem_cons_self
    obtain rfl | rfl := cases <;> decide

theorem segment?_again {lexeme : Lexeme} (isKey : lexeme.IsKey) {before after rest : List Char}
    (first : AllBlank before) (second : AllBlank after)
    (bare : ∀ c ∈ rest.head?, isBareKeyChar c = false) (blank : ∀ c ∈ rest.head?, isBlank c = false) :
    segment? (before ++ lexeme.spelling ++ after ++ rest) =
      some (⟨before, lexeme, after⟩, rest) := by
  have read := isKey (after ++ rest) (bare_append second bare)
  obtain ⟨c, more, opening, key⟩ := head_of_simpleKey? read
  have head : ∀ d ∈ (lexeme.spelling ++ (after ++ rest)).head?, isBlank d = false := by
    rw [opening]
    simpa using (not_skipped_of_key key).1
  rw [List.append_assoc, List.append_assoc, segment?, blanks_split first head]
  simp only [read, blanks_split second blank]

theorem segments?_dot {cs rest : List Char} {segment : Segment}
    (read : segment? cs = some (segment, '.' :: rest)) :
    segments? cs = (segments? rest).map fun (segments, rest) => (segment :: segments, rest) := by
  rw [segments?]
  split <;> simp_all

theorem segments?_last {cs rest : List Char} {segment : Segment}
    (read : segment? cs = some (segment, rest)) (dot : ∀ c ∈ rest.head?, c ≠ '.') :
    segments? cs = some ([segment], rest) := by
  rw [segments?]
  split
  · simp_all
  · next found =>
    cases found.symm.trans read
    exact absurd rfl (dot '.' rfl)
  · simp_all

def contents (segments : List Segment) : List String := segments.map fun s => s.key.content

theorem keysOf_eq {segments : List Segment} {path : List Key} {last : Key}
    (found : keysOf segments = some (path, last)) :
    ∃ front s outer inner, segments = front ++ [s] ∧ path = front.map Segment.toKey ∧
      last = { s.toKey with
        leaf := .around (String.ofList outer) (String.ofList s.after)
        dotted := .around (String.ofList s.before) (String.ofList inner) } ∧
      (∃ first ∈ segments, outer = first.before) ∧ inner = [] := by
  cases segments with
  | nil => cases found
  | cons first rest =>
    cases found
    exact ⟨_, _, first.before, [], (List.dropLast_concat_getLast _).symm, rfl, rfl,
      ⟨first, List.mem_cons_self, rfl⟩, rfl⟩

theorem names_keysOf {segments : List Segment} {path : List Key} {last : Key}
    (found : keysOf segments = some (path, last)) : names (path ++ [last]) = contents segments := by
  obtain ⟨front, s, _, _, rfl, rfl, rfl, _⟩ := keysOf_eq found
  simp [names, contents, Segment.toKey]

def segmentsOf (before after : List Char) : List Key → List Segment
  | [] => []
  | [key] => [⟨before, ⟨key.name, key.text.toList⟩, after⟩]
  | key :: next :: rest =>
    ⟨before, ⟨key.name, key.text.toList⟩, (key.dotted.right .tight).toList⟩ ::
      segmentsOf (next.dotted.left .tight).toList after (next :: rest)

theorem contents_segmentsOf (before after : List Char) (path : List Key) :
    contents (segmentsOf before after path) = names path := by
  fun_induction segmentsOf before after path with
  | case1 => rfl
  | case2 => rfl
  | case3 before key next rest ih => exact congrArg (key.name :: ·) ih

theorem segments?_again {path : List Key} (some : path ≠ []) (kept : ∀ k ∈ path, k.Kept)
    {before after rest : List Char} (first : AllBlank before) (second : AllBlank after)
    (ends : EndsKey rest) :
    segments? (before ++ (keysText path).toList ++ after ++ rest) =
      Option.some (segmentsOf before after path, rest) := by
  induction path generalizing before with
  | nil => exact absurd rfl some
  | cons key path ih =>
    obtain ⟨own, kept⟩ := List.forall_mem_cons.mp kept
    cases path with
    | nil => exact segments?_last (segment?_again own.text first second ends.bare ends.blank) ends.dot
    | cons next path =>
      have right : AllBlank (key.dotted.right .tight).toList :=
        own.dotted.right AllBlank.nil fun _ => AllBlank.withoutReturns
      have left : AllBlank (next.dotted.left .tight).toList :=
        (kept next List.mem_cons_self).dotted.left AllBlank.nil fun _ => AllBlank.withoutReturns
      have read := ih (by simp) kept left
      have dot : ∀ more : List Char, (∀ c ∈ ('.' :: more).head?, isBareKeyChar c = false) ∧
          ∀ c ∈ ('.' :: more).head?, isBlank c = false := fun more => by simp [isBlank]; decide
      have ends := dot ((next.dotted.left .tight).toList ++ (keysText (next :: path)).toList ++
        after ++ rest)
      have segment := segment?_again own.text first right ends.1 ends.2
      have text : before ++ (keysText (key :: next :: path)).toList ++ after ++ rest =
          before ++ key.text.toList ++ (key.dotted.right .tight).toList ++
            '.' :: ((next.dotted.left .tight).toList ++ (keysText (next :: path)).toList ++ after ++
              rest) := by
        rw [keysText, dottedTail_cons]
        · simp
        · simp
      rw [text, segments?_dot segment, read]
      rfl

/-- The keys that are read where keys are written, with the text before and after the whole. -/
def keysAgain (before after : List Char) (path : List Key) : Option (List Key × Key) :=
  keysOf (segmentsOf before after path)

theorem names_keysAgain {before after : List Char} {path : List Key} {keys : List Key × Key}
    (again : keysAgain before after path = some keys) : names (keys.1 ++ [keys.2]) = names path :=
  (names_keysOf again).trans (contents_segmentsOf before after path)

theorem segmentsOf_snoc (before after : List Char) (path : List Key) (last : Key) :
    ∃ front, segmentsOf before after (path ++ [last]) = front ++
        [⟨if path = [] then before else (last.dotted.left .tight).toList,
          ⟨last.name, last.text.toList⟩, after⟩] ∧
      ∀ s ∈ (segmentsOf before after (path ++ [last])).head?, s.before = before := by
  induction path generalizing before with
  | nil => exact ⟨[], rfl, by simp [segmentsOf]⟩
  | cons key path ih =>
    cases path with
    | nil =>
      exact ⟨[⟨before, ⟨key.name, key.text.toList⟩, (key.dotted.right .tight).toList⟩], rfl,
        by simp [segmentsOf]⟩
    | cons next path =>
      obtain ⟨front, same, _⟩ := ih (next.dotted.left .tight).toList
      simp only [List.cons_append] at same
      refine ⟨⟨before, ⟨key.name, key.text.toList⟩, (key.dotted.right .tight).toList⟩ :: front, ?_,
        by simp [segmentsOf]⟩
      simp only [List.cons_append, segmentsOf]
      rw [same]
      simp

theorem last_keysAgain {before after : List Char} {path path' : List Key} {last last' : Key}
    (again : keysAgain before after (path ++ [last]) = some (path', last')) :
    last'.name = last.name ∧ last'.text = last.text ∧
      last'.leaf = .around (String.ofList before) (String.ofList after) ∧
      last'.dotted = .around
        (if path = [] then String.ofList before else last.dotted.left .tight) "" := by
  obtain ⟨front, whole, first⟩ := segmentsOf_snoc before after path last
  rw [keysAgain] at again
  generalize segmentsOf before after (path ++ [last]) = segments at again whole first
  cases segments with
  | nil => simp at whole
  | cons s rest =>
    have before' : s.before = before := first s rfl
    obtain ⟨_, rfl⟩ := Prod.mk.inj (Option.some.inj again)
    simp only [whole, List.getLast_concat, before']
    refine ⟨rfl, by simp [Segment.toKey, Key.text], trivial, ?_⟩
    split <;> simp

theorem pathLook_segmentsOf {first : Bool} {before : List Char} (after : List Char)
    {path : List Key} (last : Key)
    (left : first = false → ∀ k ∈ path.head?, before = (k.dotted.left .tight).toList) :
    pathLook first ((segmentsOf before after (path ++ [last])).dropLast.map Segment.toKey) =
      pathLook first path := by
  induction path generalizing first before with
  | nil => rfl
  | cons key path ih =>
    obtain ⟨next, rest, whole, head⟩ : ∃ next rest, path ++ [last] = next :: rest ∧
        ∀ k ∈ path.head?, next = k := by
      cases path with
      | nil => exact ⟨last, [], rfl, by simp⟩
      | cons next path => exact ⟨next, path ++ [last], rfl, by simp⟩
    obtain ⟨front, same, _⟩ := segmentsOf_snoc (next.dotted.left .tight).toList after path last
    have others := @ih false (next.dotted.left .tight).toList
      fun _ k mem => by rw [head k mem]
    rw [whole] at same others
    rw [List.cons_append, whole, segmentsOf, List.dropLast_cons_of_ne_nil (by simp [same]),
      List.map_cons, pathLook, pathLook, others]
    congr 1
    cases first with
    | true => simp [Key.look, Segment.toKey, Key.text, Decor.right_around, Decor.withoutReturns_right]
    | false =>
      simp [Key.look, Segment.toKey, Key.text, Decor.left_around, Decor.right_around, left,
        Decor.withoutReturns_left, Decor.withoutReturns_right]

theorem pathLook_keysAgain {before after : List Char} {path path' : List Key} {last last' : Key}
    (again : keysAgain before after (path ++ [last]) = some (path', last')) :
    pathLook true path' = pathLook true path := by
  obtain ⟨front, s, _, _, whole, rfl, _⟩ := keysOf_eq again
  have same := @pathLook_segmentsOf true before after path last nofun
  rwa [whole, List.dropLast_concat] at same

theorem keysText_keysAgain {before after : List Char} {path path' : List Key} {last last' : Key}
    (again : keysAgain before after (path ++ [last]) = some (path', last')) :
    keysText (path' ++ [last']) = keysText (path ++ [last]) := by
  obtain ⟨_, text, _, dotted⟩ := last_keysAgain again
  rw [keysText_of_look (pathLook_keysAgain again)]
  by_cases none : path = []
  · rw [none]
    exact text
  · refine keysText_last text ?_ path
    rw [dotted, if_neg none, Decor.left_around, Decor.withoutReturns_left]

/-- A dotted key reads itself, unless it is refused for its length. -/
theorem keyPath?_again {path : List Key} (some : path ≠ []) (kept : ∀ k ∈ path, k.Kept)
    {before after rest : List Char} (first : AllBlank before) (second : AllBlank after)
    (ends : EndsKey rest) {keys : List Key × Key} {rest' : List Char}
    (read : keyPath? (before ++ (keysText path).toList ++ after ++ rest) =
      Option.some (keys, rest')) : rest' = rest ∧ keysAgain before after path = Option.some keys := by
  obtain ⟨segments, found, divided⟩ := keyPath?_eq_some read
  cases (segments?_again some kept first second ends).symm.trans found
  exact ⟨rfl, divided⟩

/-! ### Keys that were read -/

theorem segment?_isKey {cs rest : List Char} {segment : Segment}
    (read : segment? cs = some (segment, rest)) :
    AllBlank segment.before ∧ segment.key.IsKey ∧ AllBlank segment.after := by
  obtain ⟨key, behind, found, rfl, rfl⟩ := segment?_eq_some read
  exact ⟨allBlank_blanks cs, isKey_of_simpleKey? found, allBlank_blanks behind⟩

theorem segments?_isKey {cs rest : List Char} {segments : List Segment}
    (read : segments? cs = some (segments, rest)) :
    ∀ s ∈ segments, AllBlank s.before ∧ s.key.IsKey ∧ AllBlank s.after := by
  fun_induction segments? cs generalizing segments rest with
  | case1 => cases read
  | case2 cs segment inner found _ ih =>
    obtain ⟨⟨more, _⟩, later, same⟩ := Option.map_eq_some_iff.mp read
    cases same
    exact List.forall_mem_cons.mpr ⟨segment?_isKey found, ih later⟩
  | case3 cs segment inner _ found =>
    cases read
    simpa using segment?_isKey found

theorem kept_toKey {s : Segment} (before : AllBlank s.before) (isKey : s.key.IsKey)
    (after : AllBlank s.after) : s.toKey.Kept := by
  refine ⟨?_, Decor.blank_around before after⟩
  simpa [Segment.toKey, Key.text] using isKey

theorem keyPath?_kept {cs rest : List Char} {path : List Key} {last : Key}
    (read : keyPath? cs = some ((path, last), rest)) :
    (∀ k ∈ path, k.Kept ∧ k.leaf.Blank) ∧ last.Kept ∧ last.leaf.Blank := by
  obtain ⟨segments, found, divided⟩ := keyPath?_eq_some read
  have all := segments?_isKey found
  obtain ⟨front, s, outer, inner, rfl, rfl, rfl, ⟨first, mem, rfl⟩, rfl⟩ := keysOf_eq divided
  obtain ⟨front, own⟩ := List.forall_mem_append.mp all
  obtain ⟨before, isKey, after⟩ := own s (List.mem_singleton_self s)
  refine ⟨?_, ⟨(kept_toKey before isKey after).text, Decor.blank_around before AllBlank.nil⟩,
    Decor.blank_around (all first mem).1 after⟩
  intro k inside
  obtain ⟨s, mem, rfl⟩ := List.mem_map.mp inside
  obtain ⟨before, isKey, after⟩ := front s mem
  exact ⟨kept_toKey before isKey after, Decor.blank_none⟩

end ClassDiagram.Toml
