import ClassDiagram.Proofs.Diagram.Completeness

/-! Reading a diagram back. A text is cut into lines and a line into words, and the words tell
what line it is: only an edge starts with a name that holds a colon. As long as no name holds
a blank, reading gives back the lines that were written. So two diagrams of the same text have
the same direction, the same blocks and the same edges. -/

namespace ClassDiagram

namespace Text

def Unblank (s : String) : Prop := ∀ c ∈ s.toList, isBlank c = false

instance (s : String) : Decidable (Unblank s) := List.decidableBAll _ s.toList

theorem Unblank.notMem {s : String} (unblank : Unblank s) {c : Char} (blank : isBlank c = true) :
    c ∉ s.toList := by
  intro present
  rw [unblank c present] at blank
  cases blank

theorem Unblank.append {s t : String} (left : Unblank s) (right : Unblank t) :
    Unblank (s ++ t) := by
  intro c present
  rw [String.toList_append, List.mem_append] at present
  exact present.elim (left c) (right c)

end Text

namespace Label

open Text (Unblank)

theorem unblank_escape {s : String} (unblank : Unblank s) : Unblank (escape s) := by
  intro c present
  rw [escape, String.toList_ofList, List.mem_flatMap] at present
  obtain ⟨d, inside, made⟩ := present
  unfold escapeChar at made
  split at made
  · cases made
  · obtain rfl : c = ':' := by simpa using made
    rfl
  · obtain rfl : c = d := by simpa using made
    exact unblank c inside

theorem unblank_scope {path : String} (unblank : Unblank path) : Unblank (scope path) := by
  unfold scope
  split
  · decide
  · exact unblank_escape unblank

theorem unblank_external {id : String} (unblank : Unblank id) : Unblank (external id) := by
  refine unblank_escape fun c present => ?_
  rw [String.toList_ofList, List.mem_map] at present
  obtain ⟨d, inside, rfl⟩ := present
  split
  · rfl
  · refine unblank d ?_
    rw [Text.afterLast, List.mem_reverse] at inside
    exact List.mem_reverse.mp ((List.takeWhile_sublist _).subset inside)

theorem unblank_qualified {t : DeclaredType} (scope : Unblank t.scope) (name : Unblank t.name) :
    Unblank (qualified t) :=
  ((unblank_scope scope).append (by decide)).append name

theorem colon_mem_qualified (t : DeclaredType) : ':' ∈ (qualified t).toList := by
  simp [qualified]

end Label

theorem DeclaredType.unblank_stereotype {t : DeclaredType} {mark : String}
    (marked : t.stereotype = some mark) : Text.Unblank mark := by
  unfold stereotype at marked
  repeat' split at marked
  all_goals cases marked <;> decide

namespace Diagram

namespace Line

def spelled : Line → Line
  | direction towards => direction (.other towards.text)
  | line => line

def readArrow? (word : String) : Option RelationKind :=
  [RelationKind.inheritance, .realization].find? fun kind => glyph kind = word

def readMark (word : String) : String :=
  String.ofList (word.toList.drop 2).dropLast.dropLast

def ofWords? : List String → Option Line
  | ["classDiagram"] => some header
  | "direction" :: words => some (direction (.other (" ".intercalate words)))
  | ["namespace", scope, "\x7b"] => some (opening scope)
  | ["", "", "class", label] => some (member label none)
  | ["", "", "class", label, mark] => some (member label (some (readMark mark)))
  | ["\x7d"] => some closing
  | [source, arrow, target] => (readArrow? arrow).map fun kind => edge source kind target
  | _ => none

def read? (text : String) : Option Line := ofWords? (Text.split ' ' text)

/-- What a line has to hold so that it can be read back. -/
def Plain : Line → Prop
  | header | closing => True
  | direction towards => '\n' ∉ towards.text.toList
  | opening scope => Text.Unblank scope
  | member label mark => Text.Unblank label ∧ ∀ m ∈ mark, Text.Unblank m
  | edge source _ target => Text.Unblank source ∧ ':' ∈ source.toList ∧ Text.Unblank target

theorem readArrow?_glyph (kind : RelationKind) : readArrow? (glyph kind) = some kind := by
  cases kind <;> decide

theorem readMark_marked (mark : String) : readMark ("<<" ++ mark ++ ">>") = mark := by
  simp [readMark, String.toList_append]

def words : Line → List String
  | header => ["classDiagram"]
  | direction towards => ["direction", towards.text]
  | opening scope => ["namespace", scope, "\x7b"]
  | member label none => ["", "", "class", label]
  | member label (some mark) => ["", "", "class", label, "<<" ++ mark ++ ">>"]
  | closing => ["\x7d"]
  | edge source kind target => [source, glyph kind, target]

theorem text_eq_words (line : Line) : line.text = " ".intercalate line.words := by
  cases line with
  | member label mark => cases mark <;> simp [text, words, ← String.toList_inj]
  | _ => simp [text, words, ← String.toList_inj]

theorem unblank_words {line : Line} (plain : line.Plain) (named : ∀ d, line ≠ direction d) :
    ∀ word ∈ line.words, Text.Unblank word := by
  have literal : ∀ word ∈ ["classDiagram", "namespace", "\x7b", "", "class", "\x7d"],
      Text.Unblank word := by decide
  cases line with
  | direction towards => exact absurd rfl (named towards)
  | member label mark =>
    cases mark with
    | none => simp_all [words, Plain]
    | some mark =>
      have marked : Text.Unblank ("<<" ++ mark ++ ">>") :=
        (Text.Unblank.append (by decide) (plain.2 mark rfl)).append (by decide)
      simp_all [words, Plain]
  | edge source kind target =>
    have arrow : Text.Unblank (glyph kind) := by cases kind <;> decide
    simp_all [words, Plain]
  | _ => simp_all [words, Plain]

theorem split_text {line : Line} (plain : line.Plain) (named : ∀ d, line ≠ direction d) :
    Text.split ' ' line.text = line.words := by
  have some : line.words ≠ [] := by
    cases line with
    | member label mark => cases mark <;> simp [words]
    | _ => simp [words]
  rw [text_eq_words]
  exact Text.split_intercalate some fun word isWord =>
    (unblank_words plain named word isWord).notMem rfl

theorem ofWords?_edge {source : String} (colon : ':' ∈ source.toList) (kind : RelationKind)
    (target : String) : ofWords? [source, glyph kind, target] = some (edge source kind target) := by
  -- The lines of three words differ in the first one: only that of an edge has a colon.
  have notDirection : source ≠ "direction" := fun same => absurd (same ▸ colon) (by decide)
  have notNamespace : source ≠ "namespace" := fun same => absurd (same ▸ colon) (by decide)
  simp [ofWords?, readArrow?_glyph, notNamespace]

theorem read?_text {line : Line} (plain : line.Plain) : read? line.text = some line.spelled := by
  cases line with
  | direction towards =>
    -- The direction may hold spaces of its own, so its words are put together again.
    have split : Text.split ' ' (direction towards).text =
        "direction" :: Text.split ' ' towards.text :=
      Text.split_append ' ' "direction" towards.text
    rw [read?, split, ofWords?, spelled]
    exact congrArg _ (congrArg _ (congrArg _ (Text.intercalate_split ' ' towards.text)))
  | edge source kind target =>
    rw [read?, split_text plain (by simp)]
    exact ofWords?_edge plain.2.1 kind target
  | member label mark =>
    rw [read?, split_text plain (by simp)]
    cases mark with
    | none => rfl
    | some mark =>
      exact congrArg (fun m => some (member label (some m))) (readMark_marked mark)
  | _ =>
    rw [read?, split_text plain (by simp)]
    rfl

theorem notMem_text {line : Line} (plain : line.Plain) : '\n' ∉ line.text.toList := by
  have whole : ∀ {s : String}, Text.Unblank s → '\n' ∉ s.toList := fun unblank =>
    unblank.notMem rfl
  cases line with
  | header => decide
  | direction towards =>
    rw [text, String.toList_append, List.mem_append, not_or]
    exact ⟨by decide, plain⟩
  | opening scope => simp [text, whole plain]
  | member label mark =>
    cases mark with
    | none => simp [text, whole plain.1]
    | some mark => simp [text, whole plain.1, whole (plain.2 mark rfl)]
  | closing => decide
  | edge source kind target =>
    have arrow : '\n' ∉ (glyph kind).toList := by cases kind <;> decide
    simp [text, whole plain.1, arrow, whole plain.2.2]

end Line

def readLines? (text : String) : Option (List Line) :=
  (Text.split '\n' text).dropLast.mapM Line.read?

theorem split_join {ls : List String} (whole : ∀ line ∈ ls, '\n' ∉ line.toList) :
    Text.split '\n' (String.join (ls.map (· ++ "\n"))) = ls ++ [""] := by
  induction ls with
  | nil => rfl
  | cons line rest ih =>
    rw [List.forall_mem_cons] at whole
    rw [List.map_cons, String.join_cons]
    have cut := Text.split_append '\n' line (String.join (rest.map (· ++ "\n")))
    rw [Text.split_of_notMem whole.1, ih whole.2] at cut
    exact cut

theorem readLines?_join {ls : List Line} (plain : ∀ line ∈ ls, line.Plain) :
    readLines? (String.join (ls.map fun line => line.text ++ "\n")) =
      some (ls.map Line.spelled) := by
  have whole : ∀ text ∈ ls.map Line.text, '\n' ∉ text.toList := by
    rw [List.forall_mem_map]
    exact fun line listed => Line.notMem_text (plain line listed)
  have texts : ls.map (fun line => line.text ++ "\n") = (ls.map Line.text).map (· ++ "\n") := by
    rw [List.map_map]
    rfl
  rw [readLines?, texts, split_join whole, List.dropLast_concat]
  clear whole texts
  induction ls with
  | nil => rfl
  | cons line rest ih =>
    rw [List.forall_mem_cons] at plain
    simp [List.mapM_cons, Line.read?_text plain.1, ih plain.2]

/-- A namespace as a diagram shows it, with the labels and marks of its types. -/
structure Block where
  scope : String
  members : List (String × Option String)
  deriving DecidableEq

structure Arrow where
  source : String
  kind : RelationKind
  target : String
  deriving DecidableEq

/-- What a diagram shows. -/
structure Content where
  direction : Option String
  blocks : List Block
  arrows : List Arrow
  deriving DecidableEq

def Block.lines (b : Block) : List Line :=
  .opening b.scope :: b.members.map (fun m => .member m.1 m.2) ++ [.closing]

def Arrow.line (a : Arrow) : Line := .edge a.source a.kind a.target

def Line.arrow? : Line → Option Arrow
  | edge source kind target => some ⟨source, kind, target⟩
  | _ => none

def Line.direction? : Line → Option String
  | direction towards => some towards.text
  | _ => none

def membersOf : List Line → List (String × Option String)
  | .member label mark :: rest => (label, mark) :: membersOf rest
  | _ => []

def blocksOf : List Line → List Block
  | [] => []
  | .opening scope :: rest => ⟨scope, membersOf rest⟩ :: blocksOf rest
  | _ :: rest => blocksOf rest

theorem membersOf_append (ms : List (String × Option String)) (rest : List Line) :
    membersOf (ms.map (fun m => .member m.1 m.2) ++ .closing :: rest) = ms := by
  induction ms with
  | nil => rfl
  | cons m ms ih => rw [List.map_cons, List.cons_append, membersOf, ih]

theorem blocksOf_append {ls : List Line} (closed : ∀ line ∈ ls, ∀ scope, line ≠ .opening scope)
    (rest : List Line) : blocksOf (ls ++ rest) = blocksOf rest := by
  induction ls with
  | nil => rfl
  | cons line ls ih =>
    rw [List.forall_mem_cons] at closed
    rw [List.cons_append, ← ih closed.2]
    cases line with
    | opening scope => exact absurd rfl (closed.1 scope)
    | _ => rfl

theorem blocksOf_blocks (bs : List Block) {rest : List Line}
    (closed : ∀ line ∈ rest, ∀ scope, line ≠ .opening scope) :
    blocksOf (bs.flatMap Block.lines ++ rest) = bs := by
  induction bs with
  | nil =>
    have none := blocksOf_append closed []
    rwa [List.append_nil] at none
  | cons b bs ih =>
    have members : ∀ line ∈ b.members.map (fun m => Line.member m.1 m.2),
        ∀ scope, line ≠ .opening scope := by
      rw [List.forall_mem_map]
      exact fun _ _ _ => Line.noConfusion
    rw [List.flatMap_cons, List.append_assoc, Block.lines, List.cons_append, List.cons_append,
      List.append_assoc, blocksOf, List.singleton_append, membersOf_append,
      blocksOf_append members, blocksOf, ih]
    exact fun _ => Line.noConfusion

namespace Content

def lines (c : Content) : List Line :=
  .header :: (c.direction.map fun text => .direction (.other text)).toList ++
    (c.blocks.flatMap Block.lines ++ c.arrows.map Arrow.line)

def ofLines (ls : List Line) : Content where
  direction := ls.findSome? Line.direction?
  blocks := blocksOf ls
  arrows := ls.filterMap Line.arrow?

theorem of_mem_blocks {bs : List Block} {line : Line} (listed : line ∈ bs.flatMap Block.lines) :
    line.direction? = none ∧ line.arrow? = none := by
  obtain ⟨b, _, own⟩ := List.mem_flatMap.mp listed
  simp only [Block.lines, List.mem_append, List.mem_cons, List.mem_map, List.not_mem_nil,
    or_false] at own
  rcases own with (rfl | ⟨m, _, rfl⟩) | rfl <;> exact ⟨rfl, rfl⟩

theorem ofLines_lines (c : Content) : ofLines c.lines = c := by
  have blocks : blocksOf c.lines = c.blocks := by
    rw [lines, blocksOf_append, blocksOf_blocks]
    · simp [Arrow.line]
    · simp
  -- Blocks hold neither edges nor a direction, so each part is found where it was put.
  have none : (c.blocks.flatMap Block.lines).filterMap Line.arrow? = [] :=
    List.filterMap_eq_nil_iff.mpr fun line listed => (of_mem_blocks listed).2
  have arrows : c.lines.filterMap Line.arrow? = c.arrows := by
    have own : (c.arrows.map Arrow.line).filterMap Line.arrow? = c.arrows := by
      rw [List.filterMap_map]
      exact List.filterMap_some
    rw [lines, List.filterMap_append, List.filterMap_append, none, own]
    cases c.direction <;> rfl
  have direction : c.lines.findSome? Line.direction? = c.direction := by
    rw [lines]
    cases c.direction with
    | some text => rfl
    | none =>
      refine List.findSome?_eq_none_iff.mpr fun line listed => ?_
      simp only [Option.map_none, Option.toList_none, List.mem_append, List.mem_singleton,
        List.mem_map] at listed
      rcases listed with rfl | inside | ⟨a, _, rfl⟩
      · rfl
      · exact (of_mem_blocks inside).1
      · rfl
  rw [ofLines, blocks, arrows, direction]

def read? (text : String) : Option Content := (readLines? text).map ofLines

end Content

def blockOf (types : List DeclaredType) (scope : String) : Block :=
  ⟨Label.scope scope, (members types scope).map fun t => (Label.qualified t, t.stereotype)⟩

/-- What the diagram of a solution shows. -/
def content (s : Solution) (direction : Option Direction) : Content where
  direction := direction.map Direction.text
  blocks := (scopes (firsts s.types)).map (blockOf (firsts s.types))
  arrows := (s.projects.flatMap (edges (firsts s.types))).filterMap Line.arrow?

theorem spelled_block (types : List DeclaredType) (scope : String) :
    (block types scope).map Line.spelled = (blockOf types scope).lines := by
  simp [block, blockOf, Block.lines, Line.spelled]

theorem exists_arrow {types : List DeclaredType} {r : Relation} {line : Line}
    (found : edge types r = some line) : ∃ a : Arrow, line = a.line := by
  rw [edge, Option.map_eq_some_iff] at found
  obtain ⟨source, _, rfl⟩ := found
  exact ⟨⟨_, _, _⟩, rfl⟩

theorem spelled_edges {ls : List Line} (all : ∀ line ∈ ls, ∃ a : Arrow, line = a.line) :
    ls.map Line.spelled = (ls.filterMap Line.arrow?).map Arrow.line := by
  induction ls with
  | nil => rfl
  | cons line ls ih =>
    rw [List.forall_mem_cons] at all
    obtain ⟨⟨a, rfl⟩, rest⟩ := all
    rw [List.map_cons, ih rest]
    rfl

theorem spelled_lines (s : Solution) (direction : Option Direction) :
    (lines s direction).map Line.spelled = (content s direction).lines := by
  have edges : ∀ line ∈ s.projects.flatMap (edges (firsts s.types)), ∃ a : Arrow, line = a.line := by
    intro line listed
    obtain ⟨p, _, own⟩ := List.mem_flatMap.mp listed
    obtain ⟨r, _, found⟩ := List.mem_filterMap.mp own
    exact exists_arrow found
  have blocks : ((scopes (firsts s.types)).flatMap (block (firsts s.types))).map Line.spelled =
      (content s direction).blocks.flatMap Block.lines := by
    rw [content, List.map_flatMap, List.flatMap_map]
    simp only [spelled_block]
  rw [lines, List.map_append, List.map_append, List.map_append, blocks, spelled_edges edges,
    List.append_assoc, Content.lines]
  cases direction <;> rfl

end Diagram

/-- No name and no identifier of a solution holds a blank. -/
structure Solution.Unblank (s : Solution) : Prop where
  types : ∀ t ∈ s.types, Text.Unblank t.id ∧ Text.Unblank t.name ∧ Text.Unblank t.scope
  relations : ∀ p ∈ s.projects, ∀ r ∈ p.relations, Text.Unblank r.source ∧ Text.Unblank r.target

theorem Solution.Unblank.of_mem_firsts {s : Solution} (unblank : s.Unblank) {t : DeclaredType}
    (first : t ∈ Diagram.firsts s.types) : Text.Unblank t.name ∧ Text.Unblank t.scope := by
  obtain ⟨earlier, later, split, _⟩ := Diagram.mem_firsts.mp first
  exact (unblank.types t (by simp [split])).2

namespace Diagram

theorem plain_edge {types : List DeclaredType} {r : Relation} {line : Line}
    (names : ∀ t ∈ types, Text.Unblank (Label.qualified t)) (target : Text.Unblank r.target)
    (found : edge types r = some line) : line.Plain := by
  rw [edge, Option.map_eq_some_iff] at found
  obtain ⟨source, known, rfl⟩ := found
  refine ⟨names source (List.mem_of_find?_eq_some known), Label.colon_mem_qualified source, ?_⟩
  split
  next t declared => exact names t (List.mem_of_find?_eq_some declared)
  · exact Label.unblank_external target

theorem plain_block {types : List DeclaredType} {scope : String} {line : Line}
    (names : ∀ t ∈ types, Text.Unblank (Label.qualified t)) (unblank : Text.Unblank scope)
    (listed : line ∈ block types scope) : line.Plain := by
  simp only [block, List.mem_append, List.mem_singleton, List.mem_map] at listed
  rcases listed with (rfl | ⟨t, isMember, rfl⟩) | rfl
  · exact Label.unblank_scope unblank
  · exact ⟨names t ((mem_members types).mp isMember).1, fun m => DeclaredType.unblank_stereotype⟩
  · trivial

theorem plain_lines {s : Solution} (unblank : s.Unblank) {direction : Option Direction}
    (unbroken : ∀ d ∈ direction, '\n' ∉ d.text.toList) :
    ∀ line ∈ lines s direction, line.Plain := by
  have names : ∀ t ∈ firsts s.types, Text.Unblank (Label.qualified t) := fun t first =>
    Label.unblank_qualified (unblank.of_mem_firsts first).2 (unblank.of_mem_firsts first).1
  intro line listed
  simp only [lines, List.mem_append, List.mem_singleton, Option.mem_toList, Option.map_eq_some_iff,
    List.mem_flatMap] at listed
  rcases listed with ((rfl | ⟨d, given, rfl⟩) | ⟨scope, isScope, inBlock⟩) | ⟨p, isProject, isEdge⟩
  · trivial
  · exact unbroken d given
  · obtain ⟨t, first, rfl⟩ := (mem_scopes _).mp isScope
    exact plain_block names (unblank.of_mem_firsts first).2 inBlock
  · obtain ⟨r, isRelation, found⟩ := List.mem_filterMap.mp isEdge
    have own := unblank.relations p isProject r (List.mem_mergeSort.mp isRelation)
    exact plain_edge names own.2 found

theorem read?_text {s : Solution} (unblank : s.Unblank) {direction : Option Direction}
    (unbroken : ∀ d ∈ direction, '\n' ∉ d.text.toList) :
    Content.read? (text s direction) = some (content s direction) := by
  rw [Content.read?, text_eq_join, readLines?_join (plain_lines unblank unbroken),
    Option.map_some, spelled_lines, Content.ofLines_lines]

/-- Diagrams of the same text show the same. -/
theorem content_eq_of_text_eq {s s' : Solution} {direction direction' : Option Direction}
    (unblank : s.Unblank) (unblank' : s'.Unblank)
    (unbroken : ∀ d ∈ direction, '\n' ∉ d.text.toList)
    (unbroken' : ∀ d ∈ direction', '\n' ∉ d.text.toList)
    (same : text s direction = text s' direction') :
    direction.map Direction.text = direction'.map Direction.text ∧
      (content s direction).blocks = (content s' direction').blocks ∧
      (content s direction).arrows = (content s' direction').arrows := by
  have shown : content s direction = content s' direction' := by
    rw [← Option.some_inj, ← read?_text unblank unbroken, ← read?_text unblank' unbroken', same]
  exact ⟨congrArg Content.direction shown, congrArg Content.blocks shown,
    congrArg Content.arrows shown⟩

/-- A namespace with a backtick, and a target with a prefix. -/
def quoted : Solution :=
  ⟨[⟨"P", [⟨"T:A", "A", "N\x60", .classType, .pub, true, false, false⟩],
    [⟨"T:A", "T:X.Y", .realization⟩]⟩]⟩

def unquoted : Solution :=
  ⟨[⟨"Q", [⟨"A", "A", "N", .classType, .intern, true, true, false⟩], []⟩,
    ⟨"R", [], [⟨"A", "X.Y\x60", .realization⟩]⟩]⟩

theorem content_quoted_eq_unquoted :
    quoted.Unblank ∧ unquoted.Unblank ∧
      text quoted (some .leftRight) = text unquoted (some (.other "LR")) ∧
      (content quoted (some .leftRight)).blocks = (content unquoted (some (.other "LR"))).blocks ∧
      (content quoted (some .leftRight)).arrows =
        (content unquoted (some (.other "LR"))).arrows := by
  have unblank : quoted.Unblank := ⟨by decide, by decide⟩
  have unblank' : unquoted.Unblank := ⟨by decide, by decide⟩
  have same : text quoted (some .leftRight) = text unquoted (some (.other "LR")) := by decide +kernel
  have shown := content_eq_of_text_eq unblank unblank' (by decide) (by decide) same
  exact ⟨unblank, unblank', same, shown.2⟩

end Diagram

end ClassDiagram
