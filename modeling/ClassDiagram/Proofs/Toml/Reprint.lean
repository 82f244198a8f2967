import ClassDiagram.Proofs.Toml.Blocks
import Mathlib.Data.List.Perm.Basic

/-! A document, read again from the text that it is written as, says what it said. Its blocks are
written one after the other, each as statements that reread, and what statements say makes up the
tree. -/

namespace ClassDiagram.Toml

/-! ### The order of blocks -/

theorem map_numbered (last : Nat) (sections : List Section) :
    (numbered last sections).map Prod.snd = sections := by
  induction sections generalizing last with
  | nil => rfl
  | cons s rest ih => simp [numbered, ih]

def numberedBlocks (last : Nat) : List Block → List (Nat × Block)
  | [] => []
  | b :: rest =>
    let place := b.style.position.getD last
    (place, b) :: numberedBlocks place rest

def orderedBlocks (bs : List Block) : List Block :=
  ((numberedBlocks 0 bs).mergeSort fun a b => a.1 ≤ b.1).map Prod.snd

theorem numbered_toSection (last : Nat) (bs : List Block) :
    numbered last (bs.map Block.toSection) =
      (numberedBlocks last bs).map fun e => (e.1, e.2.toSection) := by
  induction bs generalizing last with
  | nil => rfl
  | cons b rest ih => simp [numbered, numberedBlocks, ih, Block.toSection]

theorem ordered_toSection (bs : List Block) :
    ordered (bs.map Block.toSection) = (orderedBlocks bs).map Block.toSection := by
  have sorted := List.map_mergeSort (r := fun a b : Nat × Block => decide (a.1 ≤ b.1))
    (s := fun a b : Nat × Section => decide (a.1 ≤ b.1))
    (f := fun e : Nat × Block => (e.1, e.2.toSection)) (l := numberedBlocks 0 bs)
    fun _ _ _ _ => rfl
  rw [ordered, numbered_toSection, ← sorted, orderedBlocks, List.map_map, List.map_map]
  rfl

theorem map_numberedBlocks (last : Nat) (bs : List Block) :
    (numberedBlocks last bs).map Prod.snd = bs := by
  induction bs generalizing last with
  | nil => rfl
  | cons b rest ih => simp [numberedBlocks, ih]

theorem perm_orderedBlocks (bs : List Block) : (orderedBlocks bs).Perm bs := by
  have same := (List.mergeSort_perm (numberedBlocks 0 bs) (fun a b => decide (a.1 ≤ b.1))).map Prod.snd
  rwa [map_numberedBlocks] at same

/-- The block of the whole document comes first, the others in some order. -/
theorem orderedBlocks_cons {b : Block} (first : b.style.position = some 0) (bs : List Block) :
    ∃ others, orderedBlocks (b :: bs) = b :: others ∧ others.Perm bs := by
  have numbers : numberedBlocks 0 (b :: bs) = (0, b) :: numberedBlocks 0 bs := by
    simp [numberedBlocks, first]
  obtain ⟨before, after, sorted, rest, greater⟩ :=
    @List.mergeSort_cons _ (fun a b : Nat × Block => decide (a.1 ≤ b.1)) (by grind) (by grind)
      (0, b) (numberedBlocks 0 bs)
  obtain rfl : before = [] :=
    List.eq_nil_iff_forall_not_mem.mpr fun e mem => by simpa using greater e mem
  have order : orderedBlocks (b :: bs) = b :: after.map Prod.snd := by
    rw [orderedBlocks, numbers, sorted]
    rfl
  exact ⟨after.map Prod.snd, order, (order ▸ perm_orderedBlocks (b :: bs)).cons_inv⟩

theorem ordered_of_sorted {sections : List Section}
    (sorted : (numbered 0 sections).Pairwise fun a b => a.1 ≤ b.1) : ordered sections = sections := by
  have same : (numbered 0 sections).mergeSort (fun a b => decide (a.1 ≤ b.1)) = numbered 0 sections :=
    List.mergeSort_of_pairwise (by simpa using sorted)
  rw [ordered, same, map_numbered]

theorem Document.text_of_sorted {d : Document}
    (sorted : (numbered 0 (d.root.sections [] false)).Pairwise fun a b => a.1 ≤ b.1) :
    d.text = Section.write true (d.root.sections [] false) ++ withoutReturns d.trailing := by
  rw [text, ordered_of_sorted sorted]

/-! ### Blocks as statements -/

namespace Block

variable {b : Block}

def saids (b : Block) : List Said :=
  (if b.hasHeader then [Said.header b.isArray (names b.path)] else []) ++
    b.pairs.map fun p => Said.pair (names p.1) p.2.data

theorem pairs_of_hidden (hidden : b.isVisible = false) : b.pairs = [] := by
  obtain ⟨_, _, none⟩ : b.isArray = false ∧ b.style.implicit = true ∧ b.pairs = [] := by
    simpa [isVisible] using hidden
  exact none

theorem factsOf_pairs (here : List String) (pairs : List (List Key × Value)) (rest : List Said) :
    factsOf here (pairs.map (fun p => Said.pair (names p.1) p.2.data) ++ rest) =
      pairs.map (fun p => (here ++ names p.1, Shape.value p.2.data)) ++ factsOf here rest := by
  induction pairs with
  | nil => rfl
  | cons p pairs ih => simp [factsOf, ih]

theorem factsOf_saids (here : List String) (top : b.path = [] → here = []) (rest : List Said) :
    ∃ next, factsOf here (b.saids ++ rest) = b.facts ++ factsOf next rest ∧
      (b.path = [] → next = []) := by
  cases header : b.hasHeader with
  | true =>
    refine ⟨names b.path, ?_, fun none => by simp [none, names]⟩
    simp [saids, facts, header, factsOf, factsOf_pairs, names_append]
  | false =>
    refine ⟨here, ?_, top⟩
    rw [saids, facts, header]
    simp only [Bool.false_eq_true, if_false, List.nil_append, factsOf_pairs]
    by_cases none : b.path = []
    · simp [none, top none]
    · have hidden : b.isVisible = false := by simpa [hasHeader, none] using header
      simp [pairs_of_hidden hidden]

end Block

theorem factsOf_blocks {blocks : List Block} (below : ∀ b ∈ blocks, b.path ≠ [])
    (here : List String) : factsOf here (blocks.flatMap Block.saids) = blocks.flatMap Block.facts := by
  induction blocks generalizing here with
  | nil => rfl
  | cons b blocks ih =>
    obtain ⟨own, below⟩ := List.forall_mem_cons.mp below
    obtain ⟨next, same, _⟩ := b.factsOf_saids here (absurd · own) (blocks.flatMap Block.saids)
    rw [List.flatMap_cons, List.flatMap_cons, same, ih below]

/-! ### Blocks that are written -/

def Reread (parts : List Part) (text : List Char) : Prop :=
  ∃ ws : List Written, (∀ w ∈ ws, w.Again) ∧ ws.map Written.part = parts ∧
    ws.flatMap Written.line = text

namespace Reread

variable {parts more : List Part} {text text' : List Char}

theorem nil : Reread [] [] := ⟨[], by simp, rfl, rfl⟩

theorem append (first : Reread parts text) (second : Reread more text') :
    Reread (parts ++ more) (text ++ text') := by
  obtain ⟨ws, again, rfl, rfl⟩ := first
  obtain ⟨ws', again', rfl, rfl⟩ := second
  exact ⟨ws ++ ws', List.forall_mem_append.mpr ⟨again, again'⟩, by simp, by simp⟩

theorem single {part : Part} {text : String}
    (again : ∃ w : Written, w.Again ∧ w.part = part ∧ w.line = text.toList) :
    Reread [part] text.toList := by
  obtain ⟨w, again, rfl, line⟩ := again
  exact ⟨[w], by simpa using again, rfl, by simpa using line⟩

end Reread

namespace Block

/-- The parts that a block is written as; `first` tells that nothing has been written yet. -/
def parts (first : Bool) (b : Block) : List Part :=
  (if b.hasHeader then [b.toSection.headerPart first] else []) ++
    b.pairs.map fun p => .pair p.1 p.2

theorem said_parts (first : Bool) (b : Block) : (b.parts first).map Part.said = b.saids := by
  rw [parts, saids, List.map_append, List.map_map]
  cases b.hasHeader <;> rfl

def still (first : Bool) (b : Block) : Bool :=
  first && if b.path.isEmpty then b.pairs.isEmpty else !b.isVisible

def partsOf (first : Bool) : List Block → List Part
  | [] => []
  | b :: rest => b.parts first ++ partsOf (b.still first) rest

theorem said_partsOf (first : Bool) (blocks : List Block) :
    (partsOf first blocks).map Part.said = blocks.flatMap saids := by
  induction blocks generalizing first with
  | nil => rfl
  | cons b rest ih => rw [partsOf, List.map_append, said_parts, ih, List.flatMap_cons]

end Block

theorem Block.Kept.pairs_again {b : Block} (kept : b.Kept) :
    Reread (b.pairs.map fun p => .pair p.1 p.2) b.toSection.body.toList := by
  rw [Section.body, toSection]
  have pairs := kept.pairs
  generalize b.pairs = all at pairs ⊢
  induction all with
  | nil => exact .nil
  | cons p all ih =>
    obtain ⟨own, pairs⟩ := List.forall_mem_cons.mp pairs
    simpa [Value.leafText] using (Reread.single (pair_again own)).append (ih pairs)

theorem Block.Kept.again {b : Block} (first : Bool) (kept : b.Kept) :
    Reread (b.parts first)
      ((if b.hasHeader then b.toSection.header first else "") ++ b.toSection.body).toList := by
  rw [parts, String.toList_append]
  refine Reread.append ?_ kept.pairs_again
  cases header : b.hasHeader with
  | true =>
    have some : b.path ≠ [] := by
      have := (Bool.and_eq_true_iff.mp header).1
      simpa using this
    exact .single (header_again (s := b.toSection) first some kept.path kept.style.sides)
  | false => exact .nil

theorem write_cons (first : Bool) (b : Block) (rest : List Section) :
    Section.write first (b.toSection :: rest) =
      (if b.hasHeader then b.toSection.header first else "") ++ b.toSection.body ++
        Section.write (b.still first) rest := by
  have visible : b.toSection.isVisible = b.isVisible := by
    simp [Section.isVisible, Block.isVisible, Block.toSection]
  have path : b.toSection.path = b.path := rfl
  rw [Section.write, visible, path, Block.hasHeader, Block.still]
  cases b.path.isEmpty with
  | true => simp [Block.toSection]
  | false => cases b.isVisible <;> simp

theorem write_again (first : Bool) {blocks : List Block} (kept : ∀ b ∈ blocks, b.Kept) :
    Reread (Block.partsOf first blocks)
      (Section.write first (blocks.map Block.toSection)).toList := by
  induction blocks generalizing first with
  | nil => exact .nil
  | cons b blocks ih =>
    obtain ⟨own, kept⟩ := List.forall_mem_cons.mp kept
    rw [List.map_cons, write_cons, Block.partsOf, String.toList_append]
    exact (own.again first).append (ih _ kept)

/-! ### Texts that are read again -/

theorem unmarked_of_skip? {cs : List Char} {b : Bool} (skips : skip? false cs = some b) :
    ∀ c ∈ cs.head?, c ≠ '\uFEFF' := by
  cases cs with
  | nil => simp
  | cons c cs =>
    rintro _ ⟨⟩ rfl
    rw [skip?_cons (by decide) (by decide)] at skips
    simp [isBlank] at skips

theorem dropByteOrderMark_unmarked {cs : List Char} (unmarked : ∀ c ∈ cs.head?, c ≠ '\uFEFF') :
    dropByteOrderMark cs = cs := by
  unfold dropByteOrderMark
  split
  · exact absurd rfl (unmarked _ rfl)
  · rfl

theorem Reread.statements? {parts : List Part} {text : String} {written trailing : List Char}
    {b : Bool} (reread : Reread parts written) (skips : skip? false trailing = some b)
    (whole : text.toList = written ++ trailing) {statements : List (String × Statement)}
    {left : String} (read : statements? text = some (statements, left)) :
    left = String.ofList trailing ∧ List.Forall₂ Part.ReadAs parts statements := by
  obtain ⟨ws, again, rfl, rfl⟩ := reread
  have unmarked : ∀ c ∈ text.toList.head?, c ≠ '\uFEFF' := by
    rw [whole]
    cases ws with
    | nil => exact unmarked_of_skip? skips
    | cons w ws =>
      have own := again w List.mem_cons_self
      obtain ⟨c, more, text, _⟩ := own.opens
      have first := own.unmarked
      have before := unmarked_of_skip? own.before
      rw [List.flatMap_cons, Written.line]
      cases start : w.before with
      | nil => simpa [text] using first
      | cons d ds => simpa [start] using before
  rw [Toml.statements?, dropByteOrderMark_unmarked unmarked, whole] at read
  obtain ⟨ends, _, rfl, all⟩ := readStatements_again again skips (reads_of_readStatements read)
  exact ⟨ends, all⟩

theorem map_said_of_readAs {parts : List Part} {statements : List (String × Statement)}
    (read : List.Forall₂ Part.ReadAs parts statements) :
    statements.map (fun s => s.2.said) = parts.map Part.said := by
  induction read with
  | nil => rfl
  | cons own _ ih => rw [List.map_cons, List.map_cons, own.said, ih]

/-! ### Two trees of which the same is told -/

section

variable {path below other : List String} {t t' : Table} {shape : Shape} {facts : List Fact}

theorem Above.trans (first : Above path below) (second : Above below other) : Above path other := by
  obtain ⟨name, rest, rfl⟩ := first
  obtain ⟨name', rest', rfl⟩ := second
  exact ⟨name, rest ++ name' :: rest', by simp⟩

theorem Above.compare (first : Above path other) (second : Above below other) :
    path = below ∨ Above path below ∨ Above below path := by
  have above : ∀ {p q : List String}, p <+: q → p = q ∨ Above p q := by
    rintro p _ ⟨rest, rfl⟩
    cases rest with
    | nil => exact .inl (List.append_nil p).symm
    | cons name rest => exact .inr ⟨name, rest, rfl⟩
  obtain ⟨name, rest, rfl⟩ := first
  obtain ⟨name', rest', same⟩ := second
  rcases List.prefix_or_prefix_of_prefix (List.prefix_append path (name :: rest))
    (same ▸ List.prefix_append below (name' :: rest')) with prefixes | prefixes
  · exact (above prefixes).imp_right .inl
  · exact (above prefixes).imp Eq.symm .inr

theorem Table.shapeAt_above (is : t.shapeAt below = some shape) (above : Above path below) :
    t.shapeAt path = some .table := by
  obtain ⟨name, rest, rfl⟩ := above
  induction path generalizing t with
  | nil => rfl
  | cons first path ih =>
    rw [List.cons_append, Table.shapeAt_cons, Option.bind_eq_some_iff] at is
    obtain ⟨item, found, is⟩ := is
    rw [Table.shapeAt_cons, found]
    cases item with
    | table child => exact ih is
    | value v => simp [Item.shapeAt] at is
    | tables ts => simp [Item.shapeAt] at is

/-- What a tree holds and facts tell is in every tree with these facts, where all arrays are told. -/
theorem shapeAt_of_met (met : ∀ f ∈ facts, Met t f) (met' : ∀ f ∈ facts, Met t' f)
    (arrays : ∀ path, t.shapeAt path = some .tables → (path, Shape.tables) ∈ facts)
    (is : t'.shapeAt path = some shape) (explains : Explains facts path shape) :
    t.shapeAt path = some shape := by
  -- An array in the one tree is one in the other, or inside one.
  have array : ∀ q, t.shapeAt q = some .tables →
      ∃ p, (p = q ∨ Above p q) ∧ t'.shapeAt p = some .tables := by
    intro q tables
    rcases met' _ (arrays q tables) with same | ⟨p, above, same⟩
    · exact ⟨q, .inl rfl, same⟩
    · exact ⟨p, .inr above, same⟩
  have outside : ∀ q, Above q path → t.shapeAt q ≠ some .tables := by
    intro q above tables
    obtain ⟨p, further, same⟩ := array q tables
    have up : Above p path := further.elim (fun same => same ▸ above) fun up => up.trans above
    exact nomatch (Table.shapeAt_above is up).symm.trans same
  rcases explains with fact | ⟨rfl, f, fact, above⟩
  · rcases met _ fact with same | ⟨q, up, tables⟩
    · exact same
    · exact absurd tables (outside q up)
  · rcases met _ fact with same | ⟨q, up, tables⟩
    · exact Table.shapeAt_above same above
    · rcases above.compare up with rfl | between | up
      · obtain ⟨p, rfl | up, same⟩ := array path tables
        · exact nomatch is.symm.trans same
        · exact nomatch (Table.shapeAt_above is up).symm.trans same
      · exact Table.shapeAt_above tables between
      · exact absurd tables (outside q up)

end

/-! ### Documents that are read again -/

/-- What a document keeps from when it is read on. -/
structure Document.Kept (d : Document) : Prop where
  root : d.root.Kept
  full : ∀ e ∈ d.root.entries, e.2.Full ∨ ∃ bare, e.2 = .table bare ∧ bare.entries = []
  style : d.root.style = ⟨false, false, .none, some 0⟩
  trailing : ∃ b, skip? false d.trailing.toList = some b

theorem Document.kept_of_parse {text : String} {d : Document} (parsed : parse text = some d) :
    d.Kept := by
  obtain ⟨_, _, _, sound, style⟩ := told_of_parse parsed
  obtain ⟨root, trailing⟩ := Toml.kept_of_parse parsed
  exact ⟨root, fun e mem => .inl (Table.sound_iff.mp sound e mem), style, trailing⟩

theorem Table.blocks_root {t : Table} (style : t.style = ⟨false, false, .none, some 0⟩) :
    ∃ others, orderedBlocks (t.blocks [] false) = t.own [] false :: others ∧
      (t.own [] false :: others).Perm (t.blocks [] false) ∧ ∀ b ∈ others, b.path ≠ [] := by
  have blocks : t.blocks [] false = t.own [] false :: blocksOf [] t.entries := by
    obtain ⟨_, entries⟩ := t
    obtain rfl : _ = _ := style
    rfl
  obtain ⟨others, order, perm⟩ := orderedBlocks_cons (b := t.own [] false)
    (congrArg TableStyle.position style) (blocksOf [] t.entries)
  refine ⟨others, by rw [blocks, order], ?_, fun b listed => ?_⟩
  · rw [blocks]
    exact perm.cons _
  · obtain ⟨e, _, c, _, mem⟩ := Table.mem_blocksOf.mp (perm.mem_iff.mp listed)
    obtain ⟨rest, whole⟩ := Table.path_of_mem_blocks mem
    simp [whole]

theorem Table.ordered_sections (t : Table) : ordered (t.sections [] false) =
    (orderedBlocks (t.blocks [] false)).map Block.toSection := by
  rw [t.sections_eq, ordered_toSection]

namespace Document.Kept

variable {d d' : Document}

theorem readAs_text (kept : d.Kept) {statements : List (String × Statement)} {left : String}
    (read : statements? d.text = some (statements, left)) :
    left = withoutReturns d.trailing ∧ List.Forall₂ Part.ReadAs
      (Block.partsOf true (orderedBlocks (d.root.blocks [] false))) statements := by
  obtain ⟨others, order, perm, _⟩ := Table.blocks_root kept.style
  obtain ⟨b, skips⟩ := kept.trailing
  have blocks : ∀ b ∈ d.root.own [] false :: others, b.Kept :=
    fun b listed => kept.root.blocks (by simp) (perm.mem_iff.mp listed)
  have whole : d.text.toList = (Section.write true (ordered (d.root.sections [] false))).toList ++
      d.trailing.toList.filter (· ≠ '\r') := by
    rw [text, String.toList_append, toList_withoutReturns]
  rw [d.root.ordered_sections, order] at whole
  rw [order]
  exact (write_again true blocks).statements? (skip?_withoutReturns skips) whole read

/-- The text of a document, where it is one, reads as statements that say what its blocks do. -/
theorem facts_text (kept : d.Kept) {statements : List (String × Statement)} {left : String}
    (read : statements? d.text = some (statements, left)) :
    factsOf [] (statements.map fun s => s.2.said) =
      (orderedBlocks (d.root.blocks [] false)).flatMap Block.facts := by
  obtain ⟨others, order, _, below⟩ := Table.blocks_root kept.style
  rw [map_said_of_readAs (kept.readAs_text read).2, Block.said_partsOf, order]
  obtain ⟨next, told, _⟩ := (d.root.own [] false).factsOf_saids [] (fun _ => rfl)
    (others.flatMap Block.saids)
  rw [List.flatMap_cons, told, factsOf_blocks below, ← List.flatMap_cons]

theorem told (kept : d.Kept) {statements : List (String × Statement)} {left : String}
    (read : statements? d.text = some (statements, left)) (f : Fact) :
    f ∈ factsOf [] (statements.map fun s => s.2.said) ↔ ∃ b ∈ d.root.blocks [] false, f ∈ b.facts := by
  obtain ⟨others, order, perm, _⟩ := Table.blocks_root kept.style
  rw [kept.facts_text read, order, List.mem_flatMap]
  exact exists_congr fun b => and_congr_left fun _ => perm.mem_iff

/-- What a document holds is told by its blocks, tables without entries at the top apart. -/
theorem explained (kept : d.Kept) {facts : List Fact}
    (told : ∀ f, f ∈ facts ↔ ∃ b ∈ d.root.blocks [] false, f ∈ b.facts) {path : List String}
    {shape : Shape} (is : d.root.shapeAt path = some shape) :
    path = [] ∨ Explains facts path shape ∨ shape = .table ∧
      ∃ name bare, path = [name] ∧ d.root.child? name = some bare ∧ bare.entries = [] := by
  have covers : Covers facts [] [] d.root := by
    refine ⟨fun p pair => (told _).mpr ⟨d.root.own [] false, ?_, ?_⟩,
      fun e entry c below b mem f fact => ?_⟩
    · exact Table.mem_blocks.mpr (.inl ⟨congrArg TableStyle.dotted kept.style, rfl⟩)
    · exact Block.mem_facts.mpr (.inr ⟨p, pair, rfl⟩)
    · exact (told f).mpr ⟨b, Table.mem_blocks.mpr (.inr ⟨e, entry, c, below, mem⟩), fact⟩
  cases path with
  | nil => exact .inl rfl
  | cons name more =>
    rw [Table.shapeAt_cons, Option.bind_eq_some_iff] at is
    obtain ⟨item, found, is⟩ := is
    obtain ⟨e, entry, rfl, rfl⟩ := Entries.mem_of_find? found
    rcases kept.full e entry with full | ⟨bare, item, empty⟩
    · exact .inr (.inl (covers.entry kept.root entry full is))
    · rw [item] at is found
      cases more with
      | nil =>
        cases is
        exact .inr (.inr ⟨rfl, _, bare, rfl, Table.child?_eq_some_iff.mpr found, empty⟩)
      | cons next more =>
        change bare.shapeAt (next :: more) = _ at is
        rw [Table.shapeAt_cons, Table.find?, empty] at is
        cases is

theorem echoes (kept : d.Kept) (parsed : parse d.text = some d') : d.root.Echoes d'.root := by
  obtain ⟨statements, read, ⟨met', explained'⟩, _, _⟩ := told_of_parse parsed
  have told := kept.told read
  generalize factsOf [] (statements.map fun s => s.2.said) = facts at met' explained' told
  have met : ∀ f ∈ facts, Met d.root f := by
    intro f fact
    obtain ⟨b, mem, fact⟩ := (told f).mp fact
    exact Table.Stands.blocks (fun _ => rfl) kept.root mem fact
  have arrays : ∀ path, d.root.shapeAt path = some .tables → (path, Shape.tables) ∈ facts := by
    intro path is
    rcases kept.explained told is with rfl | (fact | ⟨table, _⟩) | ⟨table, _⟩
    · cases is
    · exact fact
    · cases table
    · cases table
  have arrays' : ∀ path, d'.root.shapeAt path = some .tables → (path, Shape.tables) ∈ facts := by
    intro path is
    rcases explained' path _ is with rfl | fact | ⟨table, _⟩
    · cases is
    · exact fact
    · cases table
  constructor
  · intro path shape is
    rcases explained' path shape is with rfl | explains
    · exact is
    · exact shapeAt_of_met met met' arrays is explains
  · intro path shape is
    rcases kept.explained told is with rfl | explains | ⟨_, bare⟩
    · exact .inl is
    · exact .inl (shapeAt_of_met met' met arrays' is explains)
    · exact .inr bare

end Document.Kept

end ClassDiagram.Toml
