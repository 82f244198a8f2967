import ClassDiagram.Proofs.Toml.Upkeep

/-! The tree of a document as it is written: blocks, each of them a header with the pairs below it.
What the tree holds is what its blocks say, tables without entries at the top apart. -/

namespace ClassDiagram.Toml

mutual

def Table.pairs (path : List Key) : Table → List (List Key × Value)
  | .mk _ entries => pairsOf path entries

def pairsOf (path : List Key) : Entries → List (List Key × Value)
  | [] => []
  | (key, item) :: rest => item.pairs (path ++ [key]) ++ pairsOf path rest

def Item.pairs (path : List Key) : Item → List (List Key × Value)
  | .value v => v.leaves path
  | .table t => if t.style.dotted then t.pairs path else []
  | .tables _ => []

end

/-- A table with a header of its own, and its values. -/
structure Block where
  path : List Key
  isArray : Bool
  style : TableStyle
  pairs : List (List Key × Value)

def Block.toSection (b : Block) : Section :=
  ⟨b.path, b.isArray, b.style, b.pairs.map Value.leafText⟩

mutual

def Table.blocks (path : List Key) (isArray : Bool) : Table → List Block
  | .mk style entries =>
    (if style.dotted then [] else [⟨path, isArray, style, pairsOf [] entries⟩]) ++
      blocksOf path entries

def blocksOf (path : List Key) : Entries → List Block
  | [] => []
  | (key, item) :: rest => item.blocks (path ++ [key]) ++ blocksOf path rest

def Item.blocks (path : List Key) : Item → List Block
  | .value _ => []
  | .table t => t.blocks path false
  | .tables ts => blocksOfAll path ts

def blocksOfAll (path : List Key) : List Table → List Block
  | [] => []
  | t :: ts => t.blocks path true ++ blocksOfAll path ts

end

/-! ### Blocks are sections with their values -/

mutual

theorem Table.lines_eq (path : List Key) : (t : Table) →
    t.lines path = (t.pairs path).map Value.leafText
  | .mk _ entries => linesOf_eq path entries

theorem linesOf_eq (path : List Key) : (entries : Entries) →
    linesOf path entries = (pairsOf path entries).map Value.leafText
  | [] => rfl
  | (key, item) :: rest => by
    rw [linesOf, pairsOf, List.map_append, item.lines_eq (path ++ [key]), linesOf_eq path rest]

theorem Item.lines_eq (path : List Key) : (item : Item) →
    item.lines path = (item.pairs path).map Value.leafText
  | .value v => v.texts_eq_leaves path
  | .table t => by
    rw [Item.lines, Item.pairs]
    split
    · exact t.lines_eq path
    · rfl
  | .tables _ => rfl

end

mutual

theorem Table.sections_eq (path : List Key) (isArray : Bool) : (t : Table) →
    t.sections path isArray = (t.blocks path isArray).map Block.toSection
  | .mk style entries => by
    rw [Table.sections, Table.blocks, List.map_append, sectionsOf_eq path entries]
    congr 1
    split
    · rfl
    · rw [Table.lines_eq]
      rfl

theorem sectionsOf_eq (path : List Key) : (entries : Entries) →
    sectionsOf path entries = (blocksOf path entries).map Block.toSection
  | [] => rfl
  | (key, item) :: rest => by
    rw [sectionsOf, blocksOf, List.map_append, item.sections_eq (path ++ [key]),
      sectionsOf_eq path rest]

theorem Item.sections_eq (path : List Key) : (item : Item) →
    item.sections path = (item.blocks path).map Block.toSection
  | .value _ => rfl
  | .table t => t.sections_eq path false
  | .tables ts => sectionsOfAll_eq path ts

theorem sectionsOfAll_eq (path : List Key) : (ts : List Table) →
    sectionsOfAll path ts = (blocksOfAll path ts).map Block.toSection
  | [] => rfl
  | t :: ts => by
    rw [sectionsOfAll, blocksOfAll, List.map_append, t.sections_eq path true,
      sectionsOfAll_eq path ts]

end

/-! ### The tables below a table -/

namespace Item

def inner : Item → List Table
  | value _ => []
  | table t => [t]
  | tables ts => ts

def isArray : Item → Bool
  | tables _ => true
  | _ => false

theorem mem_blocks {item : Item} {path : List Key} {b : Block} :
    b ∈ item.blocks path ↔ ∃ c ∈ item.inner, b ∈ c.blocks path item.isArray := by
  cases item with
  | value v => simp [blocks, inner]
  | table t => simp [blocks, inner, isArray]
  | tables ts =>
    rw [blocks, inner, isArray]
    induction ts with
    | nil => simp [blocksOfAll]
    | cons t ts ih => simp [blocksOfAll, ih]

end Item

namespace Table

/-- What is shown of a table when it is shown of the tables in it. -/
theorem induct {P : Table → Prop}
    (step : ∀ t, (∀ e ∈ t.entries, ∀ c ∈ e.2.inner, P c) → P t) (t : Table) : P t := by
  refine step t fun e mem c below => ?_
  obtain ⟨style, entries⟩ := t
  have smaller : sizeOf c < sizeOf e.2 := by
    cases item : e.2 with
    | value v => simp [item, Item.inner] at below
    | table t =>
      rw [item, Item.inner, List.mem_singleton] at below
      simp [below]
    | tables ts =>
      rw [item, Item.inner] at below
      have := List.sizeOf_lt_of_mem below
      simp only [Item.tables.sizeOf_spec]
      omega
  have := List.sizeOf_lt_of_mem (show e ∈ entries from mem)
  have : sizeOf e = 1 + sizeOf e.1 + sizeOf e.2 := rfl
  exact induct step c
termination_by sizeOf t
decreasing_by
  simp only [Table.mk.sizeOf_spec]
  omega

def own (path : List Key) (isArray : Bool) (t : Table) : Block := ⟨path, isArray, t.style, t.pairs []⟩

theorem mem_pairs {t : Table} {path : List Key} {p : List Key × Value} :
    p ∈ t.pairs path ↔ ∃ e ∈ t.entries, p ∈ e.2.pairs (path ++ [e.1]) := by
  obtain ⟨style, entries⟩ := t
  rw [pairs, Table.entries]
  induction entries with
  | nil => simp [pairsOf]
  | cons e rest ih => simp [pairsOf, ih]

theorem mem_blocksOf {entries : Entries} {path : List Key} {b : Block} :
    b ∈ blocksOf path entries ↔
      ∃ e ∈ entries, ∃ c ∈ e.2.inner, b ∈ c.blocks (path ++ [e.1]) e.2.isArray := by
  induction entries with
  | nil => simp [blocksOf]
  | cons e rest ih => simp [blocksOf, ih, Item.mem_blocks]

theorem mem_blocks {t : Table} {path : List Key} {isArray : Bool} {b : Block} :
    b ∈ t.blocks path isArray ↔ t.style.dotted = false ∧ b = t.own path isArray ∨
      ∃ e ∈ t.entries, ∃ c ∈ e.2.inner, b ∈ c.blocks (path ++ [e.1]) e.2.isArray := by
  obtain ⟨style, entries⟩ := t
  rw [blocks, List.mem_append, mem_blocksOf]
  refine or_congr_left ?_
  cases dotted : style.dotted <;> simp [Table.style, dotted, own, pairs]

theorem path_of_mem_pairs {t : Table} {path : List Key} {p : List Key × Value} (kept : t.Kept)
    (mem : p ∈ t.pairs path) : ∃ key rest, p.1 = path ++ key :: rest := by
  induction t using induct generalizing path with
  | step t ih =>
    obtain ⟨e, entry, mem⟩ := mem_pairs.mp mem
    have own := (kept_iff.mp kept).2.2 e entry
    cases item : e.2 with
    | value v =>
      rw [item] at mem own
      have leaf : v.isDotted = false := own.2.2.rereads.leaf
      rw [Item.pairs, Value.leaves_of_leaf leaf, List.mem_singleton] at mem
      exact ⟨e.1, [], by rw [mem]⟩
    | table c =>
      rw [item] at mem own
      rw [Item.pairs] at mem
      split at mem
      · obtain ⟨key, rest, whole⟩ := ih e entry c (by simp [item, Item.inner]) own.2 mem
        exact ⟨e.1, key :: rest, by simp [whole]⟩
      · cases mem
    | tables ts =>
      rw [item] at mem
      cases mem

theorem path_of_mem_blocks {t : Table} {path : List Key} {isArray : Bool} {b : Block}
    (mem : b ∈ t.blocks path isArray) : ∃ rest, b.path = path ++ rest := by
  induction t using induct generalizing path isArray with
  | step t ih =>
    rcases mem_blocks.mp mem with ⟨_, rfl⟩ | ⟨e, entry, c, below, mem⟩
    · exact ⟨[], (List.append_nil _).symm⟩
    · obtain ⟨rest, whole⟩ := ih e entry c below mem
      exact ⟨e.1 :: rest, by simp [whole]⟩

end Table

/-! ### Blocks that reread -/

structure Block.Kept (b : Block) : Prop where
  path : ∀ k ∈ b.path, k.OfTable
  style : b.style.Kept
  pairs : ∀ p ∈ b.pairs, Value.InTable p

theorem Table.Kept.inner {t c : Table} {e : Key × Item} (kept : t.Kept) (entry : e ∈ t.entries)
    (below : c ∈ e.2.inner) : e.1.OfTable ∧ c.Kept := by
  have own := (Table.kept_iff.mp kept).2.2 e entry
  cases item : e.2 with
  | value v => simp [item, Item.inner] at below
  | table t =>
    rw [item] at own below
    rw [List.mem_singleton.mp below]
    exact own
  | tables ts =>
    rw [item] at own below
    exact ⟨own.1, (keptAll_iff.mp own.2 c below).1⟩

theorem Table.Kept.pairs {t : Table} {path : List Key} {p : List Key × Value} (kept : t.Kept)
    (keys : ∀ k ∈ path, k.Kept) (mem : p ∈ t.pairs path) : Value.InTable p := by
  induction t using Table.induct generalizing path with
  | step t ih =>
    obtain ⟨e, entry, mem⟩ := Table.mem_pairs.mp mem
    have own := (Table.kept_iff.mp kept).2.2 e entry
    cases item : e.2 with
    | value v =>
      rw [item] at mem own
      obtain ⟨key, sides, line⟩ := own
      rw [Item.pairs, Value.leaves_of_leaf line.rereads.leaf, List.mem_singleton] at mem
      subst mem
      exact ⟨path, e.1, rfl, List.forall_mem_append.mpr ⟨keys, by simpa using key⟩, sides, line⟩
    | table c =>
      have below : c ∈ e.2.inner := by simp [item, Item.inner]
      obtain ⟨key, inner⟩ := kept.inner entry below
      rw [item, Item.pairs] at mem
      split at mem
      · exact ih e entry c below inner
          (List.forall_mem_append.mpr ⟨keys, by simpa using key.kept⟩) mem
      · cases mem
    | tables ts =>
      rw [item] at mem
      cases mem

theorem Table.Kept.blocks {t : Table} {path : List Key} {isArray : Bool} {b : Block} (kept : t.Kept)
    (keys : ∀ k ∈ path, k.OfTable) (mem : b ∈ t.blocks path isArray) : b.Kept := by
  induction t using Table.induct generalizing path isArray with
  | step t ih =>
    rcases Table.mem_blocks.mp mem with ⟨_, rfl⟩ | ⟨e, entry, c, below, mem⟩
    · exact ⟨keys, (Table.kept_iff.mp kept).1, fun p mem => kept.pairs (by simp) mem⟩
    · obtain ⟨key, inner⟩ := kept.inner entry below
      exact ih e entry c below inner (List.forall_mem_append.mpr ⟨keys, by simpa using key⟩) mem

/-! ### What blocks say -/

namespace Block

def isVisible (b : Block) : Bool := b.isArray || !(b.style.implicit && b.pairs.isEmpty)

def hasHeader (b : Block) : Bool := !b.path.isEmpty && b.isVisible

def facts (b : Block) : List Fact :=
  (if b.hasHeader then [(names b.path, if b.isArray then Shape.tables else .table)] else []) ++
    b.pairs.map fun p => (names (b.path ++ p.1), Shape.value p.2.data)

theorem mem_facts {b : Block} {f : Fact} :
    f ∈ b.facts ↔ b.hasHeader = true ∧ f = (names b.path, if b.isArray then .tables else .table) ∨
      ∃ p ∈ b.pairs, (names (b.path ++ p.1), Shape.value p.2.data) = f := by
  rw [facts, List.mem_append, List.mem_map]
  refine or_congr_left ?_
  cases b.hasHeader <;> simp

end Block

/-- A tree that stands at a path of another one. -/
def Table.Stands (root : Table) (path : List Key) (t : Table) : Prop :=
  ∀ more, root.shapeAt (names path ++ more) = t.shapeAt more

section

variable {root t c : Table} {path : List Key} {e : Key × Item} {b : Block} {f : Fact}

theorem names_append (first second : List Key) : names (first ++ second) = names first ++ names second :=
  List.map_append

theorem Table.Kept.find? (kept : t.Kept) (entry : e ∈ t.entries) :
    t.find? e.1.name = some e.2 :=
  Entries.find?_of_mem (Table.kept_iff.mp kept).2.1 entry

theorem Table.Stands.child (stands : root.Stands path t) (found : t.find? e.1.name = some (.table c)) :
    root.Stands (path ++ [e.1]) c := by
  intro more
  rw [names_append, List.append_assoc]
  exact (stands _).trans (Table.shapeAt_of_child? (Table.child?_eq_some_iff.mpr found) more)

theorem Table.Stands.pairs {front : List Key} {p : List Key × Value}
    (stands : root.Stands (front ++ path) t) (kept : t.Kept) (mem : p ∈ t.pairs path) :
    root.shapeAt (names (front ++ p.1)) = some (.value p.2.data) := by
  induction t using Table.induct generalizing path with
  | step t ih =>
    obtain ⟨e, entry, mem⟩ := Table.mem_pairs.mp mem
    have found := kept.find? entry
    cases item : e.2 with
    | value v =>
      have own := (Table.kept_iff.mp kept).2.2 e entry
      rw [item] at mem own found
      rw [Item.pairs, Value.leaves_of_leaf own.2.2.rereads.leaf, List.mem_singleton] at mem
      subst mem
      rw [← List.append_assoc, names_append]
      refine (stands _).trans ?_
      simp [names, Table.shapeAt_cons, found, Item.shapeAt]
    | table c =>
      have below : c ∈ e.2.inner := by simp [item, Item.inner]
      rw [item] at found
      rw [item, Item.pairs] at mem
      split at mem
      · refine ih e entry c below ?_ (kept.inner entry below).2 mem
        rw [← List.append_assoc]
        exact stands.child found
      · cases mem
    | tables ts =>
      rw [item] at mem
      cases mem

theorem above_append {rest : List Key} (key : Key) :
    Above (names path) (names (path ++ key :: rest)) :=
  ⟨key.name, names rest, by simp [names]⟩

theorem facts_in_array (kept : c.Kept) (mem : b ∈ c.blocks path true) (fact : f ∈ b.facts) :
    f = (names path, .tables) ∨ Above (names path) f.1 := by
  rcases Table.mem_blocks.mp mem with ⟨_, rfl⟩ | ⟨e, entry, c', below, mem⟩
  · rcases Block.mem_facts.mp fact with ⟨_, rfl⟩ | ⟨p, pair, rfl⟩
    · exact .inl rfl
    · obtain ⟨key, rest, whole⟩ := Table.path_of_mem_pairs kept pair
      rw [List.nil_append] at whole
      exact .inr (whole ▸ above_append key)
  · obtain ⟨rest, whole⟩ := Table.path_of_mem_blocks mem
    rcases Block.mem_facts.mp fact with ⟨_, rfl⟩ | ⟨p, _, rfl⟩
    · rw [whole, List.append_assoc]
      exact .inr (above_append e.1)
    · rw [whole, List.append_assoc, List.append_assoc]
      exact .inr (above_append e.1)

theorem Table.Stands.blocks (stands : root.Stands path t) (kept : t.Kept)
    (mem : b ∈ t.blocks path false) (fact : f ∈ b.facts) : Met root f := by
  induction t using Table.induct generalizing path with
  | step t ih =>
    rcases Table.mem_blocks.mp mem with ⟨_, rfl⟩ | ⟨e, entry, c, below, mem⟩
    · rcases Block.mem_facts.mp fact with ⟨_, rfl⟩ | ⟨p, pair, rfl⟩
      · exact .inl (by simpa [Table.own] using stands [])
      · have whole : root.Stands (path ++ []) t := by simpa using stands
        exact .inl (whole.pairs kept pair)
    · have found := kept.find? entry
      have inner := (kept.inner entry below).2
      cases item : e.2 with
      | value v => simp [item, Item.inner] at below
      | table t =>
        rw [item] at found
        rw [item] at mem
        have same : c = t := by simpa [item, Item.inner] using below
        subst same
        exact ih e entry c below (stands.child found) inner mem
      | tables ts =>
        rw [item] at found mem
        have array : root.shapeAt (names (path ++ [e.1])) = some .tables := by
          rw [names_append]
          refine (stands _).trans ?_
          simp [names, Table.shapeAt_cons, found, Item.shapeAt]
        rcases facts_in_array inner mem fact with rfl | above
        · exact .inl array
        · exact .inr ⟨_, above, array⟩

end

/-! ### What trees hold is told by their blocks -/

/-- Facts that tell of the values of a table, whose block is at `front`, and of the blocks in it. -/
structure Covers (facts : List Fact) (front path : List Key) (t : Table) : Prop where
  pairs : ∀ p ∈ t.pairs path, (names (front ++ p.1), Shape.value p.2.data) ∈ facts
  blocks : ∀ e ∈ t.entries, ∀ c ∈ e.2.inner, ∀ b ∈ c.blocks (front ++ path ++ [e.1]) e.2.isArray,
    ∀ f ∈ b.facts, f ∈ facts

namespace Covers

variable {facts : List Fact} {front path : List Key} {t c : Table} {e : Key × Item}

theorem child (covers : Covers facts front path t) (entry : e ∈ t.entries) (item : e.2 = .table c) :
    ∃ front' path', front' ++ path' = front ++ path ++ [e.1] ∧ Covers facts front' path' c := by
  have below : c ∈ e.2.inner := by simp [item, Item.inner]
  have blocks := covers.blocks e entry c below
  have inner : ∀ e' ∈ c.entries, ∀ c' ∈ e'.2.inner,
      ∀ b ∈ c'.blocks (front ++ path ++ [e.1] ++ [e'.1]) e'.2.isArray, ∀ f ∈ b.facts, f ∈ facts :=
    fun e' entry' c' below' b mem => blocks b (Table.mem_blocks.mpr (.inr ⟨e', entry', c', below', mem⟩))
  cases dotted : c.style.dotted with
  | true =>
    refine ⟨front, path ++ [e.1], (List.append_assoc ..).symm, ⟨fun p mem => ?_, ?_⟩⟩
    · refine covers.pairs p (Table.mem_pairs.mpr ⟨e, entry, ?_⟩)
      rwa [item, Item.pairs, if_pos dotted]
    · simpa using inner
  | false =>
    refine ⟨front ++ path ++ [e.1], [], List.append_nil _, ⟨fun p mem => ?_, ?_⟩⟩
    · have own := blocks _ (Table.mem_blocks.mpr (.inl ⟨dotted, rfl⟩))
      exact own _ (Block.mem_facts.mpr (.inr ⟨p, mem, rfl⟩))
    · simpa using inner

theorem header (covers : Covers facts front path t) (entry : e ∈ t.entries) (below : c ∈ e.2.inner)
    (plain : c.style.dotted = false) (visible : e.2.isArray = true ∨ c.style.implicit = false) :
    (names (front ++ path ++ [e.1]), if e.2.isArray then Shape.tables else .table) ∈ facts := by
  refine covers.blocks e entry c below _ (Table.mem_blocks.mpr (.inl ⟨plain, rfl⟩)) _
    (Block.mem_facts.mpr (.inl ⟨?_, rfl⟩))
  rcases visible with array | explicit
  · simp [Block.hasHeader, Block.isVisible, Table.own, array]
  · simp [Block.hasHeader, Block.isVisible, Table.own, explicit]

theorem value {v : Value} (covers : Covers facts front path t) (kept : t.Kept) (entry : e ∈ t.entries)
    (item : e.2 = .value v) : (names (front ++ path ++ [e.1]), Shape.value v.data) ∈ facts := by
  have own := (Table.kept_iff.mp kept).2.2 e entry
  rw [item] at own
  have pair := covers.pairs (path ++ [e.1], v) (Table.mem_pairs.mpr ⟨e, entry, by
    rw [item, Item.pairs, Value.leaves_of_leaf own.2.2.rereads.leaf]
    exact List.mem_singleton_self _⟩)
  rwa [← List.append_assoc] at pair

theorem tables {ts : List Table} (covers : Covers facts front path t) (entry : e ∈ t.entries)
    (item : e.2 = .tables ts) (full : e.2.Full) :
    (names (front ++ path ++ [e.1]), Shape.tables) ∈ facts := by
  rw [item] at full
  obtain ⟨some, plain⟩ := full
  obtain ⟨c, below⟩ := List.exists_mem_of_ne_nil _ some
  have told := covers.header entry (by rwa [item]) (plain c below) (.inl (by rw [item]; rfl))
  rwa [item] at told

theorem bare (covers : Covers facts front path t) (entry : e ∈ t.entries) (item : e.2 = .table c)
    (full : e.2.Full) (empty : c.entries = []) :
    (names (front ++ path ++ [e.1]), Shape.table) ∈ facts := by
  rw [item] at full
  have explicit : c.style.implicit = false ∧ c.style.dotted = false := by
    simpa [not_or] using mt full.1 (not_not_intro empty)
  have told := covers.header entry (by simp [item, Item.inner]) explicit.2 (.inr explicit.1)
  rwa [item] at told

theorem above_snoc {key : Key} {below : List String} (above : Above (names (path ++ [key])) below) :
    Above (names path) below := by
  obtain ⟨name, rest, rfl⟩ := above
  exact ⟨key.name, name :: rest, by simp [names]⟩

theorem inside (covers : Covers facts front path t) (kept : t.Kept) (sound : t.Sound)
    (some : t.entries ≠ []) : ∃ f ∈ facts, Above (names (front ++ path)) f.1 := by
  induction t using Table.induct generalizing front path with
  | step t ih =>
    obtain ⟨e, entry⟩ := List.exists_mem_of_ne_nil _ some
    have full := Table.sound_iff.mp sound e entry
    cases item : e.2 with
    | value v => exact ⟨_, covers.value kept entry item, above_append e.1⟩
    | tables ts => exact ⟨_, covers.tables entry item full, above_append e.1⟩
    | table c =>
      by_cases empty : c.entries = []
      · exact ⟨_, covers.bare entry item full empty, above_append e.1⟩
      · have below : c ∈ e.2.inner := by simp [item, Item.inner]
        obtain ⟨front', path', whole, more⟩ := covers.child entry item
        rw [item] at full
        obtain ⟨f, fact, above⟩ := ih e entry c below more (kept.inner entry below).2 full.2 empty
        exact ⟨f, fact, above_snoc (whole ▸ above)⟩

theorem entry (covers : Covers facts front path t) (kept : t.Kept) (entry : e ∈ t.entries)
    (full : e.2.Full) {more : List String} {shape : Shape} (is : e.2.shapeAt more = some shape) :
    Explains facts (names (front ++ path ++ [e.1]) ++ more) shape := by
  induction t using Table.induct generalizing front path e more with
  | step t ih =>
    cases item : e.2 with
    | value v =>
      rw [item] at is
      cases more with
      | nil =>
        cases is
        exact .inl (by simpa using covers.value kept entry item)
      | cons name more => cases is
    | tables ts =>
      rw [item] at is
      cases more with
      | nil =>
        cases is
        exact .inl (by simpa using covers.tables entry item full)
      | cons name more => cases is
    | table c =>
      have below : c ∈ e.2.inner := by simp [item, Item.inner]
      have inner := (kept.inner entry below).2
      obtain ⟨front', path', whole, inside⟩ := covers.child entry item
      have sound : c.Sound := by
        rw [item] at full
        exact full.2
      rw [item] at is
      cases more with
      | nil =>
        cases is
        rw [List.append_nil]
        by_cases empty : c.entries = []
        · exact .inl (covers.bare entry item full empty)
        · exact .inr ⟨rfl, whole ▸ inside.inside inner sound empty⟩
      | cons name more =>
        change c.shapeAt (name :: more) = _ at is
        rw [Table.shapeAt_cons, Option.bind_eq_some_iff] at is
        obtain ⟨item', found, is⟩ := is
        obtain ⟨e', entry', rfl, rfl⟩ := Entries.mem_of_find? found
        have told := ih e entry c below inside inner entry' (Table.sound_iff.mp sound e' entry') is
        rw [whole] at told
        simpa [names] using told

end Covers

end ClassDiagram.Toml
