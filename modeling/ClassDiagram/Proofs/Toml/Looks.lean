import ClassDiagram.Proofs.BuildDocument.Rereading

/-! How a document looks. Its text is that of its parts, one after the other, and an entry may be
exchanged for one that is written alike. -/

namespace ClassDiagram.Toml

/-! ### The text of parts -/

def Value.lineText (q : List Key × Value) : String :=
  pathText .spaceAfter q.1 ++ "=" ++ q.2.text .spaceBefore ++ "\n"

namespace Part

def text : Part → String
  | header isArray path before after =>
    before ++ (if isArray then "[[" ++ pathText .tight path ++ "]]"
      else "[" ++ pathText .tight path ++ "]") ++ after ++ "\n"
  | pair path v => Value.lineText (path, v)

end Part

theorem map_text_pairs (l : List (List Key × Value)) :
    (l.map fun q => Part.pair q.1 q.2).map Part.text = l.map Value.lineText := by
  rw [List.map_map]
  rfl

namespace Block

theorem text_parts (first : Bool) (b : Block) : String.join ((b.parts first).map Part.text) =
    (if b.hasHeader then b.toSection.header first else "") ++ b.toSection.body := by
  have body : b.toSection.body = String.join (b.pairs.map Value.lineText) := by
    rw [Section.body, toSection, List.map_map]
    rfl
  rw [parts, List.map_append, map_text_pairs, String.join_append, body]
  cases b.hasHeader <;> simp [Section.headerPart, Section.header, Part.text, Decor.wrap, headerUsual]

theorem write_eq_parts (first : Bool) (blocks : List Block) :
    Section.write first (blocks.map toSection) =
      String.join ((partsOf first blocks).map Part.text) := by
  induction blocks generalizing first with
  | nil => rfl
  | cons b blocks ih =>
    rw [List.map_cons, write_cons, partsOf, List.map_append, String.join_append, text_parts, ih]

def look (b : Block) : List Key × Bool × TableStyle × List String :=
  (b.path, b.isArray, b.style, b.pairs.map Value.lineText)

theorem parts_of_look {b b' : Block} (same : b'.look = b.look) (first : Bool) :
    (b'.parts first).map Part.text = (b.parts first).map Part.text ∧ b'.still first = b.still first := by
  obtain ⟨path, isArray, style, pairs⟩ := b
  obtain ⟨path', isArray', style', pairs'⟩ := b'
  obtain ⟨rfl, rfl, rfl, lines⟩ : path' = path ∧ isArray' = isArray ∧ style' = style ∧
      pairs'.map Value.lineText = pairs.map Value.lineText := by simpa [look] using same
  have none : pairs'.isEmpty = pairs.isEmpty := by
    have lengths := congrArg List.length lines
    simp only [List.length_map] at lengths
    rw [Bool.eq_iff_iff, List.isEmpty_iff_length_eq_zero, List.isEmpty_iff_length_eq_zero, lengths]
  refine ⟨?_, by simp [still, isVisible, none]⟩
  simp only [parts, hasHeader, isVisible, none, List.map_append, map_text_pairs, lines]
  rfl

theorem write_of_look {blocks blocks' : List Block} (same : blocks'.map look = blocks.map look)
    (first : Bool) : Section.write first (blocks'.map toSection) =
      Section.write first (blocks.map toSection) := by
  rw [write_eq_parts, write_eq_parts]
  congr 1
  induction blocks generalizing blocks' first with
  | nil =>
    obtain rfl : blocks' = [] := List.map_eq_nil_iff.mp same
    rfl
  | cons b blocks ih =>
    obtain ⟨b', blocks', rfl, own, others⟩ := List.map_eq_cons_iff.mp same
    obtain ⟨texts, still⟩ := parts_of_look own first
    rw [partsOf, partsOf, List.map_append, List.map_append, texts, still, ih others]

theorem ordered_of_look {blocks blocks' : List Block} (same : blocks'.map look = blocks.map look) :
    (orderedBlocks blocks').map look = (orderedBlocks blocks).map look := by
  have numbers : ∀ last, (numberedBlocks last blocks').map (fun e => (e.1, e.2.look)) =
      (numberedBlocks last blocks).map fun e => (e.1, e.2.look) := by
    induction blocks generalizing blocks' with
    | nil =>
      obtain rfl : blocks' = [] := List.map_eq_nil_iff.mp same
      exact fun _ => rfl
    | cons b blocks ih =>
      obtain ⟨b', blocks', rfl, own, others⟩ := List.map_eq_cons_iff.mp same
      have style : b'.style = b.style := congrArg (fun l => l.2.2.1) own
      intro last
      simp only [numberedBlocks, List.map_cons, style, own, ih others]
  have sorted := fun bs : List Block => List.map_mergeSort
    (r := fun a b : Nat × Block => decide (a.1 ≤ b.1))
    (s := fun a b : Nat × List Key × Bool × TableStyle × List String => decide (a.1 ≤ b.1))
    (f := fun e : Nat × Block => (e.1, e.2.look)) (l := numberedBlocks 0 bs) fun _ _ _ _ => rfl
  have looks : ∀ bs : List Block, (orderedBlocks bs).map look =
      (((numberedBlocks 0 bs).map fun e => (e.1, e.2.look)).mergeSort
        fun a b => decide (a.1 ≤ b.1)).map Prod.snd := fun bs => by
    rw [← sorted bs, orderedBlocks, List.map_map, List.map_map]
    rfl
  rw [looks, looks, numbers]

end Block

/-! ### Tables that are written alike -/

/-- Entries that are written alike under every path. -/
structure LooksLike (e e' : Key × Item) : Prop where
  pairs : ∀ path, (e'.2.pairs (path ++ [e'.1])).map Value.lineText =
    (e.2.pairs (path ++ [e.1])).map Value.lineText
  blocks : ∀ path, (e'.2.blocks (path ++ [e'.1])).map Block.look =
    (e.2.blocks (path ++ [e.1])).map Block.look

theorem LooksLike.refl (e : Key × Item) : LooksLike e e := ⟨fun _ => rfl, fun _ => rfl⟩

section

variable {entries entries' : Entries}

theorem LooksLike.pairsOf (alike : List.Forall₂ LooksLike entries entries') (path : List Key) :
    (pairsOf path entries').map Value.lineText = (pairsOf path entries).map Value.lineText := by
  induction alike with
  | nil => rfl
  | cons own _ ih => rw [Toml.pairsOf, Toml.pairsOf, List.map_append, List.map_append, own.pairs, ih]

theorem LooksLike.blocksOf (alike : List.Forall₂ LooksLike entries entries') (path : List Key) :
    (blocksOf path entries').map Block.look = (blocksOf path entries).map Block.look := by
  induction alike with
  | nil => rfl
  | cons own _ ih => rw [Toml.blocksOf, Toml.blocksOf, List.map_append, List.map_append, own.blocks, ih]

end

namespace Table

structure LooksLike (t t' : Table) : Prop where
  style : t'.style = t.style
  pairs : ∀ path, (t'.pairs path).map Value.lineText = (t.pairs path).map Value.lineText
  blocks : ∀ path isArray,
    (t'.blocks path isArray).map Block.look = (t.blocks path isArray).map Block.look

variable {t t' t'' c c' : Table} {name : String} {k : Key} {v : Value} {content : Scalar}

theorem LooksLike.trans (first : t.LooksLike t') (second : t'.LooksLike t'') : t.LooksLike t'' where
  style := second.style.trans first.style
  pairs path := (second.pairs path).trans (first.pairs path)
  blocks path isArray := (second.blocks path isArray).trans (first.blocks path isArray)

theorem looksLike_of_entries (style : t'.style = t.style)
    (alike : List.Forall₂ Toml.LooksLike t.entries t'.entries) : t.LooksLike t' := by
  obtain ⟨old, entries⟩ := t
  obtain ⟨new, entries'⟩ := t'
  obtain rfl : new = old := style
  have pairs := Toml.LooksLike.pairsOf alike
  have blocks := Toml.LooksLike.blocksOf alike
  refine ⟨rfl, pairs, fun path isArray => ?_⟩
  rw [Table.blocks, Table.blocks, List.map_append, List.map_append]
  refine congrArg₂ _ ?_ (blocks path)
  cases new.dotted with
  | true => rfl
  | false => exact congrArg (fun lines => [(path, isArray, new, lines)]) (pairs [])

theorem LooksLike.entry (looks : c.LooksLike c') (k : Key) :
    Toml.LooksLike (k, .table c) (k, .table c') where
  pairs path := by
    simp only [Item.pairs, looks.style]
    split
    · exact looks.pairs _
    · rfl
  blocks path := looks.blocks _ false

theorem looksLike_replace (found : t.find? name = some (.table c)) (looks : c.LooksLike c') :
    t.LooksLike (t.replace name (.table c')) := by
  refine looksLike_of_entries rfl ?_
  have found : t.entries.find? name = some (.table c) := found
  have all : ∀ {es : Entries}, es.find? name = some (.table c) →
      List.Forall₂ Toml.LooksLike es (es.replace name (.table c')) := by
    intro es found
    induction es with
    | nil => cases found
    | cons e rest ih =>
      obtain ⟨k, item⟩ := e
      by_cases here : k.name = name
      · simp only [Entries.find?, if_pos here, Option.some.injEq] at found
        rw [Entries.replace, if_pos here, found]
        exact .cons (looks.entry k) (List.forall₂_same.mpr fun e _ => .refl e)
      · simp only [Entries.find?, if_neg here] at found
        rw [Entries.replace, if_neg here]
        exact .cons (.refl _) (ih found)
  exact all found

theorem looksLike_set (found : t.find? name = some (.value v))
    (looks : ∀ k, (k, .value v) ∈ t.entries → k.name = name →
      Toml.LooksLike (k, .value v) (.new name, .value (.new content))) :
    t.LooksLike (t.set name content) := by
  refine looksLike_of_entries rfl ?_
  have found : t.entries.find? name = some (.value v) := found
  have all : ∀ {es : Entries}, (∀ e ∈ es, e ∈ t.entries) → es.find? name = some (.value v) →
      List.Forall₂ Toml.LooksLike es (es.insert name (.value (.new content))) := by
    intro es mem found
    induction es with
    | nil => cases found
    | cons e rest ih =>
      obtain ⟨k, item⟩ := e
      obtain ⟨own, mem⟩ := List.forall_mem_cons.mp mem
      by_cases here : k.name = name
      · simp only [Entries.find?, if_pos here, Option.some.injEq] at found
        subst found
        rw [Entries.insert, if_pos here]
        exact .cons (looks k own here) (List.forall₂_same.mpr fun e _ => .refl e)
      · simp only [Entries.find?, if_neg here] at found
        rw [Entries.insert, if_neg here]
        exact .cons (.refl _) (ih mem found)
  exact all (fun _ => id) found

end Table

/-! ### Entries that are read again -/

theorem LooksLike.of_value {k k' : Key} {v v' : Value} (leaf : v.isDotted = false)
    (leaf' : v'.isDotted = false) (text : k'.text = k.text)
    (left : k'.dotted.left .tight = k.dotted.left .tight)
    (around : ∀ name, k'.leaf.wrap .spaceAfter name = k.leaf.wrap .spaceAfter name)
    (value : v'.text .spaceBefore = v.text .spaceBefore) :
    LooksLike (k, .value v) (k', .value v') where
  pairs path := by
    have some : ∀ k : Key, path ++ [k] ≠ [] := by simp
    simp only [Item.pairs, Value.leaves_of_leaf leaf, Value.leaves_of_leaf leaf', List.map_cons,
      List.map_nil, Value.lineText, pathText_eq _ (some _), List.getLast_concat, around,
      keysText_last text left path, value]
  blocks path := rfl

end ClassDiagram.Toml
