import ClassDiagram.Proofs.Toml.Comments.Trees
import ClassDiagram.Proofs.Toml.Reprint

/-! A document is written with the comments of its tree: each block has those of its header and of
its pairs, and in whichever order the blocks are written, none is left out. -/

namespace ClassDiagram.Toml

/-! ### Lines -/

def pairLine (p : List Key × Value) : String :=
  pathText .spaceAfter p.1 ++ "=" ++ p.2.text .spaceBefore ++ "\n"

def pairComments (p : List Key × Value) : Multiset String :=
  (p.1.getLast?.elim 0 fun key => key.leaf.comments) + p.2.comments

section

variable {p : List Key × Value} {rest : List Char}

theorem Value.InTable.comments_line (kept : Value.InTable p) (rest : List Char) :
    Toml.comments ((pathText .spaceAfter p.1 ++ "=" ++ p.2.text .spaceBefore ++ "\n").toList ++ rest) =
      pairComments p + Toml.comments rest := by
  obtain ⟨path, v⟩ := p
  obtain ⟨front, key, rfl, keys, sides, value⟩ := kept
  have newline : isTextChar '\n' = false := by decide
  have text : (pathText .spaceAfter (front ++ [key]) ++ "=" ++ v.text .spaceBefore ++ "\n").toList ++
      rest = (pathText .spaceAfter (front ++ [key])).toList ++
        '=' :: ((v.text .spaceBefore).toList ++ '\n' :: rest) := by
    simp
  have right : LineEnd (v.decor.right .spaceBefore).toList :=
    value.sides.right LineEnd.nil fun _ => LineEnd.withoutReturns
  obtain ⟨b, skips⟩ := right.skips
  have layout : v.decor.Sides Skipped Skips :=
    value.sides.mono (fun _ => AllBlank.skipped) fun _ line => line.skips
  rw [text, comments_pathText keys sides (by simp [Usual.spaceAfter, AllSpace])
      (by simp [Usual.spaceAfter, AllBlank, isBlank]) (by decide) (by decide),
    comments_plain (by decide),
    value.apart.comments_text layout (by simp [Usual.spaceBefore, AllSpace])
      (by simp [Usual.spaceBefore, AllSpace]) (stops_of_skip? skips (by decide))
      (fun _ _ _ => by simpa using newline), comments_plain (by decide), pairComments]
  simp [add_assoc]

end

/-! ### Blocks -/

namespace Block

variable {b : Block}

theorem body_eq (b : Block) : b.toSection.body = String.join (b.pairs.map pairLine) := by
  rw [Section.body, toSection, List.map_map]
  rfl

def comments (b : Block) : Multiset String :=
  (if b.hasHeader then b.style.decor.comments else 0) + (b.pairs.map pairComments).sum

theorem Kept.comments_body (kept : b.Kept) (rest : List Char) :
    Toml.comments (b.toSection.body.toList ++ rest) =
      (b.pairs.map pairComments).sum + Toml.comments rest := by
  rw [body_eq]
  have pairs := kept.pairs
  generalize b.pairs = all at pairs ⊢
  induction all with
  | nil => simp
  | cons p all ih =>
    obtain ⟨own, pairs⟩ := List.forall_mem_cons.mp pairs
    have text : (String.join ((p :: all).map pairLine)).toList ++ rest =
        (pairLine p).toList ++ ((String.join (all.map pairLine)).toList ++ rest) := by
      simp
    rw [text, pairLine, own.comments_line, ih pairs, List.map_cons, List.sum_cons, add_assoc]

theorem Kept.comments_header (kept : b.Kept) (some : b.path ≠ []) (first : Bool) (rest : List Char) :
    Toml.comments ((b.toSection.header first).toList ++ rest) =
      b.style.decor.comments + Toml.comments rest := by
  obtain ⟨usual, layout⟩ : ∃ usual : Usual, usual = ⟨if first then "" else "\n", ""⟩ := ⟨_, rfl⟩
  have before : AllSpace usual.before.toList := by
    rw [layout]
    cases first <;> simp [AllSpace]
  have after : AllSpace usual.after.toList := by simp [layout, AllSpace]
  have sides := kept.style.sides
  have left : Skipped (b.style.decor.left usual).toList :=
    sides.left before.skipped fun _ => Skipped.withoutReturns
  have right : LineEnd (b.style.decor.right usual).toList := by
    refine sides.right ?_ fun _ => LineEnd.withoutReturns
    rw [layout]
    exact LineEnd.nil
  obtain ⟨front, key, path⟩ : ∃ front key, b.path = front ++ [key] :=
    ⟨_, _, (List.dropLast_concat_getLast some).symm⟩
  have keys : ∀ k ∈ front ++ [key], k.OfTable := path ▸ kept.path
  have own := keys key (by simp)
  have name : ∀ more, Toml.comments ((pathText .tight (front ++ [key])).toList ++ ']' :: more) =
      Toml.comments (']' :: more) := by
    intro more
    rw [comments_pathText (fun k mem => (keys k mem).kept)
      (own.blank.mono (fun _ => AllBlank.skipped) fun _ => id) (by simp [Usual.tight, AllSpace])
      (by simp [Usual.tight, AllBlank]) (by decide) (by decide), own.blank.comments, zero_add]
  have tail : Toml.comments ((b.style.decor.left usual).toList ++
      ((b.style.decor.right usual).toList ++ '\n' :: rest)) =
        b.style.decor.comments + Toml.comments rest := by
    rw [left.comments_append, right.comments_append,
      Decor.comments_left (fun text mem => ⟨_, sides.before text mem⟩) before,
      Decor.comments_right (fun text mem => (sides.after text mem).skips) after, Decor.comments,
      add_assoc]
  rw [← tail, left.comments_append]
  cases array : b.isArray with
  | true =>
    have text : (b.toSection.header first).toList ++ rest = (b.style.decor.left usual).toList ++
        '[' :: '[' :: ((pathText .tight (front ++ [key])).toList ++ ']' :: ']' ::
          ((b.style.decor.right usual).toList ++ '\n' :: rest)) := by
      simp [Section.header, toSection, Decor.wrap, array, path, layout]
    rw [text, left.comments_append, comments_plain (by decide), comments_plain (by decide), name,
      comments_plain (by decide), comments_plain (by decide)]
  | false =>
    have text : (b.toSection.header first).toList ++ rest = (b.style.decor.left usual).toList ++
        '[' :: ((pathText .tight (front ++ [key])).toList ++ ']' ::
          ((b.style.decor.right usual).toList ++ '\n' :: rest)) := by
      simp [Section.header, toSection, Decor.wrap, array, path, layout]
    rw [text, left.comments_append, comments_plain (by decide), name, comments_plain (by decide)]

theorem comments_write (first : Bool) {blocks : List Block} (kept : ∀ b ∈ blocks, b.Kept)
    (rest : List Char) :
    Toml.comments ((Section.write first (blocks.map toSection)).toList ++ rest) =
      (blocks.map comments).sum + Toml.comments rest := by
  induction blocks generalizing first with
  | nil => simp [Section.write]
  | cons b blocks ih =>
    obtain ⟨own, kept⟩ := List.forall_mem_cons.mp kept
    have text : (Section.write first ((b :: blocks).map toSection)).toList ++ rest =
        (if b.hasHeader then b.toSection.header first else "").toList ++
          (b.toSection.body.toList ++
            ((Section.write (b.still first) (blocks.map toSection)).toList ++ rest)) := by
      rw [List.map_cons, write_cons]
      simp
    rw [text, List.map_cons, List.sum_cons, comments]
    cases header : b.hasHeader with
    | true =>
      have some : b.path ≠ [] := by
        have := (Bool.and_eq_true_iff.mp header).1
        simpa using this
      simp only [if_true]
      rw [own.comments_header some, own.comments_body, ih _ kept]
      ac_rfl
    | false =>
      simp only [Bool.false_eq_true, if_false, String.toList_empty, List.nil_append]
      rw [own.comments_body, ih _ kept]
      ac_rfl

end Block

/-! ### The blocks of a tree -/

theorem Block.Kept.bare {b : Block} (kept : b.Kept) (hidden : b.isVisible = false) :
    b.style.decor.comments = 0 := by
  have implicit : b.style.implicit = true := by
    obtain ⟨_, implicit, _⟩ : b.isArray = false ∧ b.style.implicit = true ∧ b.pairs = [] := by
      simpa [isVisible] using hidden
    exact implicit
  rw [kept.style.bare (.inl implicit), Decor.comments_none]

/-- The comments of a block, its header written or not. -/
def Block.allComments (b : Block) : Multiset String :=
  b.style.decor.comments + (b.pairs.map pairComments).sum

theorem Block.Kept.comments_eq {b : Block} (kept : b.Kept)
    (top : b.path = [] → b.style.decor = .none) : b.comments = b.allComments := by
  rw [Block.comments, Block.allComments]
  cases header : b.hasHeader with
  | true => rfl
  | false =>
    have none : b.style.decor.comments = 0 := by
      by_cases root : b.path = []
      · rw [top root, Decor.comments_none]
      · exact kept.bare (by simpa [hasHeader, root] using header)
    simp [none]

namespace Table

theorem sum_pairs (path : List Key) (t : Table) :
    ((t.pairs path).map pairComments).sum =
      (t.entries.map fun e => ((e.2.pairs (path ++ [e.1])).map pairComments).sum).sum := by
  obtain ⟨style, entries⟩ := t
  rw [pairs, Table.entries]
  induction entries with
  | nil => rfl
  | cons e rest ih => simp [pairsOf, ih]

theorem sum_blocks (path : List Key) (isArray : Bool) (t : Table) :
    ((t.blocks path isArray).map Block.allComments).sum =
      (if t.style.dotted then 0 else (t.own path isArray).allComments) +
        (t.entries.map fun e => ((e.2.blocks (path ++ [e.1])).map Block.allComments).sum).sum := by
  obtain ⟨style, entries⟩ := t
  have below : ((blocksOf path entries).map Block.allComments).sum =
      (entries.map fun e => ((e.2.blocks (path ++ [e.1])).map Block.allComments).sum).sum := by
    induction entries with
    | nil => rfl
    | cons e rest ih => simp [blocksOf, ih]
  rw [blocks, List.map_append, List.sum_append, below]
  congr 1
  cases dotted : style.dotted <;> simp [Table.style, dotted, own, pairs]

theorem sum_blocksOfAll (path : List Key) (ts : List Table) :
    ((blocksOfAll path ts).map Block.allComments).sum =
      (ts.map fun c => ((c.blocks path true).map Block.allComments).sum).sum := by
  induction ts with
  | nil => rfl
  | cons c ts ih => simp [blocksOfAll, ih]

/-- The comments of a tree are those of its blocks, and those of its pairs where it has no block of
its own. -/
theorem sum_blocks_eq {t : Table} (kept : t.Kept) (path front : List Key) (isArray : Bool) :
    ((t.blocks path isArray).map Block.allComments).sum +
      (if t.style.dotted then ((t.pairs front).map pairComments).sum else 0) = t.comments := by
  induction t using Table.induct generalizing path front isArray with
  | step t ih =>
    have entry : ∀ front, ∀ e ∈ t.entries, ((e.2.pairs (front ++ [e.1])).map pairComments).sum +
        ((e.2.blocks (path ++ [e.1])).map Block.allComments).sum = e.2.comments e.1 := by
      intro front e mem
      have own := (kept_iff.mp kept).2.2 e mem
      cases item : e.2 with
      | value v =>
        rw [item] at own
        rw [Item.pairs, Value.leaves_of_leaf own.2.2.rereads.leaf]
        simp [pairComments, Item.blocks, Item.comments]
      | table c =>
        have below : c ∈ e.2.inner := by simp [item, Item.inner]
        have inner := ih e mem c below (kept.inner mem below).2 (path ++ [e.1]) (front ++ [e.1]) false
        rw [Item.pairs, Item.blocks, Item.comments, ← inner, add_comm]
        cases c.style.dotted <;> simp
      | tables ts =>
        rw [item] at own
        have inner : ∀ c ∈ ts, ((c.blocks (path ++ [e.1]) true).map Block.allComments).sum =
            c.comments := by
          intro c listed
          obtain ⟨keeps, plain⟩ := keptAll_iff.mp own.2 c listed
          have below : c ∈ e.2.inner := by simpa [item, Item.inner] using listed
          have whole := ih e mem c below keeps (path ++ [e.1]) [] true
          simpa [plain] using whole
        rw [Item.pairs, Item.blocks, Item.comments, commentsOfAll_eq_sum, sum_blocksOfAll,
          List.map_congr_left inner]
        simp
    have whole : ∀ front, ((t.pairs front).map pairComments).sum +
        (t.entries.map fun e => ((e.2.blocks (path ++ [e.1])).map Block.allComments).sum).sum =
          commentsOf t.entries := by
      intro front
      rw [sum_pairs, ← List.sum_map_add, commentsOf_eq_sum, List.map_congr_left (entry front)]
    have none : t.style.dotted = true → t.style.decor.comments = 0 := fun dotted => by
      rw [(kept_iff.mp kept).1.bare (.inr dotted), Decor.comments_none]
    rw [sum_blocks, comments_eq]
    cases dotted : t.style.dotted with
    | true =>
      rw [none dotted, ← whole front]
      simp [add_comm]
    | false =>
      rw [← whole []]
      simp [Block.allComments, own, add_assoc]

end Table

theorem Document.Kept.comments_text {d : Document} (kept : d.Kept) :
    comments d.text.toList = d.root.comments + comments d.trailing.toList := by
  obtain ⟨others, order, perm, below⟩ := Table.blocks_root kept.style
  obtain ⟨b, skips⟩ := kept.trailing
  have blocks : ∀ b ∈ d.root.own [] false :: others, b.Kept :=
    fun b listed => kept.root.blocks (by simp) (perm.mem_iff.mp listed)
  have own : ∀ b ∈ d.root.own [] false :: others, b.comments = b.allComments := by
    refine fun b listed => (blocks b listed).comments_eq fun root => ?_
    rcases List.mem_cons.mp listed with rfl | other
    · exact congrArg TableStyle.decor kept.style
    · exact absurd root (below b other)
  have plain : d.root.style.dotted = false := congrArg TableStyle.dotted kept.style
  have sum : ((d.root.own [] false :: others).map Block.comments).sum = d.root.comments := by
    rw [List.map_congr_left own, (perm.map _).sum_eq, ← Table.sum_blocks_eq kept.root [] [] false]
    simp [plain]
  have trailing : comments (d.trailing.toList.filter (· ≠ '\r')) = comments d.trailing.toList :=
    comments_withoutReturns skips
  have whole : d.text.toList = (Section.write true (ordered (d.root.sections [] false))).toList ++
      d.trailing.toList.filter (· ≠ '\r') := by
    rw [text, String.toList_append, toList_withoutReturns]
  rw [whole, d.root.ordered_sections, order, Block.comments_write true blocks, trailing, sum]

end ClassDiagram.Toml
