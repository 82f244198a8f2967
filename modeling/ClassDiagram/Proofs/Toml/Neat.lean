import ClassDiagram.Proofs.Toml.Outlines

/-! Documents that are read from plain statements are written statement by statement. So the text of
a document without blanks in its headers and without dotted keys is written as it is, once it is read
again. -/

namespace ClassDiagram.Toml

/-! ### Keys of headers -/

section

variable {spelled : String → String} {k : Key} {path path' : List Key} {last last' : Key}

def Key.ofName (spelled : String → String) (name : String) : Key :=
  ⟨name, some (spelled name), .none, .none⟩

theorem Key.neat_ofName (name : String) : (ofName spelled name).Neat spelled :=
  ⟨rfl, ⟨rfl, rfl⟩, rfl, rfl⟩

theorem Key.Neat.look (neat : k.Neat spelled) (first : Bool) :
    k.look first = (k.name, spelled k.name, "", "") := by
  simp [Key.look, neat.text, neat.dotted]

theorem pathLook_of_neat (neat : ∀ k ∈ path, k.Neat spelled) (first : Bool) :
    pathLook first path = (names path).map fun name => (name, spelled name, "", "") := by
  induction path generalizing first with
  | nil => rfl
  | cons k path ih =>
    obtain ⟨own, neat⟩ := List.forall_mem_cons.mp neat
    rw [pathLook, own.look, ih neat]
    rfl

theorem pathText_of_neat (neat : ∀ k ∈ path, k.Neat spelled) (neat' : ∀ k ∈ path', k.Neat spelled)
    (same : names path' = names path) : pathText .tight path' = pathText .tight path := by
  rcases List.eq_nil_or_concat path with rfl | ⟨front, k, rfl⟩
  · obtain rfl : path' = [] := List.map_eq_nil_iff.mp same
    rfl
  rcases List.eq_nil_or_concat path' with rfl | ⟨front', k', rfl⟩
  · simp [names] at same
  simp only [List.concat_eq_append] at neat neat' same ⊢
  obtain ⟨neat, own⟩ := List.forall_mem_append.mp neat
  obtain ⟨neat', own'⟩ := List.forall_mem_append.mp neat'
  have own := own k (List.mem_singleton_self k)
  have own' := own' k' (List.mem_singleton_self k')
  obtain ⟨fronts, lasts⟩ : names front' = names front ∧ k'.name = k.name := by
    rw [names_append, names_append] at same
    obtain ⟨fronts, lasts⟩ := List.append_inj' same rfl
    exact ⟨fronts, (List.cons.inj lasts).1⟩
  have text : k'.text = k.text := by rw [own.text, own'.text, lasts]
  have looks : pathLook true front' = pathLook true front := by
    rw [pathLook_of_neat neat, pathLook_of_neat neat', fronts]
  rw [pathText_eq _ (by simp), pathText_eq _ (by simp), List.getLast_concat, List.getLast_concat,
    keysText_last text (own'.dotted.1.trans own.dotted.1.symm), keysText_of_look looks, Decor.wrap,
    Decor.wrap, own.leaf.1, own.leaf.2, own'.leaf.1, own'.leaf.2]

theorem pathText_names (neat : ∀ k ∈ path, k.Neat spelled) :
    pathText .tight ((names path).map (Key.ofName spelled)) = pathText .tight path := by
  refine pathText_of_neat neat (fun k mem => ?_) (by simp [names, Key.ofName])
  obtain ⟨name, _, rfl⟩ := List.mem_map.mp mem
  exact Key.neat_ofName name

def Segment.Neat (spelled : String → String) (s : Segment) : Prop :=
  s.before = [] ∧ s.after = [] ∧ String.ofList s.key.spelling = spelled s.key.content

theorem neat_segmentsOf (neat : ∀ k ∈ path, k.Neat spelled) :
    ∀ s ∈ segmentsOf [] [] path, s.Neat spelled := by
  have own : ∀ {k : Key} {before after : List Char}, k.Neat spelled → before = [] → after = [] →
      (⟨before, ⟨k.name, k.text.toList⟩, after⟩ : Segment).Neat spelled := by
    intro k before after neat first second
    exact ⟨first, second, by simp [neat.text]⟩
  suffices all : ∀ before : List Char, before = [] → ∀ s ∈ segmentsOf before [] path,
      s.Neat spelled from all [] rfl
  intro before first
  induction path generalizing before with
  | nil => simp [segmentsOf]
  | cons key path ih =>
    obtain ⟨here, others⟩ := List.forall_mem_cons.mp neat
    cases path with
    | nil => simpa [segmentsOf] using own here first rfl
    | cons next path =>
      refine List.forall_mem_cons.mpr ⟨own here first (by rw [here.dotted.2]; rfl), ih others _ ?_⟩
      rw [(others next List.mem_cons_self).dotted.1]
      rfl

theorem neat_keysAgain (neat : ∀ k ∈ path ++ [last], k.Neat spelled)
    (again : keysAgain (last.leaf.left .tight).toList (last.leaf.right .tight).toList
      (path ++ [last]) = some (path', last')) : ∀ k ∈ path' ++ [last'], k.Neat spelled := by
  have leaf := (neat last (by simp)).leaf
  rw [leaf.1, leaf.2] at again
  have all := neat_segmentsOf neat
  have key : ∀ {s : Segment} {d : Decor}, s.Neat spelled → d.left .tight = "" →
      d.right .tight = "" → ({ s.toKey with leaf := d } : Key).Neat spelled := by
    rintro s d ⟨before, after, text⟩ left right
    refine ⟨text, ⟨left, right⟩, ?_, ?_⟩
    · simp [Segment.toKey, Decor.left_around, before, withoutReturns]
    · simp [Segment.toKey, Decor.right_around, after, withoutReturns]
  rw [keysAgain, String.toList_empty] at again
  obtain ⟨front, s, _, _, whole, rfl, rfl, ⟨first, mem, rfl⟩, rfl⟩ := keysOf_eq again
  rw [whole] at all mem
  have opening := (all first mem).1
  obtain ⟨fronts, last⟩ := List.forall_mem_append.mp all
  have last := last s (List.mem_singleton_self s)
  refine List.forall_mem_append.mpr ⟨fun k key' => ?_, ?_⟩
  · obtain ⟨s, listed, rfl⟩ := List.mem_map.mp key'
    exact key (fronts s listed) rfl rfl
  · obtain ⟨before, after, text⟩ := last
    simp only [List.mem_singleton, forall_eq]
    refine ⟨text, ⟨?_, ?_⟩, ?_, ?_⟩ <;>
      simp [Decor.left_around, Decor.right_around, before, after, opening, withoutReturns]

end

/-! ### The text of outlines -/

/-- The line of a header, with the lines below it. The whole document has no header. -/
def Outline.text (spelled : String → String) (o : Outline) : String :=
  (if o.path = [] then "" else (Part.header o.isArray (o.path.map (Key.ofName spelled))
    (o.decor.left .tight) (o.decor.right .tight)).text) ++ String.join o.lines

def Statement.text (leading : String) : Statement → String
  | header isArray path last tail =>
    (Part.header isArray (path ++ [last]) (withoutReturns leading) (withoutReturns tail)).text
  | pair q => Value.lineText ([q.placed leading], q.value)

section

variable {spelled : String → String} {statements : List (String × Statement)} {bs : List Block}
  {os : List Outline} {t : Table} {b : Block} {path : List Key} {isArray : Bool}

theorem text_outlinesFrom (neat : ∀ s ∈ statements, s.2.Neat spelled) (current : Outline) :
    String.join ((outlinesFrom current statements).map (Outline.text spelled)) =
      current.text spelled ++ String.join (statements.map fun s => s.2.text s.1) := by
  induction statements generalizing current with
  | nil => simp [outlinesFrom]
  | cons s statements ih =>
    obtain ⟨leading, s⟩ := s
    obtain ⟨own, others⟩ := List.forall_mem_cons.mp neat
    cases s with
    | pair q =>
      rw [outlinesFrom, ih others]
      simp [Outline.text, Statement.text, String.append_assoc]
    | header isArray path last tail =>
      have header := pathText_names own
      have some : names (path ++ [last]) ≠ [] := by simp [names]
      rw [outlinesFrom, List.map_cons, String.join_cons, ih others]
      simp [Outline.text, Statement.text, Part.text, some, header, Decor.left_around,
        Decor.right_around]

theorem rising_outlinesFrom (statements : List (String × Statement)) (current : Outline) :
    (outlinesFrom current statements).Pairwise (fun a b => a.number < b.number) ∧
      ∀ o ∈ outlinesFrom current statements, current.number ≤ o.number := by
  induction statements generalizing current with
  | nil => simp [outlinesFrom]
  | cons s statements ih =>
    obtain ⟨leading, _ | q⟩ := s
    · obtain ⟨rising, above⟩ := ih ⟨current.number + 1, _, _, _, _⟩
      refine ⟨List.pairwise_cons.mpr ⟨above, rising⟩, List.forall_mem_cons.mpr ⟨Nat.le_refl _, ?_⟩⟩
      exact fun o mem => (Nat.le_succ _).trans (above o mem)
    · exact ih _

theorem outlines_ordered (same : outlines bs = (os : Multiset Outline))
    (rising : os.Pairwise fun a b => a.number < b.number) :
    (orderedBlocks bs).filterMap Block.outline? = os := by
  let le := fun a b : Nat × Block => decide (a.1 ≤ b.1)
  have sorted : ((numberedBlocks 0 bs).mergeSort le).Pairwise fun a b => le a b = true :=
    List.pairwise_mergeSort (by simp [le]; omega) (by simp [le]; omega) _
  have number : ∀ e ∈ (numberedBlocks 0 bs).mergeSort le, ∀ o, e.2.outline? = some o →
      o.number = e.1 := by
    intro e mem o told
    obtain ⟨n, place, rfl⟩ := Option.map_eq_some_iff.mp told
    exact (number_of_numbered (List.mem_mergeSort.mp mem) place).symm
  have perm : ((orderedBlocks bs).filterMap Block.outline?).Perm os :=
    ((perm_orderedBlocks bs).filterMap _).trans (Multiset.coe_eq_coe.mp same)
  have distinct : (os.map Outline.number).Nodup := List.pairwise_map.mpr (rising.imp Nat.ne_of_lt)
  refine perm.eq_of_pairwise ?_ ?_ (rising.imp Nat.le_of_lt)
  · intro a b mem mem' less more
    exact List.inj_on_of_nodup_map distinct (perm.mem_iff.mp mem) mem' (Nat.le_antisymm less more)
  · rw [orderedBlocks, List.filterMap_map]
    refine List.pairwise_filterMap.mpr (sorted.imp_of_mem fun {a b} mem mem' less o told o' told' => ?_)
    rw [number a mem o told, number b mem' o' told']
    exact of_decide_eq_true less

/-- A block that is written as its outline, or not at all. -/
def Block.Outlined (spelled : String → String) (b : Block) : Prop :=
  ∀ first, String.join ((b.parts first).map Part.text) =
    (b.outline?.map (Outline.text spelled)).getD ""

theorem write_of_outlined (all : ∀ b ∈ bs, b.Outlined spelled) (first : Bool) :
    Section.write first (bs.map Block.toSection) =
      String.join ((bs.filterMap Block.outline?).map (Outline.text spelled)) := by
  rw [Block.write_eq_parts]
  induction bs generalizing first with
  | nil => rfl
  | cons b bs ih =>
    obtain ⟨own, all⟩ := List.forall_mem_cons.mp all
    rw [Block.partsOf, List.map_append, String.join_append, own, ih all, List.filterMap_cons]
    cases b.outline? <;> simp

namespace Table

theorem outlined_root (style : t.style = ⟨false, false, .none, some 0⟩) :
    (t.own [] false).Outlined spelled := by
  intro first
  simp [Block.parts, Block.hasHeader, Block.outline?, Table.own, Outline.text, style, names,
    map_text_pairs, -List.map_map]

theorem Opened.outlined (opened : t.Opened isArray) (plain : t.Plain spelled) (some : path ≠ [])
    (neat : ∀ k ∈ path, k.Neat spelled) : (t.own path isArray).Outlined spelled := by
  intro first
  cases opened with
  | parent style bare =>
    have none := plain.pairs_eq_nil bare
    simp [Block.parts, Block.hasHeader, Block.isVisible, Block.outline?, Table.own, style, none]
  | headed style =>
    have header := pathText_names neat
    have named : names path ≠ [] := by simpa [names] using some
    simp [Block.parts, Block.hasHeader, Block.isVisible, Block.outline?, Table.own, Outline.text, style,
      some, named, header, map_text_pairs, Section.headerPart, Block.toSection, Part.text,
      Decor.left_around, Decor.right_around, -List.map_map]

theorem Plain.outlined (plain : t.Plain spelled) (opened : t.Opened isArray) (some : path ≠ [])
    (neat : ∀ k ∈ path, k.Neat spelled) : ∀ b ∈ t.blocks path isArray, b.Outlined spelled := by
  induction t using induct generalizing path isArray with
  | step t ih =>
    intro b mem
    rcases mem_blocks.mp mem with ⟨_, rfl⟩ | ⟨e, entry, c, below, mem⟩
    · exact opened.outlined plain some neat
    · obtain ⟨key, inner⟩ := plain_iff.mp plain e entry
      obtain ⟨opened', plain'⟩ := inner c below
      refine ih e entry c below plain' opened' (by simp) ?_ b mem
      exact List.forall_mem_append.mpr ⟨neat, by simpa using key (Item.value?_of_inner below)⟩

theorem Plain.outlined_blocks (plain : t.Plain spelled)
    (style : t.style = ⟨false, false, .none, Option.some 0⟩) :
    ∀ b ∈ t.blocks [] false, b.Outlined spelled := by
  intro b mem
  rcases mem_blocks.mp mem with ⟨_, rfl⟩ | ⟨e, entry, c, below, mem⟩
  · exact outlined_root style
  · obtain ⟨key, inner⟩ := plain_iff.mp plain e entry
    obtain ⟨opened, plain'⟩ := inner c below
    refine plain'.outlined opened (by simp) ?_ b mem
    simpa using key (Item.value?_of_inner below)

end Table

end

namespace Document

variable {spelled : String → String} {text left : String} {d : Document}
  {statements : List (String × Statement)}

theorem text_of_statements (parsed : parse text = some d)
    (read : statements? text = some (statements, left))
    (neat : ∀ s ∈ statements, s.2.Neat spelled) : d.root.Plain spelled ∧
      d.text = String.join (statements.map fun s => s.2.text s.1) ++ withoutReturns left := by
  obtain ⟨_, a, again, run, closed⟩ := run_of_parse parsed
  cases read.symm.trans again
  obtain ⟨all, _⟩ := kept_of_statements? read
  obtain ⟨made, whole⟩ := Assembly.outlines_run Assembly.plain_start neat all run
  obtain ⟨_, plain, style, outlines⟩ := made.close closed
  have first : Assembly.start.outlines = {Assembly.start.outline} := rfl
  rw [first, add_comm] at whole
  have told := outlines.trans (add_left_cancel whole)
  have ordered := outlines_ordered told (rising_outlinesFrom statements _).1
  have outlined : ∀ b ∈ orderedBlocks (d.root.blocks [] false), b.Outlined spelled :=
    fun b mem => plain.outlined_blocks style b ((perm_orderedBlocks _).mem_iff.mp mem)
  refine ⟨plain, ?_⟩
  rw [Document.text, Table.ordered_sections, write_of_outlined outlined, ordered,
    text_outlinesFrom neat]
  rfl

end Document

/-! ### Documents that are read again -/

/-- Headers have neat keys, and no table comes from a dotted key. -/
inductive Table.Neat (spelled : String → String) : Table → Prop
  | intro {t : Table} (keys : ∀ e ∈ t.entries, e.2.value? = none → e.1.Neat spelled)
      (tables : ∀ e ∈ t.entries, ∀ c ∈ e.2.inner, c.style.dotted = false)
      (inner : ∀ e ∈ t.entries, ∀ c ∈ e.2.inner, c.Neat spelled) : t.Neat spelled

def Item.Neat (spelled : String → String) (key : Key) (item : Item) : Prop :=
  (item.value? = none → key.Neat spelled) ∧
    ∀ c ∈ item.inner, c.style.dotted = false ∧ c.Neat spelled

def Part.Neat (spelled : String → String) : Part → Prop
  | header _ path before after => (∀ k ∈ path, k.Neat spelled) ∧
    withoutReturns before = before ∧ withoutReturns after = after
  | pair path _ => ∃ key, path = [key]

section

variable {spelled : String → String} {t : Table} {b : Block} {path : List Key} {isArray : Bool}
  {part : Part} {s : String × Statement} {d d' : Document}

theorem Table.neat_iff : t.Neat spelled ↔ ∀ e ∈ t.entries, e.2.Neat spelled e.1 := by
  constructor
  · rintro ⟨keys, tables, inner⟩ e entry
    exact ⟨keys e entry, fun c below => ⟨tables e entry c below, inner e entry c below⟩⟩
  · exact fun all => .intro (fun e entry => (all e entry).1)
      (fun e entry c below => ((all e entry).2 c below).1)
      fun e entry c below => ((all e entry).2 c below).2

theorem Table.Plain.neat (plain : t.Plain spelled) : t.Neat spelled := by
  induction t using induct with
  | step t ih =>
    refine neat_iff.mpr fun e entry => ?_
    obtain ⟨key, inner⟩ := plain_iff.mp plain e entry
    refine ⟨key, fun c below => ?_⟩
    obtain ⟨opened, plain⟩ := inner c below
    exact ⟨opened.dotted, ih e entry c below plain⟩

/-- A part of a neat document is read as a plain statement, which is written as the part. -/
theorem Part.ReadAs.neat (read : part.ReadAs s) (neat : part.Neat spelled) :
    s.2.Neat spelled ∧ s.2.text s.1 = part.text := by
  cases read with
  | header keys =>
    obtain ⟨neat, before, after⟩ := neat
    have again := neat_keysAgain neat keys
    refine ⟨again, ?_⟩
    rw [Statement.text, before, after, Part.text, Part.text,
      pathText_of_neat neat again (names_keysAgain keys)]
  | @pair front path' last last' v w keys value rereads =>
    obtain ⟨key, single⟩ := neat
    obtain rfl : front = [] := by
      have length := congrArg List.length single
      simpa using length
    have named := names_keysAgain keys
    obtain ⟨_, text, leaf, _⟩ := last_keysAgain keys
    obtain rfl : path' = [] := by
      have length := congrArg List.length named
      simpa [names] using length
    refine ⟨rfl, ?_⟩
    have body := (value.again rereads).2.2
    have before : last'.leaf.before.getD "" = "" := by simp [leaf, Decor.around]
    have after : last'.leaf.right .spaceAfter = last.leaf.right .spaceAfter := by
      simp [leaf, Decor.right_around, Decor.withoutReturns_right]
    have key : ∀ (k : Key) (usual : Usual), pathText usual [k] = k.leaf.wrap usual k.text :=
      fun _ _ => rfl
    have left : ∀ (q : Pair) (leading : String), (q.placed leading).leaf.left .spaceAfter =
        withoutReturns (leading ++ q.key.leaf.before.getD "") := fun _ _ => rfl
    have right : ∀ (q : Pair) (leading : String), (q.placed leading).leaf.right .spaceAfter =
        q.key.leaf.right .spaceAfter := fun _ _ => rfl
    have placed : ∀ (q : Pair) (leading : String), (q.placed leading).text = q.key.text :=
      fun _ _ => rfl
    simp [Statement.text, Part.text, Value.lineText, key, placed, left, right, before, after, text,
      Value.text_eq, body, Decor.wrap, Decor.left_around, Decor.right_around,
      Decor.withoutReturns_left, Decor.withoutReturns_right]

theorem statements_of_neat {parts : List Part} {statements : List (String × Statement)}
    (read : List.Forall₂ Part.ReadAs parts statements) (neat : ∀ part ∈ parts, part.Neat spelled) :
    (∀ s ∈ statements, s.2.Neat spelled) ∧
      (statements.map fun s => s.2.text s.1) = parts.map Part.text := by
  induction read with
  | nil => simp
  | cons own _ ih =>
    obtain ⟨here, neat⟩ := List.forall_mem_cons.mp neat
    obtain ⟨plain, text⟩ := own.neat here
    obtain ⟨others, texts⟩ := ih neat
    exact ⟨List.forall_mem_cons.mpr ⟨plain, others⟩, by rw [List.map_cons, List.map_cons, text, texts]⟩

theorem Table.Neat.pairs (neat : t.Neat spelled) (kept : t.Kept) :
    ∀ p ∈ t.pairs [], ∃ key, p.1 = [key] := by
  intro p mem
  obtain ⟨e, entry, mem⟩ := mem_pairs.mp mem
  have own := (kept_iff.mp kept).2.2 e entry
  have inner := (neat_iff.mp neat e entry).2
  cases item : e.2 with
  | value v =>
    rw [item] at own mem
    rw [Item.pairs, Value.leaves_of_leaf own.2.2.rereads.leaf] at mem
    exact ⟨e.1, congrArg Prod.fst (List.mem_singleton.mp mem)⟩
  | table c =>
    rw [item] at mem inner
    rw [Item.pairs, (inner c (List.mem_singleton_self c)).1] at mem
    cases mem
  | tables ts =>
    rw [item] at mem
    cases mem

theorem Table.Neat.blocks (neat : t.Neat spelled) (kept : t.Kept)
    (keys : ∀ k ∈ path, k.Neat spelled) :
    ∀ b ∈ t.blocks path isArray, (∀ k ∈ b.path, k.Neat spelled) ∧ ∀ p ∈ b.pairs, ∃ key, p.1 = [key] := by
  induction t using induct generalizing path isArray with
  | step t ih =>
    intro b mem
    rcases mem_blocks.mp mem with ⟨_, rfl⟩ | ⟨e, entry, c, below, mem⟩
    · exact ⟨keys, neat.pairs kept⟩
    · obtain ⟨key, inner⟩ := neat_iff.mp neat e entry
      refine ih e entry c below (inner c below).2 (kept.inner entry below).2 ?_ b mem
      exact List.forall_mem_append.mpr ⟨keys, by simpa using key (Item.value?_of_inner below)⟩

theorem neat_partsOf {bs : List Block} (all : ∀ b ∈ bs, (∀ k ∈ b.path, k.Neat spelled) ∧
    ∀ p ∈ b.pairs, ∃ key, p.1 = [key]) (first : Bool) :
    ∀ part ∈ Block.partsOf first bs, part.Neat spelled := by
  induction bs generalizing first with
  | nil => simp [Block.partsOf]
  | cons b bs ih =>
    obtain ⟨⟨path, pairs⟩, all⟩ := List.forall_mem_cons.mp all
    refine List.forall_mem_append.mpr ⟨List.forall_mem_append.mpr ⟨?_, ?_⟩, ih all _⟩
    · cases b.hasHeader with
      | false => simp
      | true =>
        simp only [if_true, List.mem_singleton, forall_eq]
        exact ⟨path, Decor.withoutReturns_left _ _, Decor.withoutReturns_right _ _⟩
    · exact List.forall_mem_map.mpr fun p mem => pairs p mem

/-- The text of a neat document, where it is one, is written as it is. -/
theorem Document.Kept.text_again (kept : d.Kept) (neat : d.root.Neat spelled)
    (parsed : parse d.text = some d') : d'.text = d.text := by
  obtain ⟨statements, _, read, _⟩ := run_of_parse parsed
  obtain ⟨trailing, all⟩ := kept.readAs_text read
  have blocks : ∀ b ∈ orderedBlocks (d.root.blocks [] false), _ := fun b mem =>
    neat.blocks kept.root (by simp) b ((perm_orderedBlocks _).mem_iff.mp mem)
  obtain ⟨plain, texts⟩ := statements_of_neat all (neat_partsOf blocks true)
  rw [(text_of_statements parsed read plain).2, texts, trailing, withoutReturns_again,
    ← Block.write_eq_parts, Document.text, Table.ordered_sections]

end

end ClassDiagram.Toml
