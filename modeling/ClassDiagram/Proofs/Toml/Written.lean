import ClassDiagram.Proofs.Glob.Order
import ClassDiagram.Proofs.Toml.Order
import ClassDiagram.Proofs.Toml.Reprint

/-! The values of a document in the order in which it is written: its blocks by the numbers of their
headers, in each of them the pairs as they stand in the tree. Whatever the order of blocks, the
values of one table stay in their order. -/

namespace ClassDiagram.Toml

/-! ### The values of blocks -/

def pairRow (header : List String) (place : Option Nat) (p : List Key × Value) : Row :=
  (header ++ names p.1.dropLast,
    ⟨if p.1.length = 1 then place else none, (p.1.getLast?.map Key.name).getD "", p.2⟩)

namespace Block

def rows (b : Block) : List Row := b.pairs.map (pairRow (names b.path) b.style.position)

def under (path : List Key) (b : Block) : Block := { b with path := path ++ b.path }

theorem rows_under (path : List Key) (b : Block) :
    (b.under path).rows = b.rows.map (Row.under (names path)) := by
  simp [rows, under, pairRow, Row.under, names_append]

end Block

namespace Table

variable {t : Table} {e : Key × Item} {path : List Key}

theorem pairs_eq (path : List Key) (t : Table) :
    t.pairs path = t.entries.flatMap fun e => e.2.pairs (path ++ [e.1]) := by
  obtain ⟨style, entries⟩ := t
  rw [pairs, Table.entries]
  induction entries with
  | nil => rfl
  | cons e rest ih => rw [pairsOf, ih, List.flatMap_cons]

end Table

theorem blocksOfAll_eq (path : List Key) (ts : List Table) :
    blocksOfAll path ts = ts.flatMap fun c => c.blocks path true := by
  induction ts with
  | nil => rfl
  | cons c ts ih => rw [blocksOfAll, ih, List.flatMap_cons]

theorem blocksOf_eq (path : List Key) (entries : Entries) :
    blocksOf path entries = entries.flatMap fun e => e.2.blocks (path ++ [e.1]) := by
  induction entries with
  | nil => rfl
  | cons e rest ih => rw [blocksOf, ih, List.flatMap_cons]

mutual

theorem Table.blocks_under (path below : List Key) (isArray : Bool) : (t : Table) →
    t.blocks (path ++ below) isArray = (t.blocks below isArray).map (Block.under path)
  | .mk style entries => by
    rw [Table.blocks, Table.blocks, List.map_append, blocksOf_under path below entries]
    congr 1
    split <;> rfl

theorem blocksOf_under (path below : List Key) : (entries : Entries) →
    blocksOf (path ++ below) entries = (blocksOf below entries).map (Block.under path)
  | [] => rfl
  | (key, item) :: rest => by
    rw [blocksOf, blocksOf, List.map_append, List.append_assoc, item.blocks_under path,
      blocksOf_under path below rest]

theorem Item.blocks_under (path below : List Key) : (item : Item) →
    item.blocks (path ++ below) = (item.blocks below).map (Block.under path)
  | .value _ => rfl
  | .table t => t.blocks_under path below false
  | .tables ts => blocksOfAll_under path below ts

theorem blocksOfAll_under (path below : List Key) : (ts : List Table) →
    blocksOfAll (path ++ below) ts = (blocksOfAll below ts).map (Block.under path)
  | [] => rfl
  | t :: ts => by
    rw [blocksOfAll, blocksOfAll, List.map_append, t.blocks_under path below,
      blocksOfAll_under path below ts]

end

namespace Table

variable {t : Table} {e : Key × Item}

/-- Below a dotted key, the values of a table do not stand right under the header. -/
theorem rows_of_dotted (header : List String) (place : Option Nat) {path : List Key}
    (some : path ≠ []) (kept : t.Kept) :
    (t.pairs path).map (pairRow header place) =
      ((t.pairs []).map (pairRow [] none)).map (Row.under (header ++ names path)) := by
  induction t using induct generalizing header place path with
  | step t ih =>
    rw [pairs_eq, pairs_eq, List.map_flatMap, List.map_flatMap, List.map_flatMap]
    refine List.flatMap_congr fun e entry => ?_
    have own := (kept_iff.mp kept).2.2 e entry
    cases item : e.2 with
    | value v =>
      rw [item] at own
      have leaf := own.2.2.rereads.leaf
      rw [Item.pairs, Item.pairs, Value.leaves_of_leaf leaf, Value.leaves_of_leaf leaf]
      simp [pairRow, Row.under, some, names]
    | table c =>
      have below : c ∈ e.2.inner := by simp [item, Item.inner]
      have keeps := (kept.inner entry below).2
      rw [Item.pairs, Item.pairs]
      split
      · rw [List.nil_append, ih e entry c below header place (by simp) keeps,
          ih e entry c below [] none (List.cons_ne_nil e.1 []) keeps, map_under_map, List.nil_append,
          names_append, List.append_assoc]
      · rfl
    | tables ts => rfl

/-- The values of a table and of all that is in it, block by block. -/
def listing (t : Table) : List Row :=
  (t.pairs []).map (pairRow [] t.place) ++ (blocksOf [] t.entries).flatMap Block.rows

def inlineRows (place : Option Nat) (e : Key × Item) : List Row :=
  (e.2.pairs [e.1]).map (pairRow [] place)

def blockRows (e : Key × Item) : List Row := (e.2.blocks [e.1]).flatMap Block.rows

theorem blocks_key (key : Key) (isArray : Bool) (t : Table) :
    t.blocks [key] isArray = (t.blocks [] isArray).map (Block.under [key]) :=
  t.blocks_under [key] [] isArray

theorem rows_blocks (key : Key) (isArray : Bool) (t : Table) :
    (t.blocks [key] isArray).flatMap Block.rows =
      ((t.blocks [] isArray).flatMap Block.rows).map (Row.under [key.name]) := by
  rw [blocks_key, List.flatMap_map, List.map_flatMap]
  exact List.flatMap_congr fun b _ => b.rows_under [key]

theorem blocks_eq (path : List Key) (isArray : Bool) (t : Table) : t.blocks path isArray =
    (if t.style.dotted then [] else [t.own path isArray]) ++ blocksOf path t.entries := by
  obtain ⟨style, entries⟩ := t
  rfl

/-- A table has its values in its own block, or in the one above where it comes from a dotted key. -/
theorem rows_of_table (kept : t.Kept) (key : Key) (place : Option Nat) (isArray : Bool) :
    (if t.style.dotted then (t.pairs [key]).map (pairRow [] place) else []) ++
      (t.blocks [key] isArray).flatMap Block.rows = t.listing.map (Row.under [key.name]) := by
  rw [rows_blocks, blocks_eq, List.flatMap_append, listing, List.map_append, List.map_append,
    ← List.append_assoc]
  congr 1
  rw [Table.place]
  cases dotted : t.style.dotted with
  | true =>
    simp only [if_true]
    rw [rows_of_dotted [] place (List.cons_ne_nil key []) kept]
    simp [names]
  | false => simp [Table.own, Block.rows, names]

theorem entry_rows (kept : t.Kept) (entry : e ∈ t.entries) (place : Option Nat) :
    inlineRows place e ++ blockRows e =
      (e.2.value?.map fun v => (([], ⟨place, e.1.name, v⟩) : Row)).toList ++
        (e.2.inner.flatMap listing).map (Row.under [e.1.name]) := by
  have own := (kept_iff.mp kept).2.2 e entry
  rw [inlineRows, blockRows]
  cases item : e.2 with
  | value v =>
    rw [item] at own
    rw [Item.pairs, Value.leaves_of_leaf own.2.2.rereads.leaf]
    simp [pairRow, names, Item.value?, Item.inner, Item.blocks]
  | table c =>
    have keeps := (kept.inner entry (by simp [item, Item.inner] : c ∈ e.2.inner)).2
    have whole := rows_of_table keeps e.1 place false
    rw [Item.pairs, Item.blocks]
    simp only [Item.value?, Item.inner, List.flatMap_singleton, Option.map_none, Option.toList_none,
      List.nil_append]
    rw [← whole]
    cases c.style.dotted <;> rfl
  | tables ts =>
    rw [item] at own
    have each : ∀ c ∈ ts, (c.blocks [e.1] true).flatMap Block.rows =
        c.listing.map (Row.under [e.1.name]) := by
      intro c mem
      obtain ⟨keeps, plain⟩ := keptAll_iff.mp own.2 c mem
      have whole := rows_of_table keeps e.1 place true
      rwa [plain] at whole
    rw [Item.pairs, Item.blocks, blocksOfAll_eq, List.flatMap_assoc, List.flatMap_congr each,
      Item.inner, List.map_flatMap]
    rfl

theorem slotsAt_of_find? {name : String} {item : Item} (found : t.find? name = some item)
    (path : List String) : t.slotsAt (name :: path) = item.inner.flatMap (slotsAt path) := by
  rw [slotsAt, found]
  cases item with
  | value v => rfl
  | table c => simp [Item.inner]
  | tables ts => rfl

section

variable {name : String} (place : Option Nat) (path : List String)

theorem slotsIn_entry_nil (kept : t.Kept) (entry : e ∈ t.entries) :
    slotsIn [] (inlineRows place e) = (e.2.value?.map (Slot.mk place e.1.name)).toList ∧
      slotsIn [] (blockRows e) = [] := by
  have whole := congrArg (slotsIn []) (entry_rows kept entry place)
  rw [slotsIn_append, slotsIn_append, slotsIn_under_nil, List.append_nil] at whole
  cases item : e.2 with
  | value v =>
    have none : blockRows e = [] := by simp [blockRows, item, Item.blocks]
    rw [none] at whole ⊢
    rw [item] at whole
    exact ⟨(List.append_nil _).symm.trans whole, rfl⟩
  | table c =>
    rw [item] at whole
    exact List.append_eq_nil_iff.mp whole
  | tables ts =>
    rw [item] at whole
    exact List.append_eq_nil_iff.mp whole

theorem slotsIn_entry_other (kept : t.Kept) (entry : e ∈ t.entries) (ne : e.1.name ≠ name) :
    slotsIn (name :: path) (inlineRows place e) = [] ∧
      slotsIn (name :: path) (blockRows e) = [] := by
  have whole := congrArg (slotsIn (name :: path)) (entry_rows kept entry place)
  rw [slotsIn_append, slotsIn_append, slotsIn_under_other (Ne.symm ne), List.append_nil] at whole
  refine List.append_eq_nil_iff.mp (whole.trans ?_)
  cases e.2.value? <;> rfl

theorem slotsIn_entry (kept : t.Kept) (entry : e ∈ t.entries) :
    slotsIn (e.1.name :: path) (inlineRows place e) ++ slotsIn (e.1.name :: path) (blockRows e) =
      e.2.inner.flatMap fun c => slotsIn path c.listing := by
  have whole := congrArg (slotsIn (e.1.name :: path)) (entry_rows kept entry place)
  rw [slotsIn_append, slotsIn_append, slotsIn_under] at whole
  rw [whole]
  have above : slotsIn (e.1.name :: path)
      (e.2.value?.map fun v => (([], ⟨place, e.1.name, v⟩) : Row)).toList = [] := by
    cases e.2.value? <;> rfl
  rw [above, List.nil_append, slotsIn, List.filterMap_flatMap]
  rfl

end

end Table

theorem flatMap_of_mem {α : Type} {entries : Entries} {e : Key × Item} {f : Key × Item → List α}
    (distinct : (entries.map (·.1.name)).Nodup) (mem : e ∈ entries)
    (others : ∀ e' ∈ entries, e'.1.name ≠ e.1.name → f e' = []) : entries.flatMap f = f e := by
  induction entries with
  | nil => cases mem
  | cons first rest ih =>
    obtain ⟨fresh, distinct⟩ := List.nodup_cons.mp distinct
    obtain ⟨own, others'⟩ := List.forall_mem_cons.mp others
    rw [List.flatMap_cons]
    rcases List.mem_cons.mp mem with rfl | later
    · have none : ∀ e' ∈ rest, f e' = [] := fun e' mem => others' e' mem fun same =>
        fresh (List.mem_map.mpr ⟨e', mem, same⟩)
      rw [List.flatMap_eq_nil_iff.mpr none, List.append_nil]
    · have ne : first.1.name ≠ e.1.name := fun same =>
        fresh (List.mem_map.mpr ⟨e, later, same.symm⟩)
      rw [own ne, ih distinct later others', List.nil_append]

theorem Table.slotsIn_pairs (path : List String) (place : Option Nat) (t : Table) :
    slotsIn path ((t.pairs []).map (pairRow [] place)) =
      t.entries.flatMap fun e => slotsIn path (inlineRows place e) := by
  rw [pairs_eq, List.map_flatMap, slotsIn, List.filterMap_flatMap]
  rfl

theorem Table.slotsIn_blocks (path : List String) (t : Table) :
    slotsIn path ((blocksOf [] t.entries).flatMap Block.rows) =
      t.entries.flatMap fun e => slotsIn path (blockRows e) := by
  rw [blocksOf_eq, List.flatMap_assoc, slotsIn, List.filterMap_flatMap]
  rfl

theorem Table.slotsIn_listing {t : Table} (kept : t.Kept) (path : List String) :
    slotsIn path t.listing = t.slotsAt path := by
  induction path generalizing t with
  | nil =>
    have entry := fun (e : Key × Item) (mem : e ∈ t.entries) => slotsIn_entry_nil t.place kept mem
    rw [listing, slotsIn_append, slotsIn_pairs, slotsIn_blocks,
      List.flatMap_congr fun e mem => (entry e mem).1,
      List.flatMap_eq_nil_iff.mpr fun e mem => (entry e mem).2, List.append_nil, slotsAt, slots,
      List.filterMap_eq_flatMap_toList]
  | cons name path ih =>
    have other := fun (e : Key × Item) mem (ne : e.1.name ≠ name) =>
      slotsIn_entry_other t.place path kept mem ne
    rw [listing, slotsIn_append, slotsIn_pairs, slotsIn_blocks]
    cases found : t.find? name with
    | none =>
      have ne : ∀ e ∈ t.entries, e.1.name ≠ name := fun e mem same =>
        Entries.find?_eq_none_iff.mp found (List.mem_map.mpr ⟨e, mem, same⟩)
      rw [List.flatMap_eq_nil_iff.mpr fun e mem => (other e mem (ne e mem)).1,
        List.flatMap_eq_nil_iff.mpr fun e mem => (other e mem (ne e mem)).2, slotsAt_of_none found]
      rfl
    | some item =>
      obtain ⟨e, entry, rfl, rfl⟩ := Entries.mem_of_find? found
      have distinct := (kept_iff.mp kept).2.1
      rw [flatMap_of_mem distinct entry fun e mem ne => (other e mem ne).1,
        flatMap_of_mem distinct entry fun e mem ne => (other e mem ne).2,
        slotsIn_entry t.place path kept entry, slotsAt_of_find? found]
      exact List.flatMap_congr fun c below => ih (kept.inner entry below).2

/-! ### Numbered blocks -/

section

variable {last n : Nat} {b : Block} {bs more : List Block} {path : List String}

theorem mem_of_numbered (mem : (n, b) ∈ numberedBlocks last bs) : b ∈ bs := by
  rw [← map_numberedBlocks last bs]
  exact List.mem_map_of_mem mem

theorem numberedBlocks_append (last : Nat) (bs more : List Block) : ∃ next,
    numberedBlocks last (bs ++ more) = numberedBlocks last bs ++ numberedBlocks next more := by
  induction bs generalizing last with
  | nil => exact ⟨last, rfl⟩
  | cons b rest ih =>
    obtain ⟨next, same⟩ := ih (b.style.position.getD last)
    exact ⟨next, by simp [numberedBlocks, same]⟩

theorem numberedBlocks_under (path : List Key) (last : Nat) (bs : List Block) :
    numberedBlocks last (bs.map (Block.under path)) =
      (numberedBlocks last bs).map fun e => (e.1, e.2.under path) := by
  induction bs generalizing last with
  | nil => rfl
  | cons b rest ih =>
    simp only [List.map_cons, numberedBlocks]
    rw [ih]
    rfl

theorem place_of_numbered (mem : (n, b) ∈ numberedBlocks last bs) :
    n = last ∨ ∃ b' ∈ bs, b'.style.position = some n := by
  induction bs generalizing last with
  | nil => cases mem
  | cons first rest ih =>
    have own : first.style.position.getD last = last ∨
        first.style.position = some (first.style.position.getD last) := by
      cases first.style.position <;> simp
    rcases List.mem_cons.mp mem with same | later
    · obtain ⟨rfl, rfl⟩ := Prod.mk.inj same
      exact own.imp_right fun place => ⟨_, List.mem_cons_self, place⟩
    · rcases ih later with rfl | ⟨b', mem, place⟩
      · exact own.imp_right fun place => ⟨_, List.mem_cons_self, place⟩
      · exact .inr ⟨b', List.mem_cons_of_mem _ mem, place⟩

/-! ### Blocks that have values of one table -/

def Block.feeds (path : List String) (b : Block) : Bool := !(slotsIn path b.rows).isEmpty

/-- The blocks with values of the table under a path come in the order of their numbers. -/
def Rising (path : List String) (last : Nat) (bs : List Block) : Prop :=
  ((numberedBlocks last bs).filter fun e => e.2.feeds path).Pairwise fun a b => a.1 ≤ b.1

theorem feeds_eq_false_iff : b.feeds path = false ↔ slotsIn path b.rows = [] := by
  simp [Block.feeds]

theorem feeds_none_iff :
    (∀ b ∈ bs, b.feeds path = false) ↔ slotsIn path (bs.flatMap Block.rows) = [] := by
  rw [slotsIn, List.filterMap_flatMap, List.flatMap_eq_nil_iff]
  exact forall₂_congr fun b _ => feeds_eq_false_iff

theorem filter_feeds_none (none : ∀ b ∈ bs, b.feeds path = false) (last : Nat) :
    (numberedBlocks last bs).filter (fun e => e.2.feeds path) = [] := by
  refine List.filter_eq_nil_iff.mpr fun e mem => ?_
  simp [none e.2 (mem_of_numbered (n := e.1) mem)]

theorem rising_of_none (none : ∀ b ∈ bs, b.feeds path = false) (last : Nat) :
    Rising path last bs := by
  rw [Rising, filter_feeds_none none]
  exact .nil

theorem Rising.append_none (rising : Rising path last bs)
    (none : ∀ b ∈ more, b.feeds path = false) : Rising path last (bs ++ more) := by
  obtain ⟨next, same⟩ := numberedBlocks_append last bs more
  rwa [Rising, same, List.filter_append, filter_feeds_none none, List.append_nil]

theorem rising_none_append (none : ∀ b ∈ bs, b.feeds path = false)
    (rising : ∀ last, Rising path last more) (last : Nat) : Rising path last (bs ++ more) := by
  obtain ⟨next, same⟩ := numberedBlocks_append last bs more
  rw [Rising, same, List.filter_append, filter_feeds_none none, List.nil_append]
  exact rising next

theorem rising_under (key : Key) (rising : Rising path last bs) :
    Rising (key.name :: path) last (bs.map (Block.under [key])) := by
  have feeds : ∀ b : Block, (b.under [key]).feeds (key.name :: path) = b.feeds path := fun b => by
    rw [Block.feeds, Block.rows_under, Block.feeds]
    exact congrArg (fun slots => !slots.isEmpty) (slotsIn_under key.name path b.rows)
  rw [Rising, numberedBlocks_under, List.filter_map, List.pairwise_map]
  simpa [Rising, Function.comp_def, feeds] using rising

end

namespace Table

variable {t : Table} {e : Key × Item} {path : List String} {n : Nat} {b : Block}

theorem holds_of_mem_blocks {front : List Key} {isArray : Bool} (mem : b ∈ t.blocks front isArray)
    (place : b.style.position = some n) : t.Holds n := by
  induction t using induct generalizing front isArray with
  | step t ih =>
    rcases mem_blocks.mp mem with ⟨_, rfl⟩ | ⟨e, entry, c, below, mem⟩
    · exact .own place
    · exact .inner entry below (ih e entry c below mem)

/-- What a table has in the block above it, no block below has. -/
theorem slotsIn_blocks_of_pairs (kept : t.Kept) (place : Option Nat)
    (some : slotsIn path ((t.pairs []).map (pairRow [] place)) ≠ []) :
    slotsIn path ((blocksOf [] t.entries).flatMap Block.rows) = [] := by
  induction path generalizing t place with
  | nil =>
    rw [slotsIn_blocks]
    exact List.flatMap_eq_nil_iff.mpr fun e mem => (slotsIn_entry_nil place kept mem).2
  | cons name path ih =>
    have other := fun (e : Key × Item) mem (ne : e.1.name ≠ name) =>
      slotsIn_entry_other place path kept mem ne
    rw [slotsIn_pairs, ne_eq, List.flatMap_eq_nil_iff, not_forall₂] at some
    obtain ⟨e, entry, some⟩ := some
    obtain rfl : e.1.name = name := by
      by_contra ne
      exact some (other e entry ne).1
    rw [slotsIn_blocks, flatMap_of_mem (kept_iff.mp kept).2.1 entry fun e mem ne => (other e mem ne).2]
    rw [inlineRows] at some
    rw [blockRows]
    cases item : e.2 with
    | value v => rfl
    | tables ts =>
      rw [item] at some
      exact absurd rfl some
    | table c =>
      have keeps := (kept.inner entry (by simp [item, Item.inner] : c ∈ e.2.inner)).2
      rw [item, Item.pairs] at some
      cases dotted : c.style.dotted with
      | false => simp [dotted, slotsIn] at some
      | true =>
        rw [dotted, if_pos rfl, rows_of_dotted [] place (List.cons_ne_nil e.1 []) keeps] at some
        have below := ih keeps none fun nothing => some ((slotsIn_under e.1.name path _).trans nothing)
        rw [Item.blocks, rows_blocks, blocks_eq, dotted, if_pos rfl, List.nil_append, slotsIn_under,
          below]

theorem rising_blocks (kept : t.Kept) (isArray : Bool)
    (below : ∀ last, Rising path last (blocksOf [] t.entries)) (last : Nat) :
    Rising path last (t.blocks [] isArray) := by
  rw [blocks_eq]
  cases dotted : t.style.dotted with
  | true => exact below last
  | false =>
    have single : Rising path last [t.own [] isArray] := by
      rw [Rising, numberedBlocks, numberedBlocks, List.filter_cons]
      split <;> simp
    cases own : (t.own [] isArray).feeds path with
    | false => exact rising_none_append (by simpa using own) below last
    | true =>
      have some : slotsIn path (t.own [] isArray).rows ≠ [] := fun none => by
        rw [feeds_eq_false_iff.mpr none] at own
        cases own
      exact single.append_none (feeds_none_iff.mpr (slotsIn_blocks_of_pairs kept _ some))

theorem numbers_of_blocks {last : Nat} (plain : t.style.dotted = false)
    (place : t.style.position.isSome) (isArray : Bool)
    (mem : (n, b) ∈ numberedBlocks last (t.blocks [] isArray)) : t.Holds n := by
  obtain ⟨m, header⟩ := Option.isSome_iff_exists.mp place
  have own : (t.own [] isArray).style.position = some m := header
  rw [blocks_eq, plain, if_neg Bool.false_ne_true, List.singleton_append, numberedBlocks, own] at mem
  rcases List.mem_cons.mp mem with same | later
  · cases same
    exact .own header
  · rcases place_of_numbered later with rfl | ⟨b', below, there⟩
    · exact .own header
    · have inside : b' ∈ t.blocks [] isArray := by
        rw [blocks_eq]
        exact List.mem_append_right _ below
      exact holds_of_mem_blocks inside there

end Table

section

variable {path : List String} {name : String}

theorem rising_tables {ts : List Table} (stack : Stack ts)
    (plain : ∀ c ∈ ts, c.style.dotted = false)
    (each : ∀ c ∈ ts, ∀ last, Rising path last (c.blocks [] true)) (last : Nat) :
    Rising path last (ts.flatMap fun c => c.blocks [] true) ∧
      ∀ e ∈ numberedBlocks last (ts.flatMap fun c => c.blocks [] true), ∃ c ∈ ts, c.Holds e.1 := by
  induction ts generalizing last with
  | nil => exact ⟨rising_of_none (by simp) last, by simp [numberedBlocks]⟩
  | cons c ts ih =>
    obtain ⟨placed, behind⟩ := stack
    obtain ⟨own, plain⟩ := List.forall_mem_cons.mp plain
    obtain ⟨rises, each⟩ := List.forall_mem_cons.mp each
    obtain ⟨header, placed⟩ := List.forall_mem_cons.mp placed
    obtain ⟨first, behind⟩ := List.pairwise_cons.mp behind
    obtain ⟨next, same⟩ := numberedBlocks_append last (c.blocks [] true)
      (ts.flatMap fun c => c.blocks [] true)
    obtain ⟨rest, numbers⟩ := ih ⟨placed, behind⟩ plain each next
    have number : ∀ e ∈ numberedBlocks last (c.blocks [] true), c.Holds e.1 :=
      fun e mem => Table.numbers_of_blocks own header true (b := e.2) mem
    rw [Rising, List.flatMap_cons, same, List.filter_append, List.pairwise_append]
    refine ⟨⟨rises last, rest, fun a mem b mem' => ?_⟩, ?_⟩
    · obtain ⟨c', listed, holds⟩ := numbers b (List.mem_filter.mp mem').1
      exact first c' listed _ (number a (List.mem_filter.mp mem).1) _ holds
    · refine List.forall_mem_append.mpr ⟨fun e mem => ⟨c, List.mem_cons_self, number e mem⟩,
        fun e mem => ?_⟩
      obtain ⟨c', listed, holds⟩ := numbers e mem
      exact ⟨c', List.mem_cons_of_mem _ listed, holds⟩

theorem rising_entries {entries : Entries} (distinct : (entries.map (·.1.name)).Nodup)
    (own : ∀ e ∈ entries, e.1.name = name → ∀ last, Rising (name :: path) last (e.2.blocks [e.1]))
    (others : ∀ e ∈ entries, e.1.name ≠ name → ∀ b ∈ e.2.blocks [e.1], b.feeds (name :: path) = false)
    (last : Nat) : Rising (name :: path) last (blocksOf [] entries) := by
  induction entries generalizing last with
  | nil => exact rising_of_none (by simp [blocksOf]) last
  | cons e rest ih =>
    obtain ⟨fresh, distinct⟩ := List.nodup_cons.mp distinct
    obtain ⟨first, own⟩ := List.forall_mem_cons.mp own
    obtain ⟨other, others⟩ := List.forall_mem_cons.mp others
    rw [blocksOf, List.nil_append]
    by_cases here : e.1.name = name
    · refine (first here last).append_none fun b mem => ?_
      rw [blocksOf_eq] at mem
      obtain ⟨e', listed, mem⟩ := List.mem_flatMap.mp mem
      exact others e' listed (fun same =>
        fresh (List.mem_map.mpr ⟨e', listed, same.trans here.symm⟩)) b mem
    · exact rising_none_append (other here) (ih distinct own others) last

end

theorem Table.rising_blocksOf {t : Table} (kept : t.Kept) (stacked : t.Stacked) (path : List String)
    (last : Nat) : Rising path last (blocksOf [] t.entries) := by
  induction path generalizing t last with
  | nil =>
    refine rising_of_none (feeds_none_iff.mpr ?_) last
    rw [slotsIn_blocks]
    exact List.flatMap_eq_nil_iff.mpr fun e mem => (slotsIn_entry_nil none kept mem).2
  | cons name path ih =>
    refine rising_entries (kept_iff.mp kept).2.1 ?_ (fun e entry ne => ?_) last
    · rintro e entry rfl last
      have each : ∀ c ∈ e.2.inner, ∀ isArray last, Rising path last (c.blocks [] isArray) :=
        fun c below isArray => rising_blocks (kept.inner entry below).2 isArray
          (ih (kept.inner entry below).2 (stacked.inner entry below))
      cases item : e.2 with
      | value v => exact rising_of_none (by simp [Item.blocks]) last
      | table c =>
        rw [Item.blocks, blocks_key]
        exact rising_under e.1 (each c (by simp [item, Item.inner]) false last)
      | tables ts =>
        have own := (kept_iff.mp kept).2.2 e entry
        rw [item] at own
        have rising := rising_tables (stacked.array entry item)
          (fun c mem => (keptAll_iff.mp own.2 c mem).2)
          (fun c mem => each c (by simpa [item, Item.inner] using mem) true) last
        rw [Item.blocks, blocksOfAll_eq, List.flatMap_congr fun c _ => blocks_key e.1 true c,
          ← List.map_flatMap]
        exact rising_under e.1 rising.1
    · exact feeds_none_iff.mpr (slotsIn_entry_other none path kept entry ne).2

/-! ### Documents that are written -/

def Document.rows (d : Document) : List Row :=
  (orderedBlocks (d.root.blocks [] false)).flatMap Block.rows

theorem slotsIn_filter (path : List String) (l : List (Nat × Block)) :
    slotsIn path (((l.filter fun e => e.2.feeds path).map Prod.snd).flatMap Block.rows) =
      slotsIn path ((l.map Prod.snd).flatMap Block.rows) := by
  induction l with
  | nil => rfl
  | cons e rest ih =>
    rw [List.filter_cons, List.map_cons, List.flatMap_cons, slotsIn_append, ← ih]
    cases feeds : e.2.feeds path with
    | true => rw [if_pos rfl, List.map_cons, List.flatMap_cons, slotsIn_append]
    | false => rw [if_neg Bool.false_ne_true, feeds_eq_false_iff.mp feeds, List.nil_append]

theorem Document.slotsIn_rows {d : Document} (kept : d.root.Kept) (stacked : d.root.Stacked)
    (plain : d.root.style.dotted = false) (path : List String) :
    slotsIn path d.rows = d.root.slotsAt path := by
  have rising : Rising path 0 (d.root.blocks [] false) :=
    Table.rising_blocks kept false (Table.rising_blocksOf kept stacked path) 0
  have sorted : ((numberedBlocks 0 (d.root.blocks [] false)).mergeSort
      (fun a b => decide (a.1 ≤ b.1))).filter (fun e => e.2.feeds path) =
      (numberedBlocks 0 (d.root.blocks [] false)).filter (fun e => e.2.feeds path) :=
    (Glob.filter_mergeSort (by simp; omega) (by simp; omega) _ _).trans
      (List.mergeSort_of_pairwise (by simpa [Rising] using rising))
  rw [rows, orderedBlocks, ← slotsIn_filter, sorted, slotsIn_filter, map_numberedBlocks,
    ← Table.slotsIn_listing kept, Table.listing, Table.blocks_eq, plain, if_neg Bool.false_ne_true,
    List.singleton_append, List.flatMap_cons, Table.place, plain]
  rfl

/-! ### Texts that are written -/

def Row.told (r : Row) : List String × Data := (r.key, r.2.value.data)

def valuesOf (facts : List Fact) : List (List String × Data) :=
  facts.filterMap fun f => match f.2 with
    | .value data => some (f.1, data)
    | _ => none

theorem map_told_rowsOf (headers : Nat) (here : List String) (statements : List Statement) :
    (rowsOf headers here statements).map Row.told =
      valuesOf (factsOf here (statements.map Statement.said)) := by
  induction statements generalizing headers here with
  | nil => rfl
  | cons s rest ih =>
    cases s with
    | pair p =>
      rw [rowsOf, List.map_cons, ih]
      simp [Statement.said, factsOf, valuesOf, Pair.row, Row.told, Row.key, names]
    | header isArray path last tail =>
      rw [rowsOf, ih]
      cases isArray <;> simp [Statement.said, factsOf, valuesOf]

theorem Block.Kept.map_told_rows {b : Block} (kept : b.Kept) :
    b.rows.map Row.told = valuesOf b.facts := by
  have header : valuesOf (if b.hasHeader then
      [(names b.path, if b.isArray then Shape.tables else .table)] else []) = [] := by
    cases b.hasHeader <;> cases b.isArray <;> rfl
  rw [valuesOf] at header
  rw [facts, valuesOf, List.filterMap_append, header, List.nil_append, List.filterMap_map, rows,
    List.map_map, ← List.filterMap_eq_map]
  refine List.filterMap_congr fun p mem => ?_
  obtain ⟨front, key, path, _⟩ := kept.pairs p mem
  simp [Row.told, Row.key, pairRow, path, names]

/-- The text of a document, where it is one, has the values of the document, in their order. -/
theorem Document.Kept.map_told_text {d : Document} (kept : d.Kept)
    {statements : List (String × Statement)} {left : String}
    (read : statements? d.text = some (statements, left)) :
    (rowsOf 0 [] (statements.map Prod.snd)).map Row.told = d.rows.map Row.told := by
  obtain ⟨others, order, perm, _⟩ := Table.blocks_root kept.style
  have blocks : ∀ b ∈ orderedBlocks (d.root.blocks [] false), b.Kept := by
    rw [order]
    exact fun b listed => kept.root.blocks (by simp) (perm.mem_iff.mp listed)
  have facts := kept.facts_text read
  rw [map_told_rowsOf, List.map_map]
  refine (congrArg valuesOf facts).trans ?_
  rw [Document.rows, List.map_flatMap, List.flatMap_congr fun b mem => (blocks b mem).map_told_rows,
    valuesOf, List.filterMap_flatMap]
  rfl

end ClassDiagram.Toml
