import ClassDiagram.Proofs.Toml.Looks
import ClassDiagram.Proofs.Toml.Origins
import ClassDiagram.Proofs.Toml.Plain
import Mathlib.Data.Multiset.AddSub

/-! Documents of plain statements: headers without blanks between their brackets, and pairs without
dots in their keys. Such a document holds its headers as they come, each with the lines below it. -/

namespace ClassDiagram.Toml

/-! ### Plain statements -/

section

variable (spelled : String → String)

/-- A key of a header that has no blanks around it, and is spelled as its name is spelled. -/
structure Key.Neat (k : Key) : Prop where
  text : k.text = spelled k.name
  leaf : k.leaf.left .tight = "" ∧ k.leaf.right .tight = ""
  dotted : k.dotted.left .tight = "" ∧ k.dotted.right .tight = ""

def Statement.Neat : Statement → Prop
  | header _ path last _ => ∀ k ∈ path ++ [last], k.Neat spelled
  | pair p => p.path = []

def Table.Valueless (t : Table) : Prop := ∀ e ∈ t.entries, e.2.value? = none

/-- A table that headers have made: it is there only as a parent, or it has a header. -/
inductive Table.Opened : Bool → Table → Prop
  | parent {t : Table} (style : t.style = ⟨true, false, .none, none⟩) (bare : t.Valueless) :
      Opened false t
  | headed {isArray : Bool} {t : Table} {before after : String} {n : Nat}
      (style : t.style = ⟨false, false, .around before after, some n⟩) : Opened isArray t

/-- All tables in a table are made by plain headers. -/
inductive Table.Plain : Table → Prop
  | intro {t : Table} (keys : ∀ e ∈ t.entries, e.2.value? = none → e.1.Neat spelled)
      (tables : ∀ e ∈ t.entries, ∀ c ∈ e.2.inner, c.Opened e.2.isArray)
      (inner : ∀ e ∈ t.entries, ∀ c ∈ e.2.inner, c.Plain) : t.Plain

def Item.Plain (key : Key) (item : Item) : Prop :=
  (item.value? = none → key.Neat spelled) ∧
    ∀ c ∈ item.inner, c.Opened item.isArray ∧ c.Plain spelled

end

section

variable {spelled : String → String} {t t' c inner inner' : Table} {key : Key} {name : String}
  {item old : Item} {e : Key × Item}

namespace Table

theorem plain_iff : t.Plain spelled ↔ ∀ e ∈ t.entries, e.2.Plain spelled e.1 := by
  constructor
  · rintro ⟨keys, tables, inner⟩ e entry
    exact ⟨keys e entry, fun c below => ⟨tables e entry c below, inner e entry c below⟩⟩
  · exact fun all => .intro (fun e entry => (all e entry).1)
      (fun e entry c below => ((all e entry).2 c below).1)
      fun e entry c below => ((all e entry).2 c below).2

theorem plain_bare (style : TableStyle) : (mk style []).Plain spelled :=
  plain_iff.mpr fun _ mem => nomatch mem

theorem Plain.mono (plain : t.Plain spelled) (sub : ∀ e ∈ t'.entries, e ∈ t.entries) :
    t'.Plain spelled :=
  plain_iff.mpr fun e mem => plain_iff.mp plain e (sub e mem)

theorem Plain.append (plain : t.Plain spelled) (own : item.Plain spelled key) :
    (t.append key item).Plain spelled :=
  plain_iff.mpr (List.forall_mem_append.mpr ⟨plain_iff.mp plain, by simpa using own⟩)

theorem Plain.replace (plain : t.Plain spelled) (found : t.find? name = some old)
    (own : ∀ key, old.Plain spelled key → item.Plain spelled key) :
    (t.replace name item).Plain spelled := by
  refine plain_iff.mpr fun e mem => ?_
  rcases Entries.entry_of_replace mem with there | ⟨old', there, found', _, rfl⟩
  · exact plain_iff.mp plain e there
  · obtain rfl : old = old' := Option.some.inj (found.symm.trans found')
    exact own e.1 (plain_iff.mp plain _ there)

theorem Plain.of_find? (plain : t.Plain spelled) (found : t.find? name = some item) :
    ∃ key, item.Plain spelled key := by
  obtain ⟨e, entry, _, rfl⟩ := Entries.mem_of_find? found
  exact ⟨e.1, plain_iff.mp plain e entry⟩

theorem Opened.congr {isArray : Bool} (opened : t.Opened isArray) (style : t'.style = t.style)
    (bare : t.Valueless → t'.Valueless) : t'.Opened isArray := by
  cases opened with
  | parent same none => exact .parent (style.trans same) (bare none)
  | headed same => exact .headed (style.trans same)

theorem Opened.dotted {isArray : Bool} (opened : t.Opened isArray) : t.style.dotted = false := by
  cases opened with
  | parent style => rw [style]
  | headed style => rw [style]

theorem Opened.parental {isArray : Bool} (opened : t.Opened isArray)
    (implicit : t.style.implicit = true) : t.style = ⟨true, false, .none, none⟩ ∧ t.Valueless := by
  cases opened with
  | parent style bare => exact ⟨style, bare⟩
  | headed style =>
    rw [style] at implicit
    cases implicit

theorem Valueless.append (bare : t.Valueless) (none : item.value? = none) :
    (t.append key item).Valueless :=
  List.forall_mem_append.mpr ⟨bare, by simpa using none⟩

theorem Valueless.replace (bare : t.Valueless) (none : item.value? = none) :
    (t.replace name item).Valueless := by
  intro e mem
  rcases Entries.entry_of_replace mem with there | ⟨_, _, _, _, rfl⟩
  · exact bare e there
  · exact none

end Table

namespace Item

theorem plain_table (own : key.Neat spelled) (opened : t.Opened false) (plain : t.Plain spelled) :
    (table t).Plain spelled key :=
  ⟨fun _ => own, by simpa [inner, isArray] using And.intro opened plain⟩

theorem plain_value (v : Value) : (value v).Plain spelled key :=
  ⟨nofun, by simp [inner]⟩

end Item

theorem Table.Plain.within {α : Type} {edit : Table → Option (α × Table)} {path : List Key} {a : α}
    {P : α → Prop} (keys : ∀ k ∈ path, k.Neat spelled) (plain : t.Plain spelled)
    (step : ∀ {x a y}, x.Plain spelled → edit x = some (a, y) →
      y.Plain spelled ∧ y.style = x.style ∧ (x.Valueless → y.Valueless) ∧ P a)
    (done : t.within false edit path = some (a, t')) :
    t'.Plain spelled ∧ t'.style = t.style ∧ (t.Valueless → t'.Valueless) ∧ P a := by
  induction path generalizing t t' with
  | nil => exact step plain done
  | cons key path ih =>
    obtain ⟨own, keys⟩ := List.forall_mem_cons.mp keys
    cases way_of_within done with
    | missing missing below =>
      obtain ⟨inner, style, bare, passes⟩ := ih keys (plain_bare _) below
      have opened : (Table.empty true false).Opened false := .parent rfl fun _ mem => nomatch mem
      refine ⟨plain.append (Item.plain_table own (opened.congr style bare) inner), rfl, ?_, passes⟩
      exact fun bare => bare.append rfl
    | table found _ below =>
      obtain ⟨_, here⟩ := plain.of_find? found
      obtain ⟨_, plain'⟩ := here.2 _ (List.mem_singleton_self _)
      obtain ⟨inner, style, bare, passes⟩ := ih keys plain' below
      refine ⟨plain.replace found fun key old => ?_, rfl, fun bare => bare.replace rfl, passes⟩
      obtain ⟨opened, _⟩ := old.2 _ (List.mem_singleton_self _)
      exact Item.plain_table (old.1 rfl) (opened.congr style bare) inner
    | @tables ts last last' found some below =>
      have mem := List.mem_of_getLast? some
      obtain ⟨_, here⟩ := plain.of_find? found
      obtain ⟨inner, style, bare, passes⟩ := ih keys (here.2 last mem).2 below
      refine ⟨plain.replace found fun key old => ⟨fun _ => ?_, ?_⟩, rfl, fun bare => bare.replace rfl,
        passes⟩
      · exact old.1 rfl
      · have opened := (old.2 last mem).1
        refine List.forall_mem_append.mpr ⟨fun c early => old.2 c (List.dropLast_subset ts early), ?_⟩
        simpa [Item.isArray] using And.intro (opened.congr style bare) inner

end

/-! ### Outlines -/

/-- A header with its number, and the lines below it. -/
structure Outline where
  number : Nat
  isArray : Bool
  path : List String
  decor : Decor
  lines : List String

def Block.outline? (b : Block) : Option Outline :=
  b.style.position.map fun n =>
    ⟨n, b.isArray, names b.path, b.style.decor, b.pairs.map Value.lineText⟩

def outlines (bs : List Block) : Multiset Outline := bs.filterMap Block.outline?

section

variable {t t' inner : Table} {key : Key} {name : String} {item old : Item} {path path' : List Key}
  {isArray : Bool} {bs more : List Block} {lost gained : Multiset Outline}

theorem outlines_append (bs more : List Block) :
    outlines (bs ++ more) = outlines bs + outlines more := by
  rw [outlines, List.filterMap_append, ← Multiset.coe_add]
  rfl

theorem Item.outlines_names (same : names path = names path') (item : Item) :
    outlines (item.blocks path) = outlines (item.blocks path') := by
  have under : ∀ path, outlines (item.blocks path) =
      ((item.blocks []).filterMap fun b => (b.under path).outline? : List Outline) := fun path => by
    have whole := item.blocks_under path []
    rw [List.append_nil] at whole
    rw [whole, outlines, List.filterMap_map]
    rfl
  have alike : ∀ b : Block, (b.under path).outline? = (b.under path').outline? := fun b => by
    simp only [Block.outline?, Block.under, names_append, same]
  rw [under, under, funext alike]

/-- An item whose values do not stand in the table that it is in. -/
def Item.Apart (item : Item) : Prop := ∀ path, item.pairs path = []

theorem Item.apart_table (plain : inner.style.dotted = false) : (table inner).Apart := fun _ => by
  rw [pairs, plain]
  rfl

theorem Item.apart_tables (ts : List Table) : (tables ts).Apart := fun _ => rfl

namespace Table

theorem outlines_eq (plain : t.style.dotted = false) (path : List Key) (isArray : Bool) :
    outlines (t.blocks path isArray) =
      outlines [t.own path isArray] + outlines (blocksOf path t.entries) := by
  rw [blocks_eq, plain, outlines_append]
  rfl

theorem Plain.pairs_eq_nil {spelled : String → String} (plain : t.Plain spelled) (bare : t.Valueless) :
    t.pairs [] = [] := by
  rw [pairs_eq, List.flatMap_eq_nil_iff]
  intro e mem
  have none := bare e mem
  have own := plain_iff.mp plain e mem
  cases item : e.2 with
  | value v =>
    rw [item] at none
    cases none
  | table c =>
    have opened := (own.2 c (by rw [item]; exact List.mem_singleton_self c)).1
    exact Item.apart_table opened.dotted _
  | tables ts => rfl

theorem outlines_append_item (plain : t.style.dotted = false) (apart : item.Apart) (key : Key)
    (path : List Key) (isArray : Bool) : outlines ((t.append key item).blocks path isArray) =
      outlines (t.blocks path isArray) + outlines (item.blocks (path ++ [key])) := by
  have entries : (t.append key item).entries = t.entries ++ [(key, item)] := rfl
  have own : (t.append key item).own path isArray = t.own path isArray := by
    rw [Table.own, Table.own, pairs_eq, pairs_eq, entries, List.flatMap_append, style_append]
    simp [apart [key]]
  rw [outlines_eq (t := t.append key item) plain, outlines_eq plain, own, entries, blocksOf_eq,
    List.flatMap_append, outlines_append, ← blocksOf_eq, add_assoc]
  simp

theorem outlines_replace (plain : t.style.dotted = false) (found : t.find? name = some old)
    (apart : old.Apart) (apart' : item.Apart) (named : key.name = name)
    (change : outlines (item.blocks (path ++ [key])) + lost =
      outlines (old.blocks (path ++ [key])) + gained) :
    outlines ((t.replace name item).blocks path isArray) + lost =
      outlines (t.blocks path isArray) + gained := by
  have entries : (t.replace name item).entries = t.entries.replace name item := rfl
  have changed : ∀ {es : Entries}, es.find? name = some old →
      (es.replace name item).flatMap (fun e => e.2.pairs ([] ++ [e.1])) =
        es.flatMap (fun e => e.2.pairs ([] ++ [e.1])) ∧
      outlines (blocksOf path (es.replace name item)) + lost =
        outlines (blocksOf path es) + gained := by
    intro es found
    induction es with
    | nil => cases found
    | cons e rest ih =>
      obtain ⟨first, old'⟩ := e
      by_cases here : first.name = name
      · simp only [Entries.find?, if_pos here, Option.some.injEq] at found
        have same : names (path ++ [first]) = names (path ++ [key]) := by
          simp [names, here, named]
        rw [Entries.replace, if_pos here, found]
        refine ⟨by simp [apart [first], apart' [first]], ?_⟩
        rw [blocksOf, blocksOf, outlines_append, outlines_append, Item.outlines_names same,
          Item.outlines_names same, add_right_comm, change, add_right_comm]
      · simp only [Entries.find?, if_neg here] at found
        obtain ⟨own, rest'⟩ := ih found
        rw [Entries.replace, if_neg here]
        refine ⟨by rw [List.flatMap_cons, List.flatMap_cons, own], ?_⟩
        rw [blocksOf, blocksOf, outlines_append, outlines_append, add_assoc, rest', add_assoc]
  obtain ⟨own, rest⟩ := changed (show t.entries.find? name = some old from found)
  have own : (t.replace name item).own path isArray = t.own path isArray := by
    rw [Table.own, Table.own, pairs_eq, pairs_eq, entries, own, style_replace]
  rw [outlines_eq (t := t.replace name item) plain, outlines_eq plain, own, entries, add_assoc, rest,
    add_assoc]

theorem outlines_remove (plain : t.style.dotted = false) (kept : t.Kept)
    (found : t.find? key.name = some item) (apart : item.Apart) :
    outlines ((t.remove key.name).blocks path isArray) + outlines (item.blocks (path ++ [key])) =
      outlines (t.blocks path isArray) := by
  have entries : (t.remove key.name).entries = t.entries.remove key.name := rfl
  have changed : ∀ {es : Entries}, (es.map (·.1.name)).Nodup → es.find? key.name = some item →
      (es.remove key.name).flatMap (fun e => e.2.pairs ([] ++ [e.1])) =
        es.flatMap (fun e => e.2.pairs ([] ++ [e.1])) ∧
      outlines (blocksOf path (es.remove key.name)) + outlines (item.blocks (path ++ [key])) =
        outlines (blocksOf path es) := by
    intro es distinct found
    induction es with
    | nil => cases found
    | cons e rest ih =>
      obtain ⟨first, old⟩ := e
      obtain ⟨fresh, distinct⟩ := List.nodup_cons.mp distinct
      by_cases here : first.name = key.name
      · simp only [Entries.find?, if_pos here, Option.some.injEq] at found
        have others : Entries.remove key.name rest = rest := by
          refine List.filter_eq_self.mpr fun e mem => ?_
          have other : e.1.name ≠ key.name := fun same =>
            fresh (List.mem_map.mpr ⟨e, mem, same.trans here.symm⟩)
          simpa using other
        have gone : Entries.remove key.name ((first, old) :: rest) = rest := by
          rw [← others]
          simp [Entries.remove, here]
        have same : names (path ++ [first]) = names (path ++ [key]) := by simp [names, here]
        rw [gone, found]
        refine ⟨by simp [apart [first]], ?_⟩
        rw [blocksOf, outlines_append, Item.outlines_names same, add_comm]
      · simp only [Entries.find?, if_neg here] at found
        obtain ⟨own, rest'⟩ := ih distinct found
        have stays : Entries.remove key.name ((first, old) :: rest) =
            (first, old) :: Entries.remove key.name rest := by
          simp [Entries.remove, here]
        rw [stays]
        refine ⟨by rw [List.flatMap_cons, List.flatMap_cons, own], ?_⟩
        rw [blocksOf, blocksOf, outlines_append, outlines_append, add_assoc, rest']
  obtain ⟨own, rest⟩ := changed (kept_iff.mp kept).2.1 found
  have own : (t.remove key.name).own path isArray = t.own path isArray := by
    rw [Table.own, Table.own, pairs_eq, pairs_eq, entries, own]
    rfl
  rw [outlines_eq (t := t.remove key.name) plain, outlines_eq plain, own, entries, add_assoc, rest]

theorem outlines_empty (path : List Key) (isArray : Bool) :
    outlines ((empty true false).blocks path isArray) = 0 := rfl

/-- What an edit loses and gains at the end of a path of tables, the whole tree loses and gains. -/
theorem outlines_within {spelled : String → String} {α : Type} {edit : Table → Option (α × Table)}
    {a : α} (front : List Key) (kept : t.Kept) (made : t.Plain spelled) (plain : t.style.dotted = false)
    (change : ∀ x y, x.Kept → x.Plain spelled → x.style.dotted = false → edit x = some (a, y) →
      y.style.dotted = false ∧ ∀ isArray, outlines (y.blocks (front ++ path) isArray) + lost =
        outlines (x.blocks (front ++ path) isArray) + gained)
    (done : t.within false edit path = some (a, t')) : t'.style.dotted = false ∧
      ∀ isArray, outlines (t'.blocks front isArray) + lost =
        outlines (t.blocks front isArray) + gained := by
  induction path generalizing t t' front with
  | nil =>
    rw [List.append_nil] at change
    exact change t t' kept made plain done
  | cons key path ih =>
    rw [← List.singleton_append, ← List.append_assoc] at change
    cases way_of_within done with
    | missing missing below =>
      obtain ⟨own, inner⟩ := ih (front ++ [key]) (kept_empty true false) (plain_bare _) rfl change below
      have inner := inner false
      rw [outlines_empty, zero_add] at inner
      refine ⟨plain, fun isArray => ?_⟩
      rw [outlines_append_item plain (Item.apart_table own), add_assoc]
      exact congrArg _ inner
    | table found _ below =>
      obtain ⟨_, here⟩ := made.of_find? found
      obtain ⟨opened, made'⟩ := here.2 _ (List.mem_singleton_self _)
      have kept' := kept.child (child?_eq_some_iff.mpr found)
      obtain ⟨own, inner⟩ := ih (front ++ [key]) kept' made' opened.dotted change below
      exact ⟨plain, fun isArray => outlines_replace plain found (Item.apart_table opened.dotted)
        (Item.apart_table own) rfl (inner false)⟩
    | @tables ts last last' found some below =>
      obtain ⟨_, _, _, all⟩ := kept.of_find? found
      have mem := List.mem_of_getLast? some
      obtain ⟨_, here⟩ := made.of_find? found
      obtain ⟨opened, made'⟩ := here.2 last mem
      obtain ⟨own, inner⟩ :=
        ih (front ++ [key]) (keptAll_iff.mp all _ mem).1 made' opened.dotted change below
      have whole : ts = ts.dropLast ++ [last] :=
        (List.dropLast_append_getLast? last some).symm
      refine ⟨plain, fun isArray => outlines_replace plain found (Item.apart_tables _)
        (Item.apart_tables _) rfl ?_⟩
      rw [Item.blocks, Item.blocks]
      conv => rhs; rw [whole]
      rw [blocksOfAll_eq, blocksOfAll_eq, List.flatMap_append, List.flatMap_append, outlines_append,
        outlines_append, add_assoc, add_assoc]
      simpa using inner true

end Table

end

/-! ### Documents that are read -/

/-- The outlines of statements, where `current` is that of the last header. -/
def outlinesFrom (current : Outline) : List (String × Statement) → List Outline
  | [] => [current]
  | (leading, .header isArray path last tail) :: rest => current ::
    outlinesFrom ⟨current.number + 1, isArray, names (path ++ [last]), .around leading tail, []⟩ rest
  | (leading, .pair q) :: rest => outlinesFrom
    { current with lines := current.lines ++ [Value.lineText ([q.placed leading], q.value)] } rest

namespace Assembly

variable {spelled : String → String} {key : Key} {t t' parent root : Table} {a b : Assembly}
  {p : List Key}

def keys (a : Assembly) : List Key := a.current.path ++ a.current.last.toList

def outline (a : Assembly) : Outline :=
  ⟨a.headers, a.current.isArray, names a.keys, a.current.table.style.decor,
    (a.current.table.pairs []).map Value.lineText⟩

def outlines (a : Assembly) : Multiset Outline :=
  Toml.outlines (a.root.blocks [] false) +
    Toml.outlines (a.current.table.blocks a.keys a.current.isArray)

/-- What a document of plain statements is while it is read. -/
structure Plain (spelled : String → String) (a : Assembly) : Prop where
  kept : a.Kept
  root : a.root.Plain spelled
  plain : a.root.style.dotted = false
  keys : ∀ k ∈ a.keys, k.Neat spelled
  table : a.current.table.Plain spelled
  number : a.current.table.style.position = some a.headers
  /-- Before the first header the table of the whole document takes pairs. -/
  start : a.current.last = none → a.current.path = [] ∧ a.current.isArray = false ∧
    a.root = .empty false false ∧ a.current.table.style = ⟨false, false, .none, some 0⟩
  header : ∀ key, a.current.last = some key →
    a.root.style = ⟨false, false, .none, some 0⟩ ∧ ∃ before after,
      a.current.table.style = ⟨false, false, .around before after, some a.headers⟩

theorem plain_start : start.Plain spelled where
  kept := kept_start
  root := Table.plain_bare _
  plain := rfl
  keys := by simp [Assembly.keys, start]
  table := Table.plain_bare _
  number := rfl
  start := fun _ => ⟨rfl, rfl, rfl, rfl⟩
  header := nofun

theorem Plain.outlines (plain : a.Plain spelled) : a.outlines = Toml.outlines (a.root.blocks [] false) +
    ({a.outline} + Toml.outlines (blocksOf a.keys a.current.table.entries)) := by
  have own : Toml.outlines [a.current.table.own a.keys a.current.isArray] = {a.outline} := by
    simp [Toml.outlines, Block.outline?, Table.own, plain.number, outline]
  rw [Assembly.outlines, Table.outlines_eq plain.kept.plain, own]

/-! #### Pairs -/

theorem addPair_plain {leading : String} {q : Pair} (path : q.path = [])
    (added : t.addPair leading q = some t') :
    t' = t.append (q.placed leading) (.value q.value) := by
  obtain ⟨edit, done, gets⟩ := Table.gets_of_addPair added
  rw [path] at done
  exact (gets done).value

theorem outlines_pair {leading : String} {q : Pair} (plain : a.Plain spelled) (path : q.path = [])
    (skipped : Skipped leading.toList) (said : (Statement.pair q).Kept)
    (added : a.current.table.addPair leading q = some t)
    (same : b = { a with current := { a.current with table := t } }) : b.Plain spelled ∧
      b.outline = { a.outline with
        lines := a.outline.lines ++ [Value.lineText ([q.placed leading], q.value)] } ∧
      b.outlines + {a.outline} = a.outlines + {b.outline} := by
  have kept := plain.kept.pair skipped said added
  obtain rfl := same
  obtain rfl := addPair_plain path added
  have plain' : Plain spelled { a with current := { a.current with
      table := a.current.table.append (q.placed leading) (.value q.value) } } :=
    ⟨kept, plain.root, plain.plain, plain.keys, plain.table.append (Item.plain_value _), plain.number,
      plain.start, plain.header⟩
  refine ⟨plain', ?_, ?_⟩
  · have entries : (a.current.table.append (q.placed leading) (.value q.value)).entries =
        a.current.table.entries ++ [(q.placed leading, .value q.value)] := rfl
    have lines : (a.current.table.append (q.placed leading) (.value q.value)).pairs [] =
        a.current.table.pairs [] ++ [([q.placed leading], q.value)] := by
      rw [Table.pairs_eq, Table.pairs_eq, entries, List.flatMap_append]
      simp [Item.pairs, Value.leaves_of_leaf said.2.rereads.leaf]
    simp only [outline, lines, List.map_append, List.map_cons, List.map_nil]
    rfl
  · have tables : blocksOf a.keys (a.current.table.append (q.placed leading) (.value q.value)).entries =
        blocksOf a.keys a.current.table.entries := by
      rw [blocksOf_eq, blocksOf_eq]
      simp [Table.append, Table.mapEntries, Table.entries, Item.blocks]
    rw [plain.outlines, plain'.outlines]
    change _ + (_ + Toml.outlines (blocksOf a.keys
      (a.current.table.append (q.placed leading) (.value q.value)).entries)) + _ = _
    rw [tables]
    ac_rfl

/-! #### Headers -/

theorem plain_of_put {isArray : Bool} (own : key.Neat spelled) (opened : t.Opened isArray)
    (plain : t.Plain spelled) (above : parent.Plain spelled) (put : Put key t parent isArray t') :
    t'.Plain spelled ∧ t'.style = parent.style ∧ (parent.Valueless → t'.Valueless) := by
  cases put with
  | table _ =>
    exact ⟨above.append (Item.plain_table own opened plain), rfl, fun bare => bare.append rfl⟩
  | array _ =>
    refine ⟨above.append ⟨fun _ => own, ?_⟩, rfl, fun bare => bare.append rfl⟩
    simpa [Item.inner, Item.isArray] using And.intro opened plain
  | more found =>
    refine ⟨above.replace found fun key' old => ⟨fun _ => ?_, ?_⟩, rfl, fun bare => bare.replace rfl⟩
    · exact old.1 rfl
    · exact List.forall_mem_append.mpr ⟨old.2, by simpa [Item.isArray] using And.intro opened plain⟩

theorem outlines_of_put {isArray : Bool} (own : t.style.dotted = false)
    (above : parent.style.dotted = false) (put : Put key t parent isArray t')
    (path : List Key) (isArray' : Bool) : Toml.outlines (t'.blocks path isArray') + 0 =
      Toml.outlines (parent.blocks path isArray') +
        Toml.outlines (t.blocks (path ++ [key]) isArray) := by
  cases put with
  | table _ =>
    rw [Table.outlines_append_item above (Item.apart_table own), add_zero]
    rfl
  | array _ =>
    rw [Table.outlines_append_item above (Item.apart_tables _), add_zero, Item.blocks, blocksOfAll,
      blocksOfAll, List.append_nil]
  | more found =>
    refine Table.outlines_replace above found (Item.apart_tables _) (Item.apart_tables _) rfl ?_
    rw [Item.blocks, Item.blocks, blocksOfAll_eq, blocksOfAll_eq, List.flatMap_append, outlines_append,
      add_zero]
    simp

theorem Plain.close (plain : a.Plain spelled) (closed : a.close = some root) :
    root.Kept ∧ root.Plain spelled ∧ root.style = ⟨false, false, .none, some 0⟩ ∧
      Toml.outlines (root.blocks [] false) = a.outlines := by
  have kept := plain.kept.close closed
  cases close_eq_some_iff.mp closed with
  | whole last _ =>
    obtain ⟨path, isArray, empty, style⟩ := plain.start last
    refine ⟨kept, plain.table, style, ?_⟩
    rw [Assembly.outlines, Assembly.keys, path, last, isArray, empty]
    exact (zero_add _).symm
  | @put key _ _ last _ done =>
    obtain ⟨rootStyle, before, after, style⟩ := plain.header key last
    have own : key.Neat spelled := plain.keys key
      (List.mem_append_right _ (by rw [last]; exact List.mem_singleton_self key))
    have way : ∀ k ∈ a.current.path, k.Neat spelled :=
      fun k mem => plain.keys k (List.mem_append_left _ mem)
    have placed : ∀ {x u y}, x.Plain spelled →
        putTable a.current.isArray key a.current.table x = some (u, y) → y.Plain spelled ∧
          y.style = x.style ∧ (x.Valueless → y.Valueless) := fun above put =>
      plain_of_put own (.headed style) plain.table above (putTable_eq_some_iff.mp put)
    obtain ⟨made, same, _⟩ := Table.Plain.within (P := fun _ => True) way plain.root
      (fun above put => by
        obtain ⟨made, same, bare⟩ := placed above put
        exact ⟨made, same, bare, trivial⟩) done
    obtain ⟨_, whole⟩ := Table.outlines_within [] plain.kept.root plain.root plain.plain
      (fun x y _ made above put => ⟨(congrArg TableStyle.dotted (placed made put).2.1).trans above,
        outlines_of_put plain.kept.plain above (putTable_eq_some_iff.mp put) _⟩) done
    refine ⟨kept, made, same.trans rootStyle, ?_⟩
    have whole := whole false
    rw [add_zero] at whole
    rw [whole, Assembly.outlines, Assembly.keys, last]
    rfl

theorem plain_of_taken {entries : Entries} (above : parent.Plain spelled)
    (taken : Taken key parent entries t') :
    t'.Plain spelled ∧ t'.style = parent.style ∧ (parent.Valueless → t'.Valueless) ∧
      ∀ style, (Table.mk style entries).Plain spelled ∧ (Table.mk style entries).Valueless := by
  cases taken with
  | nothing _ =>
    exact ⟨above, rfl, id, fun style => ⟨Table.plain_bare style, fun _ mem => nomatch mem⟩⟩
  | @parental t found implicit _ =>
    obtain ⟨_, here⟩ := above.of_find? found
    obtain ⟨opened, made⟩ := here.2 t (List.mem_singleton_self t)
    have sub : ∀ e ∈ (parent.remove key.name).entries, e ∈ parent.entries :=
      fun e mem => (List.mem_filter.mp mem).1
    exact ⟨above.mono sub, rfl, fun bare e mem => bare e (sub e mem), fun style =>
      ⟨made.mono fun _ => id, (opened.parental implicit).2⟩⟩

theorem outlines_of_taken {entries : Entries} (kept : parent.Kept) (made : parent.Plain spelled)
    (above : parent.style.dotted = false) (taken : Taken key parent entries t')
    (path : List Key) (isArray : Bool) : Toml.outlines (t'.blocks path isArray) +
      Toml.outlines (blocksOf (path ++ [key]) entries) =
        Toml.outlines (parent.blocks path isArray) + 0 := by
  cases taken with
  | nothing _ => rfl
  | @parental t found implicit plain =>
    obtain ⟨_, here⟩ := made.of_find? found
    obtain ⟨opened, _⟩ := here.2 t (List.mem_singleton_self t)
    have none : Toml.outlines [t.own (path ++ [key]) false] = 0 := by
      rw [Toml.outlines]
      simp [Block.outline?, Table.own, (opened.parental implicit).1]
    have inner : Toml.outlines ((Item.table t).blocks (path ++ [key])) =
        Toml.outlines (blocksOf (path ++ [key]) t.entries) := by
      rw [Item.blocks, Table.outlines_eq plain, none, zero_add]
    rw [← inner, Table.outlines_remove above kept found (Item.apart_table plain), add_zero]

theorem Plain.openTable {isArray : Bool} {path : List Key} {last : Key} {leading tail : String}
    {n : Nat} (kept : root.Kept) (made : root.Plain spelled)
    (style : root.style = ⟨false, false, .none, some 0⟩) (neat : ∀ k ∈ path ++ [last], k.Neat spelled)
    (kept' : a.Kept) (opened : openTable isArray path last (.around leading tail) root n = some a) :
    a.Plain spelled ∧ a.outline = ⟨n, isArray, names (path ++ [last]), .around leading tail, []⟩ ∧
      a.outlines = Toml.outlines (root.blocks [] false) + {a.outline} := by
  have plain : root.style.dotted = false := by rw [style]
  cases opens_of_openTable opened with
  | array =>
    have made' : Plain spelled _ := ⟨kept', made, plain, neat, Table.plain_bare _, rfl, nofun,
      fun _ _ => ⟨style, leading, tail, rfl⟩⟩
    refine ⟨made', rfl, ?_⟩
    rw [made'.outlines]
    exact congrArg _ (add_zero _)
  | @table entries rest taken =>
    have way : ∀ k ∈ path, k.Neat spelled := fun k mem => neat k (List.mem_append_left _ mem)
    have took : ∀ {x entries y}, x.Plain spelled → takeImplicit last x = some (entries, y) → _ :=
      fun made taken => plain_of_taken made (taken_of_takeImplicit taken)
    obtain ⟨made', same, _, inner⟩ := made.within (P := fun entries => ∀ style,
      (Table.mk style entries).Plain spelled ∧ (Table.mk style entries).Valueless) way took taken
    obtain ⟨_, whole⟩ := Table.outlines_within [] kept made plain
      (fun x y kept made above taken => ⟨
        (congrArg TableStyle.dotted (took made taken).2.1).trans above,
        outlines_of_taken kept made above (taken_of_takeImplicit taken) _⟩) taken
    have made' : Plain spelled _ := ⟨kept', made', (congrArg TableStyle.dotted same).trans plain, neat,
      (inner _).1, rfl, nofun, fun _ _ => ⟨same.trans style, leading, tail, rfl⟩⟩
    have bare : (Table.mk ⟨false, false, .around leading tail, some n⟩ entries).pairs [] = [] :=
      (inner _).1.pairs_eq_nil (inner _).2
    refine ⟨made', ?_, ?_⟩
    · rw [outline]
      dsimp only
      rw [bare]
      rfl
    · have whole := whole false
      rw [add_zero] at whole
      rw [made'.outlines, ← whole, add_assoc, add_comm {_}]
      rfl

theorem outlines_run {statements : List (String × Statement)} (plain : a.Plain spelled)
    (neat : ∀ s ∈ statements, s.2.Neat spelled)
    (all : ∀ s ∈ statements, Skipped s.1.toList ∧ s.2.Kept)
    (run : Run statements a b) : b.Plain spelled ∧
      b.outlines + {a.outline} = a.outlines + (outlinesFrom a.outline statements : List Outline) := by
  induction run with
  | nil => exact ⟨plain, rfl⟩
  | @pair leading q statements a b table added _ ih =>
    obtain ⟨own, others⟩ := List.forall_mem_cons.mp neat
    obtain ⟨⟨skipped, said⟩, later'⟩ := List.forall_mem_cons.mp all
    obtain ⟨next, same⟩ : ∃ next : Assembly,
        next = { a with current := { a.current with table := table } } := ⟨_, rfl⟩
    rw [← same] at ih
    obtain ⟨plain', outline, first⟩ := outlines_pair plain own skipped said added same
    obtain ⟨made, later⟩ := ih plain' others later'
    refine ⟨made, ?_⟩
    rw [outlinesFrom, ← outline]
    refine add_right_cancel (b := {next.outline}) ?_
    rw [add_right_comm, later, add_right_comm, first, add_right_comm]
  | @header leading tail isArray path last statements a next b root closed opened _ ih =>
    obtain ⟨own, others⟩ := List.forall_mem_cons.mp neat
    obtain ⟨⟨skipped, said⟩, later'⟩ := List.forall_mem_cons.mp all
    obtain ⟨kept, made, style, whole⟩ := plain.close closed
    obtain ⟨plain', outline, first⟩ := Plain.openTable kept made style own
      (plain.kept.header skipped said closed opened) opened
    obtain ⟨made, later⟩ := ih plain' others later'
    refine ⟨made, ?_⟩
    have rest : outlinesFrom a.outline ((leading, .header isArray path last tail) :: statements) =
        a.outline :: outlinesFrom next.outline statements := by
      rw [outline]
      rfl
    refine add_right_cancel (b := {next.outline}) ?_
    rw [add_right_comm, later, first, whole, rest, ← Multiset.cons_coe, ← Multiset.singleton_add]
    ac_rfl

end Assembly

end ClassDiagram.Toml
