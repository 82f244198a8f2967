import ClassDiagram.Proofs.Toml.Growth

/-! What stays true of the tree of a document: no name stands twice in a table, every key and every
value rereads, and between the parts there is nothing else than blanks, line ends and comments. It
holds of what is read, and edits keep it. -/

namespace ClassDiagram.Toml

/-- A table without a header of its own has no layout. -/
structure TableStyle.Kept (style : TableStyle) : Prop where
  sides : style.decor.Sides Skipped LineEnd
  bare : style.implicit = true ∨ style.dotted = true → style.decor = .none

mutual

def Item.Kept (key : Key) : Item → Prop
  | .value v => key.Kept ∧ key.leaf.Sides Skipped AllBlank ∧ v.OnLine
  | .table t => key.OfTable ∧ t.Kept
  | .tables ts => key.OfTable ∧ KeptAll ts

def Table.Kept : Table → Prop
  | .mk style entries =>
    style.Kept ∧ (entries.map (·.1.name)).Nodup ∧ KeptEntries entries

def KeptEntries : Entries → Prop
  | [] => True
  | (key, item) :: rest => item.Kept key ∧ KeptEntries rest

def KeptAll : List Table → Prop
  | [] => True
  | t :: ts => (t.Kept ∧ t.style.dotted = false) ∧ KeptAll ts

end

theorem keptEntries_iff {entries : Entries} : KeptEntries entries ↔ ∀ e ∈ entries, e.2.Kept e.1 := by
  induction entries with
  | nil => simp [KeptEntries]
  | cons e rest ih => rw [KeptEntries, ih, List.forall_mem_cons]

theorem keptAll_iff {ts : List Table} :
    KeptAll ts ↔ ∀ t ∈ ts, t.Kept ∧ t.style.dotted = false := by
  induction ts with
  | nil => simp [KeptAll]
  | cons t ts ih => rw [KeptAll, ih, List.forall_mem_cons]

theorem Entries.find?_eq_none_iff {name : String} {entries : Entries} :
    entries.find? name = none ↔ name ∉ entries.map (·.1.name) := by
  induction entries with
  | nil => simp [find?]
  | cons e rest ih =>
    obtain ⟨key, item⟩ := e
    by_cases here : key.name = name
    · simp [find?, here]
    · simp [find?, here, ih, Ne.symm here]

namespace Table

variable {t inner : Table} {key : Key} {name : String} {item old : Item}

theorem kept_iff : t.Kept ↔ t.style.Kept ∧
    (t.entries.map (·.1.name)).Nodup ∧ ∀ e ∈ t.entries, e.2.Kept e.1 := by
  obtain ⟨style, entries⟩ := t
  rw [Kept, keptEntries_iff]
  rfl

theorem kept_nil {style : TableStyle} (none : style.decor = .none) : (mk style []).Kept := by
  refine kept_iff.mpr ⟨⟨?_, fun _ => none⟩, by simp [entries], by simp [entries]⟩
  constructor <;> simp [Table.style, none, Decor.none]

theorem kept_empty (implicit dotted : Bool) : (empty implicit dotted).Kept := kept_nil rfl

namespace Kept

theorem of_find? (kept : t.Kept) (found : t.find? name = some item) :
    ∃ key : Key, key.name = name ∧ item.Kept key := by
  obtain ⟨e, mem, named, same⟩ := Entries.mem_of_find? found
  exact ⟨e.1, named, same ▸ (kept_iff.mp kept).2.2 e mem⟩

theorem child (kept : t.Kept) (here : t.child? name = some inner) : inner.Kept := by
  obtain ⟨_, _, own⟩ := kept.of_find? (child?_eq_some_iff.mp here)
  exact own.2

theorem append (kept : t.Kept) (new : t.find? key.name = none) (own : item.Kept key) :
    (t.append key item).Kept := by
  obtain ⟨style, distinct, all⟩ := kept_iff.mp kept
  refine kept_iff.mpr ⟨style, ?_, List.forall_mem_append.mpr ⟨all, by simpa using own⟩⟩
  have fresh : key.name ∉ t.entries.map (·.1.name) := Entries.find?_eq_none_iff.mp new
  rw [Table.append, mapEntries, entries, List.map_append, List.nodup_append]
  refine ⟨distinct, by simp, ?_⟩
  rintro a mem b last rfl
  rw [List.mem_singleton.mp last] at mem
  exact fresh mem

theorem replace (kept : t.Kept) (found : t.find? name = some old)
    (own : ∀ key : Key, old.Kept key → item.Kept key) : (t.replace name item).Kept := by
  obtain ⟨style, distinct, all⟩ := kept_iff.mp kept
  have names : ((t.entries.replace name item).map (·.1.name)) = t.entries.map (·.1.name) := by
    generalize t.entries = entries
    induction entries with
    | nil => rfl
    | cons e rest ih =>
      obtain ⟨key, first⟩ := e
      by_cases here : key.name = name <;> simp [Entries.replace, here, ih]
  refine kept_iff.mpr ⟨style, names ▸ distinct, ?_⟩
  have found : t.entries.find? name = some old := found
  have changed : ∀ {entries : Entries}, entries.find? name = some old →
      (∀ e ∈ entries, e.2.Kept e.1) → ∀ e ∈ entries.replace name item, e.2.Kept e.1 := by
    intro entries found all
    induction entries with
    | nil => cases found
    | cons e rest ih =>
      obtain ⟨key, first⟩ := e
      obtain ⟨here, all⟩ := List.forall_mem_cons.mp all
      by_cases same : key.name = name
      · simp only [Entries.find?, if_pos same, Option.some.injEq] at found
        rw [Entries.replace, if_pos same]
        exact List.forall_mem_cons.mpr ⟨own key (found ▸ here), all⟩
      · simp only [Entries.find?, if_neg same] at found
        rw [Entries.replace, if_neg same]
        exact List.forall_mem_cons.mpr ⟨here, ih found all⟩
  exact changed found all

theorem replace_table (kept : t.Kept) (found : t.find? name = some (.table inner))
    {inner' : Table} (own : inner'.Kept) : (t.replace name (.table inner')).Kept :=
  kept.replace found fun _ old => ⟨old.1, own⟩

theorem remove (kept : t.Kept) (name : String) : (t.remove name).Kept := by
  obtain ⟨style, distinct, all⟩ := kept_iff.mp kept
  refine kept_iff.mpr ⟨style, distinct.sublist ?_, fun e mem => all e (List.mem_filter.mp mem).1⟩
  exact List.Sublist.map _ List.filter_sublist

end Kept

end Table

/-! ### Documents that are read -/

section

variable {α : Type} {dotted : Bool} {edit : Table → Option (α × Table)} {path : List Key}
  {t t' : Table} {a : α} {P : α → Prop}

theorem Table.Kept.within (keys : ∀ k ∈ path, k.OfTable) (kept : t.Kept)
    (keeps : ∀ {x a y}, x.Kept → edit x = some (a, y) → y.Kept ∧ y.style = x.style ∧ P a)
    (done : t.within dotted edit path = some (a, t')) : t'.Kept ∧ t'.style = t.style ∧ P a := by
  induction path generalizing t t' with
  | nil => exact keeps kept done
  | cons key path ih =>
    obtain ⟨own, keys⟩ := List.forall_mem_cons.mp keys
    cases way_of_within done with
    | missing missing below =>
      obtain ⟨inner, _, passes⟩ := ih keys (kept_empty true dotted) below
      exact ⟨kept.append missing ⟨own, inner⟩, rfl, passes⟩
    | table found _ below =>
      obtain ⟨inner, _, passes⟩ := ih keys (kept.child (child?_eq_some_iff.mpr found)) below
      exact ⟨kept.replace_table found inner, rfl, passes⟩
    | @tables ts last last' found some below =>
      obtain ⟨_, _, _, all⟩ := kept.of_find? found
      have last := List.mem_of_getLast? some
      obtain ⟨own, plain⟩ := keptAll_iff.mp all _ last
      obtain ⟨inner, style, passes⟩ := ih keys own below
      refine ⟨kept.replace found fun key old => ⟨old.1, keptAll_iff.mpr ?_⟩, rfl, passes⟩
      refine List.forall_mem_append.mpr
        ⟨fun t mem => ?_, by simpa using And.intro inner (style.symm ▸ plain)⟩
      exact keptAll_iff.mp old.2 t (List.dropLast_subset _ mem)

theorem Table.Kept.addPair {leading : String} {p : Pair} (kept : t.Kept)
    (skipped : Skipped leading.toList) (keys : ∀ k ∈ p.path ++ [p.key], k.OfTable)
    (value : p.value.OnLine) (done : t.addPair leading p = some t') :
    t'.Kept ∧ t'.style = t.style := by
  obtain ⟨edit, done, gets⟩ := gets_of_addPair done
  obtain ⟨path, key⟩ := List.forall_mem_append.mp keys
  have own := key p.key (List.mem_singleton_self _)
  suffices whole : t'.Kept ∧ t'.style = t.style ∧ True from ⟨whole.1, whole.2.1⟩
  refine Table.Kept.within (P := fun _ => True) path kept (fun kept edited => ?_) done
  obtain ⟨_, missing, rfl⟩ := gets edited
  refine ⟨kept.append missing ⟨⟨own.kept.text, own.kept.dotted⟩, ⟨?_, own.blank.after⟩, value⟩,
    rfl, trivial⟩
  intro text written
  obtain rfl : leading ++ p.key.leaf.before.getD "" = text := Option.some.inj written
  have blank : AllBlank (p.key.leaf.before.getD "").toList := by
    cases before : p.key.leaf.before with
    | none => exact AllBlank.nil
    | some text => exact own.blank.before text before
  rw [String.toList_append]
  exact skipped.append (skip?_of_blank blank)

end

namespace Assembly

variable {key : Key} {t t' parent : Table} {a b : Assembly} {root : Table}

structure Kept (a : Assembly) : Prop where
  root : a.root.Kept
  table : a.current.table.Kept
  plain : a.current.table.style.dotted = false
  path : ∀ k ∈ a.current.path, k.OfTable
  last : ∀ k ∈ a.current.last, k.OfTable

theorem kept_start : start.Kept where
  root := Table.kept_empty false false
  table := Table.kept_nil rfl
  plain := rfl
  path := by simp [start]
  last := by simp [start]

theorem kept_of_taken {decor : Decor} {position : Option Nat} {entries : Entries}
    (sides : decor.Sides Skipped LineEnd) (kept : parent.Kept)
    (taken : Taken key parent entries t') :
    t'.Kept ∧ t'.style = parent.style ∧ (Table.mk ⟨false, false, decor, position⟩ entries).Kept := by
  have style : (⟨false, false, decor, position⟩ : TableStyle).Kept := ⟨sides, by simp⟩
  cases taken with
  | nothing _ =>
    exact ⟨kept, rfl, Table.kept_iff.mpr ⟨style, by simp [Table.entries], by simp [Table.entries]⟩⟩
  | parental found _ _ =>
    have inner := Table.kept_iff.mp (kept.child (Table.child?_eq_some_iff.mpr found))
    exact ⟨kept.remove key.name, rfl, Table.kept_iff.mpr ⟨style, inner.2⟩⟩

theorem kept_of_put {isArray : Bool} (own : key.OfTable) (table : t.Kept ∧ t.style.dotted = false)
    (kept : parent.Kept) (put : Put key t parent isArray t') :
    t'.Kept ∧ t'.style = parent.style := by
  cases put with
  | table missing => exact ⟨kept.append missing ⟨own, table.1⟩, rfl⟩
  | array missing => exact ⟨kept.append missing ⟨own, table, trivial⟩, rfl⟩
  | more found =>
    refine ⟨kept.replace found fun key old => ⟨old.1, keptAll_iff.mpr ?_⟩, rfl⟩
    exact List.forall_mem_append.mpr ⟨keptAll_iff.mp old.2, by simpa using table⟩

theorem Kept.close (kept : a.Kept) (closed : a.close = some root) : root.Kept := by
  cases close_eq_some_iff.mp closed with
  | whole _ _ => exact kept.table
  | @put last _ _ some _ done =>
    refine (Table.Kept.within (P := fun _ => True) kept.path kept.root ?_ done).1
    intro x u y parent put
    obtain ⟨own, style⟩ := kept_of_put (kept.last last some) ⟨kept.table, kept.plain⟩ parent
      (putTable_eq_some_iff.mp put)
    exact ⟨own, style, trivial⟩

theorem Kept.openTable {isArray : Bool} {path : List Key} {last : Key} {decor : Decor}
    {headers : Nat} (kept : root.Kept) (keys : ∀ k ∈ path ++ [last], k.OfTable)
    (sides : decor.Sides Skipped LineEnd)
    (opened : openTable isArray path last decor root headers = some a) : a.Kept := by
  obtain ⟨way, own⟩ := List.forall_mem_append.mp keys
  have own : ∀ k ∈ some last, k.OfTable := by
    rintro k ⟨⟩
    exact own last (List.mem_singleton_self _)
  cases opens_of_openTable opened with
  | array =>
    exact ⟨kept, Table.kept_iff.mpr ⟨⟨sides, by simp [Table.style]⟩, by simp [Table.entries],
      by simp [Table.entries]⟩, rfl, way, own⟩
  | table taken =>
    obtain ⟨rest, _, inner⟩ := Table.Kept.within way kept
      (fun kept taken => kept_of_taken sides kept (taken_of_takeImplicit taken)) taken
    exact ⟨rest, inner, rfl, way, own⟩

theorem Kept.pair {leading : String} {q : Pair} (kept : a.Kept) (skipped : Skipped leading.toList)
    (said : (Statement.pair q).Kept) (added : a.current.table.addPair leading q = some t) :
    Kept { a with current := { a.current with table := t } } := by
  obtain ⟨own, style⟩ := kept.table.addPair skipped said.1 said.2 added
  exact ⟨kept.root, own, (congrArg TableStyle.dotted style).trans kept.plain, kept.path, kept.last⟩

theorem Kept.header {leading tail : String} {isArray : Bool} {path : List Key} {last : Key} {n : Nat}
    (kept : a.Kept) (skipped : Skipped leading.toList)
    (said : (Statement.header isArray path last tail).Kept) (closed : a.close = some root)
    (opened : Assembly.openTable isArray path last (.around leading tail) root n = some b) :
    b.Kept := by
  refine Kept.openTable (kept.close closed) said.1 ?_ opened
  constructor <;> simp [Decor.around, skipped, said.2]

theorem Kept.run {statements : List (String × Statement)} (kept : a.Kept)
    (all : ∀ s ∈ statements, Skipped s.1.toList ∧ s.2.Kept) (run : Run statements a b) :
    b.Kept := by
  induction run with
  | nil => exact kept
  | pair added _ ih =>
    obtain ⟨own, all⟩ := List.forall_mem_cons.mp all
    exact ih (kept.pair own.1 own.2 added) all
  | header closed opened _ ih =>
    obtain ⟨own, all⟩ := List.forall_mem_cons.mp all
    exact ih (kept.header own.1 own.2 closed opened) all

end Assembly

theorem kept_of_parse {text : String} {d : Document} (parsed : Document.parse text = some d) :
    d.root.Kept ∧ ∃ b, skip? false d.trailing.toList = some b := by
  obtain ⟨statements, a, read, run, closed⟩ := Document.run_of_parse parsed
  obtain ⟨all, skips⟩ := kept_of_statements? read
  exact ⟨(Assembly.kept_start.run all run).close closed, skips⟩

end ClassDiagram.Toml
