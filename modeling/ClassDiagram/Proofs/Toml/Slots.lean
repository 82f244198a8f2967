import ClassDiagram.Proofs.Toml.Blocks

/-! The values of a document, table by table, and the values that statements give: each value with
its name and the number of the header that it stands under. -/

namespace ClassDiagram.Toml

/-- A value of a table, with the number of the header that the table has. -/
structure Slot where
  place : Option Nat
  name : String
  value : Value

/-! ### The values of a table -/

def Item.value? : Item → Option Value
  | .value v => some v
  | _ => none

theorem Item.value?_of_inner {item : Item} {c : Table} (below : c ∈ item.inner) :
    item.value? = none := by
  cases item with
  | value v => cases below
  | table t => rfl
  | tables ts => rfl

namespace Table

variable {t inner : Table} {name : String} {item item' : Item} {ts : List Table}

/-- The number of a table's header; none where the table comes from a dotted key. -/
def place (t : Table) : Option Nat := if t.style.dotted then none else t.style.position

def slots (t : Table) : List Slot :=
  t.entries.filterMap fun e => e.2.value?.map (Slot.mk t.place e.1.name)

/-- The values of the table under a path; of an array of tables those of one table after the
other. -/
def slotsAt : List String → Table → List Slot
  | [], t => t.slots
  | name :: path, t =>
    match t.find? name with
    | some (.table inner) => inner.slotsAt path
    | some (.tables ts) => ts.flatMap (slotsAt path)
    | _ => []

theorem slotsAt_congr (same : t.find? name = inner.find? name) (path : List String) :
    t.slotsAt (name :: path) = inner.slotsAt (name :: path) := by
  rw [slotsAt, slotsAt, same]

theorem slotsAt_of_table (found : t.find? name = some (.table inner)) (path : List String) :
    t.slotsAt (name :: path) = inner.slotsAt path := by
  rw [slotsAt, found]

theorem slotsAt_of_tables (found : t.find? name = some (.tables ts)) (path : List String) :
    t.slotsAt (name :: path) = ts.flatMap (slotsAt path) := by
  rw [slotsAt, found]

theorem slotsAt_of_none (missing : t.find? name = none) (path : List String) :
    t.slotsAt (name :: path) = [] := by
  rw [slotsAt, missing]

theorem slotsAt_bare (style : TableStyle) (path : List String) :
    (mk style []).slotsAt path = [] := by
  cases path <;> rfl

theorem slots_append (t : Table) (key : Key) (item : Item) :
    (t.append key item).slots =
      t.slots ++ (item.value?.map (Slot.mk t.place key.name)).toList := by
  have entries : (t.append key item).entries = t.entries ++ [(key, item)] := rfl
  have place : (t.append key item).place = t.place := rfl
  rw [slots, entries, List.filterMap_append, place]
  cases item <;> rfl

theorem slots_replace (old : t.find? name = some item) (none : item.value? = .none)
    (none' : item'.value? = .none) : (t.replace name item').slots = t.slots := by
  have entries : (t.replace name item').entries = t.entries.replace name item' := rfl
  have place : (t.replace name item').place = t.place := rfl
  have old : t.entries.find? name = some item := old
  rw [slots, slots, entries, place]
  generalize t.entries = entries at old
  induction entries with
  | nil => rfl
  | cons e rest ih =>
    obtain ⟨key, first⟩ := e
    by_cases here : key.name = name
    · simp only [Entries.find?, if_pos here, Option.some.injEq] at old
      simp [Entries.replace, here, old, none, none']
    · simp only [Entries.find?, if_neg here] at old
      simp only [Entries.replace, if_neg here, List.filterMap_cons, ih old]

theorem slots_remove (distinct : (t.entries.map (·.1.name)).Nodup)
    (found : t.find? name = some item) (none : item.value? = .none) :
    (t.remove name).slots = t.slots := by
  have place : (t.remove name).place = t.place := rfl
  have entries : (t.remove name).entries =
      t.entries.filter fun e => decide (e.1.name ≠ name) := rfl
  rw [slots, slots, entries, place, List.filterMap_filter]
  refine List.filterMap_congr fun e mem => ?_
  by_cases here : e.1.name = name
  · obtain rfl : item = e.2 := by
      have same := Entries.find?_of_mem distinct mem
      rw [here] at same
      exact Option.some.inj (found.symm.trans same)
    simp [here, none]
  · simp [here]

end Table

/-! ### The values that statements give -/

abbrev Row := List String × Slot

namespace Row

def under (path : List String) (r : Row) : Row := (path ++ r.1, r.2)

def slot? (path : List String) (r : Row) : Option Slot := if r.1 = path then some r.2 else none

def key (r : Row) : List String := r.1 ++ [r.2.name]

end Row

def slotsIn (path : List String) (rows : List Row) : List Slot := rows.filterMap (Row.slot? path)

/-- The value of a pair below a header. Only a key without dots stands right under the header. -/
def Pair.row (headers : Nat) (here : List String) (p : Pair) : Row :=
  (here ++ names p.path, ⟨if p.path = [] then some headers else none, p.key.name, p.value⟩)

/-- The values of statements, where `here` is the path of the last header, and `headers` its
number. -/
def rowsOf (headers : Nat) (here : List String) : List Statement → List Row
  | [] => []
  | .header _ path last _ :: rest => rowsOf (headers + 1) (names (path ++ [last])) rest
  | .pair p :: rest => p.row headers here :: rowsOf headers here rest

section

variable {name other : String} {path : List String} {rows more : List Row}

theorem slotsIn_append (path : List String) (rows more : List Row) :
    slotsIn path (rows ++ more) = slotsIn path rows ++ slotsIn path more :=
  List.filterMap_append

theorem slotsIn_under_nil (name : String) (rows : List Row) :
    slotsIn [] (rows.map (Row.under [name])) = [] := by
  simp [slotsIn, Row.slot?, Row.under]

theorem slotsIn_under (name : String) (path : List String) (rows : List Row) :
    slotsIn (name :: path) (rows.map (Row.under [name])) = slotsIn path rows := by
  rw [slotsIn, slotsIn, List.filterMap_map]
  exact List.filterMap_congr fun r _ => by simp [Row.slot?, Row.under]

theorem slotsIn_under_other (ne : other ≠ name) (path : List String) (rows : List Row) :
    slotsIn (other :: path) (rows.map (Row.under [name])) = [] := by
  simp [slotsIn, Row.slot?, Row.under, Ne.symm ne]

end

end ClassDiagram.Toml
