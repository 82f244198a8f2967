import ClassDiagram.Proofs.BuildDocument.Tables
import ClassDiagram.Toml.Data

/-! What stands at each path of a document: a value with its data, a table, or an array of tables.
Order, spelling and layout are not told, and neither is what an array of tables holds. Two tables
with the same shapes are the same to all readers that look for tables and values by their names. -/

namespace ClassDiagram.Toml

theorem lookup_dataOf (name : String) (entries : Entries) :
    (dataOf entries).lookup name = (entries.find? name).map Item.data := by
  induction entries with
  | nil => rfl
  | cons e rest ih =>
    obtain ⟨key, item⟩ := e
    by_cases here : key.name = name
    · simp [dataOf, Entries.find?, here]
    · have other : (name == key.name) = false := by simpa using Ne.symm here
      simp [dataOf, List.lookup_cons, Entries.find?, here, other, ih]

theorem Table.data_eq (t : Table) : t.data = .record (dataOf t.entries) := by
  cases t
  rfl

/-- Only a value is read as a text or as a switch, whatever it is taken for. -/
theorem Item.scalar_data (item : Item) :
    item.data.text? = item.text? ∧ item.data.bool? = item.bool? := by
  cases item with
  | value v =>
    cases v with
    | scalar content _ _ => cases content <;> exact ⟨rfl, rfl⟩
    | _ => exact ⟨rfl, rfl⟩
  | table t =>
    rw [Item.data, t.data_eq]
    exact ⟨rfl, rfl⟩
  | tables ts => exact ⟨rfl, rfl⟩

theorem Table.fields?_data (t : Table) (names : List String) (required : Nat) :
    t.data.fields? names required = some (names.map fun name => (t.find? name).map Item.data) := by
  rw [t.data_eq, Data.fields?]
  simp [lookup_dataOf, Table.find?]

inductive Shape where
  | value (data : Data)
  | table
  | tables

namespace Table

def shapeAt : List String → Table → Option Shape
  | [], _ => some .table
  | name :: path, t =>
    match t.find? name with
    | none => none
    | some (.table child) => child.shapeAt path
    | some (.value v) => if path.isEmpty then some (.value v.data) else none
    | some (.tables _) => if path.isEmpty then some .tables else none

end Table

def Item.shapeAt (path : List String) : Item → Option Shape
  | .table t => t.shapeAt path
  | .value v => if path.isEmpty then some (.value v.data) else none
  | .tables _ => if path.isEmpty then some .tables else none

namespace Table

section

variable {t t' child : Table} {name : String} {path : List String} {shape : Shape}

@[simp] theorem shapeAt_nil (t : Table) : t.shapeAt [] = some .table := rfl

theorem shapeAt_cons (name : String) (path : List String) (t : Table) :
    t.shapeAt (name :: path) = (t.find? name).bind (Item.shapeAt path) := by
  rw [shapeAt]
  cases t.find? name with
  | none => rfl
  | some item => cases item <;> rfl

theorem shapeAt_of_child? (here : t.child? name = some child) (path : List String) :
    t.shapeAt (name :: path) = child.shapeAt path := by
  rw [shapeAt_cons, child?_eq_some_iff.mp here]
  rfl

theorem find?_eq_none_iff : t.find? name = none ↔ t.shapeAt [name] = none := by
  rw [shapeAt_cons]
  cases t.find? name with
  | none => exact iff_of_true rfl rfl
  | some item => cases item <;> simp [Item.shapeAt]

end

def Alike (t t' : Table) : Prop := ∀ path, t'.shapeAt path = t.shapeAt path

end Table

/-- What two tables with the same shapes have under one name. -/
inductive Item.Alike : Option Item → Option Item → Prop where
  | missing : Alike none none
  | value {v v' : Value} (same : v'.data = v.data) : Alike (some (.value v)) (some (.value v'))
  | table {t t' : Table} (same : t.Alike t') : Alike (some (.table t)) (some (.table t'))
  | tables (ts ts' : List Table) : Alike (some (.tables ts)) (some (.tables ts'))

theorem Item.alike_of_shapeAt {here there : Option Item}
    (below : ∀ path, there.bind (Item.shapeAt path) = here.bind (Item.shapeAt path)) :
    Alike here there := by
  have root := below []
  match here, there with
  | none, none => exact .missing
  | some (.value _), some (.value _) => exact .value (by simpa [Item.shapeAt] using root)
  | some (.table _), some (.table _) => exact .table below
  | some (.tables ts), some (.tables ts') => exact .tables ts ts'
  | none, some item => cases item <;> cases root
  | some item, none => cases item <;> cases root
  | some (.value _), some (.table _) | some (.value _), some (.tables _)
  | some (.table _), some (.value _) | some (.table _), some (.tables _)
  | some (.tables _), some (.value _) | some (.tables _), some (.table _) => cases root

namespace Table.Alike

variable {t t' : Table}

theorem find? (same : t.Alike t') (name : String) : Item.Alike (t.find? name) (t'.find? name) := by
  refine Item.alike_of_shapeAt fun path => ?_
  rw [← shapeAt_cons, ← shapeAt_cons]
  exact same (name :: path)

end Table.Alike

namespace Item.Alike

variable {t t' child : Table} {name : String}

theorem child? (same : Item.Alike (t.find? name) (t'.find? name))
    (here : t.child? name = some child) :
    ∃ child', t'.child? name = some child' ∧ child.Alike child' := by
  rw [Table.child?_eq_some_iff.mp here] at same
  generalize found : t'.find? name = found' at same
  cases same with
  | table alike => exact ⟨_, Table.child?_eq_some_iff.mpr found, alike⟩

theorem child?_eq_none (same : Item.Alike (t.find? name) (t'.find? name))
    (none : t.child? name = none) : t'.child? name = Option.none := by
  rw [Table.child?] at none ⊢
  generalize t.find? name = found at same none
  generalize t'.find? name = found' at same
  cases same with
  | missing => rfl
  | value _ => rfl
  | table _ => cases none
  | tables _ _ => rfl

end Item.Alike

/-- A document that says what another one says. A table without entries may be missing at the
top. -/
structure Table.Echoes (t t' : Table) : Prop where
  told : ∀ path shape, t'.shapeAt path = some shape → t.shapeAt path = some shape
  kept : ∀ path shape, t.shapeAt path = some shape → t'.shapeAt path = some shape ∨
    ∃ name bare, path = [name] ∧ t.child? name = some bare ∧ bare.entries = []

theorem Table.Echoes.find? {t t' : Table} (echo : t.Echoes t') (name : String) :
    Item.Alike (t.find? name) (t'.find? name) ∨
      t'.find? name = none ∧ ∃ bare, t.child? name = some bare ∧ bare.entries = [] := by
  cases there : t'.find? name with
  | none =>
    cases here : t.find? name with
    | none => exact .inl .missing
    | some item =>
      obtain ⟨shape, is⟩ : ∃ shape, t.shapeAt [name] = some shape := by
        rw [shapeAt_cons, here]
        cases item <;> exact ⟨_, rfl⟩
      rcases echo.kept _ _ is with same | ⟨_, bare, same, child, empty⟩
      · rw [find?_eq_none_iff.mp there] at same
        cases same
      · cases same
        exact .inr ⟨rfl, bare, child, empty⟩
  | some item =>
    rw [← there]
    refine .inl (Item.alike_of_shapeAt fun path => ?_)
    rw [← shapeAt_cons, ← shapeAt_cons]
    apply Option.ext
    intro shape
    refine ⟨echo.told _ _, fun here => ?_⟩
    rcases echo.kept _ _ here with same | ⟨_, bare, same, child, empty⟩
    · exact same
    · -- An empty table that is not missing is a table in both.
      cases same
      obtain ⟨shape', is⟩ : ∃ shape', t'.shapeAt [name] = some shape' := by
        rw [shapeAt_cons, there]
        cases item <;> exact ⟨_, rfl⟩
      rwa [← (echo.told _ _ is).symm.trans here]

end ClassDiagram.Toml
