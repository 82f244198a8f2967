import ClassDiagram.BuildDocument

/-! Edits along a path of tables. Only what is under the edited name changes. An edit is refused
where something else than a table stands on its path, and then it leaves all as it was: the tables
that are missing on the path are made behind the last one that could refuse. -/

namespace ClassDiagram.Toml

namespace Entries

variable {name : String} {item : Item} {entries : Entries}

theorem replace_of_find? (found : find? name entries = some item) :
    replace name item entries = entries := by
  induction entries with
  | nil => cases found
  | cons e rest ih =>
    obtain ⟨key, first⟩ := e
    by_cases here : key.name = name
    · obtain rfl : first = item := by simpa [find?, here] using found
      simp [replace, here]
    · simp only [find?, if_neg here] at found
      simp [replace, here, ih found]

theorem find?_append_self {key : Key} (missing : find? key.name entries = none) (item : Item) :
    find? key.name (entries ++ [(key, item)]) = some item := by
  induction entries with
  | nil => simp [find?]
  | cons e rest ih =>
    obtain ⟨k, first⟩ := e
    by_cases here : k.name = key.name
    · simp [find?, here] at missing
    · simp only [find?, if_neg here] at missing
      simpa [find?, here] using ih missing

theorem find?_append_other {key : Key} {other : String} (ne : other ≠ key.name) (item : Item)
    (entries : Entries) : find? other (entries ++ [(key, item)]) = find? other entries := by
  induction entries with
  | nil => simp [find?, Ne.symm ne]
  | cons e rest ih =>
    obtain ⟨k, first⟩ := e
    simp [find?, ih]

theorem replace_append {key : Key} (missing : find? key.name entries = none) (item item' : Item) :
    replace key.name item' (entries ++ [(key, item)]) = entries ++ [(key, item')] := by
  induction entries with
  | nil => simp [replace]
  | cons e rest ih =>
    obtain ⟨k, first⟩ := e
    by_cases here : k.name = key.name
    · simp [find?, here] at missing
    · simp only [find?, if_neg here] at missing
      simp [replace, here, ih missing]

theorem replace_replace (item item' : Item) :
    replace name item' (replace name item entries) = replace name item' entries := by
  induction entries with
  | nil => rfl
  | cons e rest ih =>
    obtain ⟨key, first⟩ := e
    by_cases here : key.name = name <;> simp [replace, here, ih]

theorem mem_of_find? (found : entries.find? name = some item) :
    ∃ e ∈ entries, e.1.name = name ∧ e.2 = item := by
  induction entries with
  | nil => cases found
  | cons e rest ih =>
    obtain ⟨key, first⟩ := e
    by_cases here : key.name = name
    · simp only [find?, if_pos here, Option.some.injEq] at found
      exact ⟨_, .head _, here, found⟩
    · simp only [find?, if_neg here] at found
      obtain ⟨e, listed, is⟩ := ih found
      exact ⟨e, .tail _ listed, is⟩

theorem find?_of_mem (distinct : (entries.map (·.1.name)).Nodup)
    {e : Key × Item} (listed : e ∈ entries) : entries.find? e.1.name = some e.2 := by
  induction entries with
  | nil => cases listed
  | cons first rest ih =>
    obtain ⟨fresh, distinct⟩ := List.nodup_cons.mp distinct
    rcases List.mem_cons.mp listed with rfl | later
    · simp [find?]
    · have ne : first.1.name ≠ e.1.name := fun same =>
        fresh (List.mem_map.mpr ⟨e, later, same.symm⟩)
      rw [find?, if_neg ne]
      exact ih distinct later

theorem mem_replace {e : Key × Item} (listed : e ∈ entries.replace name item) :
    e ∈ entries ∨ e.2 = item := by
  induction entries with
  | nil => cases listed
  | cons first rest ih =>
    obtain ⟨key, old⟩ := first
    rw [replace] at listed
    split at listed
    · rcases List.mem_cons.mp listed with rfl | later
      · exact .inr rfl
      · exact .inl (.tail _ later)
    · rcases List.mem_cons.mp listed with rfl | later
      · exact .inl (.head _)
      · exact (ih later).imp_left (.tail _)

end Entries

namespace Table

section

variable {t t' child : Table} {name other : String}

theorem child?_eq_some_iff : t.child? name = some child ↔ t.find? name = some (.table child) := by
  rw [child?, Option.bind_eq_some_iff]
  constructor
  · rintro ⟨item, found, isTable⟩
    cases item with
    | table inner => cases isTable; exact found
    | value _ => cases isTable
    | tables _ => cases isTable
  · intro found
    exact ⟨_, found, rfl⟩

theorem replace_of_find? {item : Item} (found : t.find? name = some item) :
    t.replace name item = t := by
  cases t
  exact congrArg (mk _) (Entries.replace_of_find? found)

theorem child?_congr (same : t.find? name = t'.find? name) : t.child? name = t'.child? name := by
  rw [child?, child?, same]

theorem child?_replace (found : t.child? name = some child) (child' : Table) :
    (t.replace name (.table child')).child? name = some child' :=
  child?_eq_some_iff.mpr (Entries.find?_replace_self (child?_eq_some_iff.mp found) _)

theorem child?_remove (t : Table) (name : String) : (t.remove name).child? name = none := by
  have gone : (t.remove name).find? name = none := Entries.find?_remove_self name t.entries
  rw [child?, gone]
  rfl

theorem find?_set_self (t : Table) (name : String) (content : Scalar) :
    (t.set name content).find? name = some (.value (.new content)) :=
  Entries.find?_insert_self name _ t.entries

theorem find?_set_other (ne : other ≠ name) (content : Scalar) :
    (t.set name content).find? other = t.find? other :=
  Entries.find?_insert_other ne _ t.entries

theorem bind_find?_getD (t? : Option Table) (name : String) (implicit : Bool) :
    (t?.getD (empty implicit false)).find? name = t?.bind (find? name) := by
  cases t? <;> rfl

theorem child?_getD (t? : Option Table) (name : String) (implicit : Bool) :
    (t?.getD (empty implicit false)).child? name = t?.bind (child? name) := by
  cases t? <;> rfl

end

/-- Whether the tables on a path are there or can be made. The first name under which something
else stands is told. -/
def opening : List String → Table → Except Failure Unit
  | [], _ => .ok ()
  | name :: path, t =>
    match t.find? name with
    | none => .ok ()
    | some (.table child) => opening path child
    | some _ => .error (.notTable name)

theorem opening_empty (path : List String) (implicit dotted : Bool) :
    opening path (empty implicit dotted) = .ok () := by
  cases path <;> rfl

/-- An edit below a path of tables. A refused one changes nothing. -/
structure Below (path : List String) (edit : Table → Table × Except Failure Unit) : Prop where
  result : ∀ t, (edit t).2 = opening path t
  kept : ∀ t failure, (edit t).2 = .error failure → (edit t).1 = t

theorem Below.here (change : Table → Table) : Below [] fun t => (change t, .ok ()) where
  result _ := rfl
  kept _ _ refused := nomatch refused

theorem Below.editChild {path : List String} {edit : Table → Table × Except Failure Unit}
    (below : Below path edit) (name : String) (implicit : Bool) :
    Below (name :: path) (editChild name implicit edit) := by
  constructor
  · intro t
    unfold Table.editChild opening
    cases found : t.find? name with
    | none => exact (below.result _).trans (opening_empty ..)
    | some item => cases item <;> simp [below.result]
  · intro t failure refused
    unfold Table.editChild at refused ⊢
    cases found : t.find? name with
    | none =>
      -- The edit of a table that was made for it is not refused.
      simp only [found, below.result, opening_empty] at refused
      cases refused
    | some item =>
      cases item with
      | table child =>
        simp only [found] at refused ⊢
        rw [below.kept child failure refused]
        exact replace_of_find? found
      | value _ => rfl
      | tables _ => rfl

section

variable {t : Table} {name : String} {implicit : Bool}
  {edit : Table → Table × Except Failure Unit}

theorem find?_editChild_other {other : String} (ne : other ≠ name) :
    (t.editChild name implicit edit).1.find? other = t.find? other := by
  unfold editChild
  split
  · exact Entries.find?_append_other ne _ t.entries
  · exact Entries.find?_replace_other ne _ t.entries
  · rfl

theorem child?_editChild (done : (t.editChild name implicit edit).2 = .ok ()) :
    let edited := edit ((t.child? name).getD (empty implicit false))
    edited.2 = .ok () ∧ (t.editChild name implicit edit).1.child? name = some edited.1 := by
  unfold editChild at done ⊢
  cases found : t.find? name with
  | none =>
    have missing : t.child? name = none := by rw [child?, found]; rfl
    have new : t.entries.find? (Key.new name).name = none := found
    simp only [found] at done ⊢
    rw [missing]
    exact ⟨done, child?_eq_some_iff.mpr (Entries.find?_append_self new _)⟩
  | some item =>
    cases item with
    | table child =>
      have here : t.child? name = some child := child?_eq_some_iff.mpr found
      simp only [found] at done ⊢
      rw [here]
      exact ⟨done, child?_replace here _⟩
    | value _ => rw [found] at done; cases done
    | tables _ => rw [found] at done; cases done

end

end Table

end ClassDiagram.Toml
