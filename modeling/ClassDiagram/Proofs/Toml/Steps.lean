import ClassDiagram.Proofs.BuildDocument.Tables
import ClassDiagram.Proofs.Toml.Keys

/-! What can happen while a document is put together: where an edit at a path goes, what a pair or
a header does to the table that it is about, and which statements a whole run is made of. What
holds of every table that changes holds of the document once it is carried up the path. -/

namespace ClassDiagram.Toml

namespace Table

/-! ### Entries that are put into a table -/

section

variable {t : Table} {key : Key} {name other : String} {item : Item}

@[simp] theorem style_append : (t.append key item).style = t.style := rfl

@[simp] theorem style_replace : (t.replace name item).style = t.style := rfl

theorem find?_append_self (missing : t.find? key.name = none) (item : Item) :
    (t.append key item).find? key.name = some item := Entries.find?_append_self missing item

theorem find?_append_other (ne : other ≠ key.name) (item : Item) :
    (t.append key item).find? other = t.find? other := Entries.find?_append_other ne item t.entries

theorem find?_replace_self (found : t.find? name = some item) (item' : Item) :
    (t.replace name item').find? name = some item' := Entries.find?_replace_self found item'

theorem find?_replace_other (ne : other ≠ name) (item : Item) :
    (t.replace name item).find? other = t.find? other :=
  Entries.find?_replace_other ne item t.entries

theorem replace_append (missing : t.find? key.name = none) (item item' : Item) :
    (t.append key item).replace key.name item' = t.append key item' := by
  obtain ⟨style, entries⟩ := t
  exact congrArg (mk style) (Entries.replace_append missing item item')

theorem replace_replace (item item' : Item) :
    (t.replace name item).replace name item' = t.replace name item' := by
  obtain ⟨style, entries⟩ := t
  exact congrArg (mk style) (Entries.replace_replace item item')

end

/-! ### Edits at a path -/

section

variable {α β : Type} {dotted : Bool} {edit : Table → Option (α × Table)} {key : Key}
  {path : List Key} {t t' t₁ inner last : Table} {ts : List Table} {a : α} {b : β}

theorem within_missing (missing : t.find? key.name = none) :
    t.within dotted edit (key :: path) =
      ((empty true dotted).within dotted edit path).map fun (a, inner) =>
        (a, t.append key (.table inner)) := by
  rw [within, missing]

theorem within_table (found : t.find? key.name = some (.table inner))
    (free : (dotted && !inner.isImplicit) = false) :
    t.within dotted edit (key :: path) =
      (inner.within dotted edit path).map fun (a, inner) =>
        (a, t.replace key.name (.table inner)) := by
  simp only [within, found, free, Bool.false_eq_true, if_false]

theorem within_tables (found : t.find? key.name = some (.tables ts))
    (some : ts.getLast? = some last) :
    t.within dotted edit (key :: path) =
      (last.within dotted edit path).map fun (a, last) =>
        (a, t.replace key.name (.tables (ts.dropLast ++ [last]))) := by
  simp only [within, found, some]

/-- What an edit at a path goes through. -/
inductive Way (dotted : Bool) (edit : Table → Option (α × Table)) (key : Key) (path : List Key)
    (t : Table) (a : α) : Table → Prop
  | missing {inner : Table} : t.find? key.name = none →
      (empty true dotted).within dotted edit path = some (a, inner) →
      Way dotted edit key path t a (t.append key (.table inner))
  | table {inner inner' : Table} : t.find? key.name = some (.table inner) →
      (dotted && !inner.isImplicit) = false → inner.within dotted edit path = some (a, inner') →
      Way dotted edit key path t a (t.replace key.name (.table inner'))
  | tables {ts : List Table} {last last' : Table} : t.find? key.name = some (.tables ts) →
      ts.getLast? = some last → last.within dotted edit path = some (a, last') →
      Way dotted edit key path t a (t.replace key.name (.tables (ts.dropLast ++ [last'])))

theorem way_of_within (done : t.within dotted edit (key :: path) = some (a, t')) :
    Way dotted edit key path t a t' := by
  cases found : t.find? key.name with
  | none =>
    rw [within_missing found] at done
    obtain ⟨⟨_, inner⟩, below, same⟩ := Option.map_eq_some_iff.mp done
    cases same
    exact .missing found below
  | some item =>
    cases item with
    | value v =>
      rw [within, found] at done
      cases done
    | table inner =>
      cases free : dotted && !inner.isImplicit with
      | true => simp [within, found, free] at done
      | false =>
        rw [within_table found free] at done
        obtain ⟨⟨_, inner'⟩, below, same⟩ := Option.map_eq_some_iff.mp done
        cases same
        exact .table found free below
    | tables ts =>
      cases some : ts.getLast? with
      | none => simp [within, found, some] at done
      | some last =>
        rw [within_tables found some] at done
        obtain ⟨⟨_, last'⟩, below, same⟩ := Option.map_eq_some_iff.mp done
        cases same
        exact .tables found some below

/-- Two edits at the same path, one after the other, are one edit. -/
theorem within_within (next : α → Table → Option (β × Table))
    (first : t.within false edit path = some (a, t₁))
    (second : t₁.within false (next a) path = some (b, t')) :
    t.within false (fun x => (edit x).bind fun (a, y) => next a y) path = some (b, t') := by
  induction path generalizing t t₁ t' with
  | nil =>
    simp only [within] at first second ⊢
    rw [first, Option.bind_some]
    exact second
  | cons key path ih =>
    cases way_of_within first with
    | @missing inner missing below =>
      have here := find?_append_self missing (.table inner)
      cases way_of_within second with
      | missing absent _ => rw [here] at absent; cases absent
      | table found _ later =>
        cases here.symm.trans found
        rw [within_missing missing, ih below later, Option.map_some, replace_append missing]
      | tables found _ _ => rw [here] at found; cases found
    | @table inner inner' found free below =>
      have here := find?_replace_self found (.table inner')
      cases way_of_within second with
      | missing absent _ => rw [here] at absent; cases absent
      | table found' _ later =>
        cases here.symm.trans found'
        rw [within_table found free, ih below later, Option.map_some, replace_replace]
      | tables found' _ _ => rw [here] at found'; cases found'
    | @tables ts last last' found some below =>
      have here := find?_replace_self found (.tables (ts.dropLast ++ [last']))
      cases way_of_within second with
      | missing absent _ => rw [here] at absent; cases absent
      | table found' _ _ => rw [here] at found'; cases found'
      | tables found' some' later =>
        cases here.symm.trans found'
        rw [List.getLast?_concat] at some'
        cases some'
        rw [within_tables found some, ih below later, Option.map_some, replace_replace,
          List.dropLast_concat]

end

end Table

/-! ### Pairs -/

def Pair.placed (leading : String) (q : Pair) : Key :=
  { q.key with leaf := ⟨some (leading ++ q.key.leaf.before.getD ""), q.key.leaf.after⟩ }

@[simp] theorem Pair.name_placed (leading : String) (q : Pair) :
    (q.placed leading).name = q.key.name := rfl

/-- What a pair does to the table that its path leads to, where it is not refused. -/
structure Table.Gets (leading : String) (q : Pair) (x y : Table) : Prop where
  dotted : x.style.dotted = !q.path.isEmpty
  missing : x.find? (q.placed leading).name = none
  value : y = x.append (q.placed leading) (.value q.value)

theorem Table.gets_of_addPair {leading : String} {q : Pair} {t t' : Table}
    (added : t.addPair leading q = some t') : ∃ edit : Table → Option (Unit × Table),
      t.within true edit q.path = some ((), t') ∧
        ∀ {x u y}, edit x = some (u, y) → Gets leading q x y := by
  obtain ⟨⟨u, t'⟩, done, rfl⟩ := Option.map_eq_some_iff.mp added
  refine ⟨_, done, fun {x u y} edited => ?_⟩
  split at edited
  · cases edited
  · next free =>
    cases edited
    rw [Bool.or_eq_true, not_or] at free
    exact ⟨by simpa [isDotted, Bool.eq_not] using free.1, by simpa using free.2, rfl⟩

namespace Assembly

variable {key last : Key} {path : List Key} {decor : Decor} {isArray : Bool} {n : Nat}
  {t t' parent root root' : Table} {entries : Entries} {a b : Assembly}

/-! ### Headers -/

/-- What a header takes out of the parent of its table. -/
inductive Taken (key : Key) (parent : Table) : Entries → Table → Prop
  | nothing : parent.find? key.name = none → Taken key parent [] parent
  | parental {t : Table} : parent.find? key.name = some (.table t) → t.style.implicit = true →
      t.style.dotted = false → Taken key parent t.entries (parent.remove key.name)

theorem taken_of_takeImplicit (taken : takeImplicit key parent = some (entries, t')) :
    Taken key parent entries t' := by
  unfold takeImplicit at taken
  split at taken
  · next missing =>
    cases taken
    exact .nothing missing
  · next t found =>
    split at taken
    · next free =>
      cases taken
      obtain ⟨implicit, plain⟩ : t.style.implicit = true ∧ t.style.dotted = false := by
        simpa [Table.isImplicit, Table.isDotted] using free
      exact .parental found implicit plain
    · cases taken
  · cases taken

inductive Put (key : Key) (t parent : Table) : Bool → Table → Prop
  | table : parent.find? key.name = none → Put key t parent false (parent.append key (.table t))
  | array : parent.find? key.name = none → Put key t parent true (parent.append key (.tables [t]))
  | more {ts : List Table} : parent.find? key.name = some (.tables ts) →
      Put key t parent true (parent.replace key.name (.tables (ts ++ [t])))

theorem putTable_eq_some_iff {u : Unit} :
    putTable isArray key t parent = some (u, t') ↔ Put key t parent isArray t' := by
  constructor
  · intro put
    unfold putTable at put
    split at put
    · next missing => cases put; exact .table missing
    · next missing => cases put; exact .array missing
    · next found => cases put; exact .more found
    · cases put
  · rintro (missing | missing | found)
    · simp [putTable, missing]
    · simp [putTable, missing]
    · simp [putTable, found]

def here (a : Assembly) : List String :=
  match a.current.last with
  | none => []
  | some last => names (a.current.path ++ [last])

/-- How the table that takes pairs gets into its document. -/
inductive Closes (a : Assembly) : Table → Prop
  | whole : a.current.last = none → a.here = [] → Closes a a.current.table
  | put {last : Key} {u : Unit} {root : Table} : a.current.last = some last →
      a.here = names a.current.path ++ [last.name] →
      a.root.within false (putTable a.current.isArray last a.current.table) a.current.path =
        some (u, root) → Closes a root

theorem close_eq_some_iff : a.close = some root ↔ a.Closes root := by
  unfold close
  cases last : a.current.last with
  | none =>
    constructor
    · rintro ⟨⟩
      exact .whole last (by rw [here, last])
    · rintro (_ | some)
      · rfl
      · rw [last] at some
        cases some
  | some key =>
    have path : a.here = names a.current.path ++ [key.name] := by simp [here, last, names]
    constructor
    · intro closed
      obtain ⟨⟨u, root⟩, done, rfl⟩ := Option.map_eq_some_iff.mp closed
      exact .put last path done
    · rintro (none | ⟨some, _, done⟩)
      · rw [last] at none
        cases none
      · cases last.symm.trans some
        simp [done]

/-- What a header opens: one more table of an array, or a table with what its parent had for it. -/
inductive Opens (path : List Key) (last : Key) (decor : Decor) (root : Table) (headers : Nat) :
    Bool → Assembly → Prop
  | array : Opens path last decor root headers true
      ⟨root, ⟨true, path, some last, .mk ⟨false, false, decor, some headers⟩ []⟩, headers⟩
  | table {entries : Entries} {rest : Table} :
      root.within false (takeImplicit last) path = some (entries, rest) →
      Opens path last decor root headers false
        ⟨rest, ⟨false, path, some last, .mk ⟨false, false, decor, some headers⟩ entries⟩, headers⟩

theorem opens_of_openTable (opened : openTable isArray path last decor root n = some a) :
    Opens path last decor root n isArray a := by
  unfold openTable at opened
  cases isArray with
  | true =>
    cases opened
    exact .array
  | false =>
    simp only [Bool.false_eq_true, if_false] at opened
    obtain ⟨⟨entries, rest⟩, taken, rfl⟩ := Option.map_eq_some_iff.mp opened
    exact .table taken

theorem Opens.here (opens : Opens path last decor root n isArray a) :
    a.here = names (path ++ [last]) := by
  cases opens <;> rfl

theorem Opens.style (opens : Opens path last decor root n isArray a) :
    a.current.table.style = ⟨false, false, decor, some n⟩ := by
  cases opens <;> rfl

theorem Opens.headers (opens : Opens path last decor root n isArray a) :
    a.headers = n := by
  cases opens <;> rfl

/-- What a header does to the parent of its table, where nothing is said below it. -/
inductive Headed (key : Key) (style : TableStyle) (parent : Table) : Bool → Table → Prop
  | new : parent.find? key.name = none →
      Headed key style parent false (parent.append key (.table (.mk style [])))
  | parental {t : Table} : parent.find? key.name = some (.table t) → t.style.implicit = true →
      t.style.dotted = false → Headed key style parent false
        ((parent.remove key.name).append key (.table (.mk style t.entries)))
  | array : parent.find? key.name = none →
      Headed key style parent true (parent.append key (.tables [.mk style []]))
  | more {ts : List Table} : parent.find? key.name = some (.tables ts) →
      Headed key style parent true (parent.replace key.name (.tables (ts ++ [.mk style []])))

theorem headed_of_put {style : TableStyle} (put : Put key (.mk style []) parent true t') :
    Headed key style parent true t' := by
  cases put with
  | array missing => exact .array missing
  | more found => exact .more found

theorem headed_of_taken {style : TableStyle} (taken : Taken key parent entries t)
    (put : Put key (.mk style entries) t false t') : Headed key style parent false t' := by
  cases put with
  | table _ =>
    cases taken with
    | nothing missing => exact .new missing
    | parental found implicit plain => exact .parental found implicit plain

/-- A header that is closed at once is one edit at its path. -/
theorem headed_of_open (opened : openTable isArray path last decor root n = some a)
    (closed : a.close = some root') : ∃ edit : Table → Option (Unit × Table),
      root.within false edit path = some ((), root') ∧ ∀ {x u y}, edit x = some (u, y) →
        Headed last ⟨false, false, decor, some n⟩ x isArray y := by
  cases opens_of_openTable opened with
  | array =>
    cases close_eq_some_iff.mp closed with
    | whole none _ => cases none
    | put some _ done =>
      cases some
      exact ⟨_, done, fun put => headed_of_put (putTable_eq_some_iff.mp put)⟩
  | table taken =>
    cases close_eq_some_iff.mp closed with
    | whole none _ => cases none
    | put some _ done =>
      cases some
      refine ⟨_, Table.within_within (fun entries =>
        putTable false last (.mk ⟨false, false, decor, some n⟩ entries)) taken done, ?_⟩
      intro x u y both
      obtain ⟨⟨entries, rest⟩, taken, put⟩ := Option.bind_eq_some_iff.mp both
      exact headed_of_taken (taken_of_takeImplicit taken) (putTable_eq_some_iff.mp put)

/-! ### Runs -/

inductive Run : List (String × Statement) → Assembly → Assembly → Prop
  | nil {a : Assembly} : Run [] a a
  | pair {leading : String} {q : Pair} {rest : List (String × Statement)} {a b : Assembly}
      {table : Table} : a.current.table.addPair leading q = some table →
      Run rest { a with current := { a.current with table := table } } b →
      Run ((leading, .pair q) :: rest) a b
  | header {leading tail : String} {isArray : Bool} {path : List Key} {last : Key}
      {rest : List (String × Statement)} {a next b : Assembly} {root : Table} :
      a.close = some root →
      openTable isArray path last (.around leading tail) root (a.headers + 1) = some next →
      Run rest next b → Run ((leading, .header isArray path last tail) :: rest) a b

theorem run_of_foldlM {statements : List (String × Statement)}
    (done : statements.foldlM step a = some b) : Run statements a b := by
  induction statements generalizing a with
  | nil =>
    cases done
    exact .nil
  | cons s statements ih =>
    obtain ⟨leading, s⟩ := s
    rw [List.foldlM_cons] at done
    obtain ⟨next, stepped, rest⟩ := Option.bind_eq_some_iff.mp done
    cases s with
    | pair q =>
      obtain ⟨table, added, rfl⟩ := Option.map_eq_some_iff.mp stepped
      exact .pair added (ih rest)
    | header isArray path last tail =>
      obtain ⟨root, closed, opened⟩ := Option.bind_eq_some_iff.mp stepped
      exact .header closed opened (ih rest)

/-! ### Relations that go up a path -/

/-- A relation of tables, told for each path below which they differ, that holds of a table where
it holds of one in it. -/
structure Rises (R : List String → Table → Table → Prop) : Prop where
  table {t inner inner' : Table} {name : String} {path : List String} :
    t.find? name = some (.table inner) → R path inner inner' →
    R (name :: path) t (t.replace name (.table inner'))
  last {t last last' : Table} {ts : List Table} {name : String} {path : List String} :
    t.find? name = some (.tables ts) → ts.getLast? = some last → R path last last' →
    R (name :: path) t (t.replace name (.tables (ts.dropLast ++ [last'])))

namespace Rises

variable {R : List String → Table → Table → Prop} {below : List String}

theorem within {α β : Type} {dotted : Bool} {edit : Table → Option (α × Table)}
    {edit' : Table → Option (β × Table)} {b : β} (rises : Rises R)
    (related : ∀ {x b y'}, edit' x = some (b, y') → ∃ a y, edit x = some (a, y) ∧ R below y y')
    (done : t.within dotted edit' path = some (b, t')) :
    ∃ a t₁, t.within dotted edit path = some (a, t₁) ∧ R (names path ++ below) t₁ t' := by
  induction path generalizing t t' with
  | nil => exact related done
  | cons key path ih =>
    cases Table.way_of_within done with
    | @missing inner' missing next =>
      obtain ⟨a, inner, next, holds⟩ := ih next
      refine ⟨a, _, by rw [Table.within_missing missing, next]; rfl, ?_⟩
      rw [← Table.replace_append missing (.table inner) (.table inner')]
      exact rises.table (Table.find?_append_self missing _) holds
    | @table _ inner' found free next =>
      obtain ⟨a, inner, next, holds⟩ := ih next
      refine ⟨a, _, by rw [Table.within_table found free, next]; rfl, ?_⟩
      rw [← Table.replace_replace (.table inner) (.table inner')]
      exact rises.table (Table.find?_replace_self found _) holds
    | @tables ts last last' found some next =>
      obtain ⟨a, inner, next, holds⟩ := ih next
      refine ⟨a, _, by rw [Table.within_tables found some, next]; rfl, ?_⟩
      have here := Table.find?_replace_self found (.tables (ts.dropLast ++ [inner]))
      have both := rises.last here List.getLast?_concat holds
      rwa [Table.replace_replace, List.dropLast_concat] at both

theorem put (rises : Rises R) (holds : R below t t') {y' : Table}
    (put : Put key t' parent isArray y') :
    ∃ y, Put key t parent isArray y ∧ R (key.name :: below) y y' := by
  cases put with
  | table missing =>
    refine ⟨_, .table missing, ?_⟩
    rw [← Table.replace_append missing (.table t) (.table t')]
    exact rises.table (Table.find?_append_self missing _) holds
  | array missing =>
    refine ⟨_, .array missing, ?_⟩
    rw [← Table.replace_append missing (.tables [t]) (.tables [t'])]
    exact rises.last (Table.find?_append_self missing _) rfl holds
  | @more ts found =>
    refine ⟨_, .more found, ?_⟩
    have here := Table.find?_replace_self found (.tables (ts ++ [t]))
    have both := rises.last here List.getLast?_concat holds
    rwa [Table.replace_replace, List.dropLast_concat] at both

/-- What a statement does to the table that takes pairs, it does to the document. -/
theorem close (rises : Rises R) (holds : R below a.current.table t)
    (closed : { a with current := { a.current with table := t } }.close = some root') :
    ∃ root, a.close = some root ∧ R (a.here ++ below) root root' := by
  simp only [close_eq_some_iff] at closed ⊢
  cases closed with
  | whole none top =>
    have top : a.here = [] := top
    exact ⟨_, .whole none top, top.symm ▸ holds⟩
  | @put last _ _ some path done =>
    have puts : ∀ {x u y'}, putTable a.current.isArray last t x = Option.some (u, y') →
        ∃ u y, putTable a.current.isArray last a.current.table x = Option.some (u, y) ∧
          R (last.name :: below) y y' := by
      intro x u y' edited
      obtain ⟨y, put, more⟩ := rises.put holds (putTable_eq_some_iff.mp edited)
      exact ⟨u, y, putTable_eq_some_iff.mpr put, more⟩
    obtain ⟨u, root, done, more⟩ := rises.within puts done
    refine ⟨root, .put some path done, ?_⟩
    have path : a.here = names a.current.path ++ [last.name] := path
    rw [path, List.append_assoc]
    exact more

end Rises

end Assembly

namespace Document

theorem run_of_parse {text : String} {d : Document} (parsed : parse text = some d) :
    ∃ statements a, statements? text = some (statements, d.trailing) ∧
      Assembly.Run statements .start a ∧ a.close = some d.root := by
  obtain ⟨⟨statements, trailing⟩, read, parsed⟩ := Option.bind_eq_some_iff.mp parsed
  obtain ⟨a, run, ended⟩ := Option.bind_eq_some_iff.mp parsed
  obtain ⟨root, closed, rfl⟩ := Option.map_eq_some_iff.mp ended
  exact ⟨statements, a, read, Assembly.run_of_foldlM run, closed⟩

end Document

end ClassDiagram.Toml
