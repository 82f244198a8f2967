import ClassDiagram.Proofs.Toml.Shapes
import ClassDiagram.Proofs.Toml.Statements
import ClassDiagram.Proofs.Toml.Steps

/-! What a document holds is what its statements say. Each statement adds what it says to the tree,
and the tables above it, and leaves what is there. What stands inside an array of tables is not
told apart. -/

namespace ClassDiagram.Toml

/-! ### Facts -/

/-- What a statement says of the whole document. -/
abbrev Fact := List String × Shape

def Fact.under (path : List String) (f : Fact) : Fact := (path ++ f.1, f.2)

/-- The facts of statements, where `here` is the path of the last header. -/
def factsOf (here : List String) : List Said → List Fact
  | [] => []
  | .header isArray path :: rest =>
    (path, if isArray then .tables else .table) :: factsOf path rest
  | .pair path data :: rest => (here ++ path, .value data) :: factsOf here rest

def Above (path below : List String) : Prop := ∃ name rest, below = path ++ name :: rest

/-- A fact that a tree holds, unless it is about the inside of an array of tables. -/
def Met (t : Table) (f : Fact) : Prop :=
  t.shapeAt f.1 = some f.2 ∨ ∃ path, Above path f.1 ∧ t.shapeAt path = some .tables

/-- What stands at a path is told by a fact about it, or, of a table, by one about what it holds. -/
def Explains (facts : List Fact) (path : List String) (shape : Shape) : Prop :=
  (path, shape) ∈ facts ∨ shape = .table ∧ ∃ f ∈ facts, Above path f.1

section

variable {facts more : List Fact} {path : List String} {shape : Shape} {f : Fact} {t : Table}

theorem Explains.mono (explains : Explains facts path shape) (sub : ∀ f ∈ facts, f ∈ more) :
    Explains more path shape :=
  explains.imp (sub _) fun ⟨table, f, mem, above⟩ => ⟨table, f, sub f mem, above⟩

theorem Explains.under (name : String) (explains : Explains facts path shape) :
    Explains (facts.map (Fact.under [name])) (name :: path) shape := by
  rcases explains with mem | ⟨table, f, mem, other, rest, below⟩
  · exact .inl (List.mem_map_of_mem (f := Fact.under [name]) mem)
  · exact .inr ⟨table, _, List.mem_map_of_mem mem, other, rest, by simp [Fact.under, below]⟩

theorem under_append (path path' : List String) (facts : List Fact) :
    (facts.map (Fact.under path')).map (Fact.under path) = facts.map (Fact.under (path ++ path')) := by
  simp [Fact.under]

theorem Met.under {child : Table} {name : String} (here : t.child? name = some child)
    (met : Met child f) : Met t (f.under [name]) := by
  rcases met with is | ⟨path, ⟨other, rest, below⟩, array⟩
  · exact .inl ((Table.shapeAt_of_child? here f.1).trans is)
  · refine .inr ⟨name :: path, ⟨other, rest, by simp [Fact.under, below]⟩, ?_⟩
    exact (Table.shapeAt_of_child? here path).trans array

end

/-! ### Trees without needless tables -/

mutual

/-- A table that is there only as a parent, or comes from dotted keys, holds something. An array
has tables, and none of them comes from dotted keys. -/
def Item.Full : Item → Prop
  | .value _ => True
  | .table t =>
    ((t.style.implicit = true ∨ t.style.dotted = true) → t.entries ≠ []) ∧ t.Sound
  | .tables ts => ts ≠ [] ∧ ∀ t ∈ ts, t.style.dotted = false

def Table.Sound : Table → Prop
  | .mk _ entries => SoundEntries entries

def SoundEntries : Entries → Prop
  | [] => True
  | (_, item) :: rest => item.Full ∧ SoundEntries rest

end

theorem soundEntries_iff {entries : Entries} : SoundEntries entries ↔ ∀ e ∈ entries, e.2.Full := by
  induction entries with
  | nil => simp [SoundEntries]
  | cons e rest ih => rw [SoundEntries, ih, List.forall_mem_cons]

namespace Table

variable {t : Table} {key : Key} {name other : String} {item item' : Item}

theorem sound_iff : t.Sound ↔ ∀ e ∈ t.entries, e.2.Full := by
  cases t
  exact soundEntries_iff

theorem full_of_find? (sound : t.Sound) (found : t.find? name = some item) : item.Full := by
  obtain ⟨e, mem, _, same⟩ := Entries.mem_of_find? found
  exact same ▸ sound_iff.mp sound e mem

theorem sound_append (sound : t.Sound) (full : item.Full) : (t.append key item).Sound := by
  rw [sound_iff] at sound ⊢
  exact List.forall_mem_append.mpr ⟨sound, by simpa using full⟩

theorem sound_replace (sound : t.Sound) (full : item.Full) : (t.replace name item).Sound := by
  rw [sound_iff] at sound ⊢
  intro e mem
  rcases Entries.mem_replace mem with old | new
  · exact sound e old
  · exact new ▸ full

end Table

/-! ### Growth -/

/-- A tree that holds what another one does, and what facts say. -/
structure Grows (facts : List Fact) (t t' : Table) : Prop where
  style : t'.style = t.style
  shape : ∀ path shape, t.shapeAt path = some shape → t'.shapeAt path = some shape
  explained : ∀ path shape, t'.shapeAt path = some shape →
    t.shapeAt path = some shape ∨ Explains facts path shape
  met : ∀ f ∈ facts, Met t' f
  sound : t.Sound → t'.Sound

structure Inner (facts : List Fact) : Prop where
  some : facts ≠ []
  path : ∀ f ∈ facts, f.1 ≠ []

namespace Grows

variable {facts more : List Fact} {t t' t'' inner inner' : Table} {key : Key} {name : String}

theorem refl (t : Table) : Grows [] t t where
  style := rfl
  shape _ _ is := is
  explained _ _ is := .inl is
  met _ mem := nomatch mem
  sound := id

theorem trans (first : Grows facts t t') (second : Grows more t' t'') :
    Grows (facts ++ more) t t'' where
  style := second.style.trans first.style
  shape path shape is := second.shape _ _ (first.shape _ _ is)
  explained path shape is := by
    rcases second.explained _ _ is with old | new
    · rcases first.explained _ _ old with old | new
      · exact .inl old
      · exact .inr (new.mono fun f mem => List.mem_append_left _ mem)
    · exact .inr (new.mono fun f mem => List.mem_append_right _ mem)
  met := by
    refine List.forall_mem_append.mpr ⟨fun f mem => ?_, second.met⟩
    refine (first.met f mem).imp (second.shape _ _) ?_
    rintro ⟨path, above, array⟩
    exact ⟨path, above, second.shape _ _ array⟩
  sound := second.sound ∘ first.sound

theorem entries_ne_nil (grows : Grows facts t t') (inside : Inner facts) : t'.entries ≠ [] := by
  intro none
  have missing : ∀ path, path ≠ [] → t'.shapeAt path = Option.none := by
    intro path some
    cases path with
    | nil => exact absurd rfl some
    | cons name path =>
      rw [Table.shapeAt_cons, Table.find?, none]
      rfl
  obtain ⟨f, mem⟩ := List.exists_mem_of_ne_nil _ inside.some
  rcases grows.met f mem with is | ⟨path, _, array⟩
  · rw [missing _ (inside.path f mem)] at is
    cases is
  · cases path with
    | nil => cases array
    | cons name path =>
      rw [missing _ (List.cons_ne_nil _ _)] at array
      cases array

theorem full (grows : Grows facts inner inner') (inside : Inner facts) (sound : inner.Sound) :
    (Item.table inner').Full :=
  ⟨fun _ => grows.entries_ne_nil inside, grows.sound sound⟩

theorem replace (found : t.find? name = some (.table inner)) (inside : Inner facts)
    (grows : Grows facts inner inner') :
    Grows (facts.map (Fact.under [name])) t (t.replace name (.table inner')) := by
  have here : t.child? name = some inner := Table.child?_eq_some_iff.mpr found
  have there : (t.replace name (.table inner')).child? name = some inner' :=
    Table.child?_replace here inner'
  have other : ∀ {first rest}, first ≠ name →
      (t.replace name (.table inner')).shapeAt (first :: rest) = t.shapeAt (first :: rest) := by
    intro first rest ne
    rw [Table.shapeAt_cons, Table.shapeAt_cons, Table.find?_replace_other ne]
  refine ⟨rfl, ?_, ?_, ?_, ?_⟩
  · intro path shape is
    cases path with
    | nil => exact is
    | cons first rest =>
      by_cases same : first = name
      · subst same
        rw [Table.shapeAt_of_child? here] at is
        rw [Table.shapeAt_of_child? there]
        exact grows.shape _ _ is
      · rwa [other same]
  · intro path shape is
    cases path with
    | nil => exact .inl is
    | cons first rest =>
      by_cases same : first = name
      · subst same
        rw [Table.shapeAt_of_child? there] at is
        rw [Table.shapeAt_of_child? here]
        exact (grows.explained _ _ is).imp_right (.under first)
      · rw [other same] at is
        exact .inl is
  · intro f mem
    obtain ⟨f, listed, rfl⟩ := List.mem_map.mp mem
    exact (grows.met f listed).under there
  · intro sound
    exact Table.sound_replace sound (grows.full inside (Table.full_of_find? sound found).2)

theorem append_of_shape {item : Item} (new : t.find? key.name = none)
    (explained : ∀ path shape, item.shapeAt path = some shape →
      Explains facts (key.name :: path) shape)
    (met : ∀ f ∈ facts, Met (t.append key item) f) (full : t.Sound → item.Full) :
    Grows facts t (t.append key item) := by
  have missing : ∀ rest, t.shapeAt (key.name :: rest) = none := by
    intro rest
    rw [Table.shapeAt_cons, new]
    rfl
  have other : ∀ {first rest}, first ≠ key.name →
      (t.append key item).shapeAt (first :: rest) = t.shapeAt (first :: rest) := by
    intro first rest ne
    rw [Table.shapeAt_cons, Table.shapeAt_cons, Table.find?_append_other ne]
  refine ⟨rfl, ?_, ?_, met, fun sound => Table.sound_append sound (full sound)⟩
  · intro path shape is
    cases path with
    | nil => exact is
    | cons first rest =>
      by_cases same : first = key.name
      · rw [same, missing] at is
        cases is
      · rwa [other same]
  · intro path shape is
    cases path with
    | nil => exact .inl is
    | cons first rest =>
      by_cases same : first = key.name
      · subst same
        rw [Table.shapeAt_cons, Table.find?_append_self new, Option.bind_some] at is
        exact .inr (explained _ _ is)
      · rw [other same] at is
        exact .inl is

theorem append_table {implicit dotted : Bool} (new : t.find? key.name = none)
    (inside : Inner facts) (grows : Grows facts (.empty implicit dotted) inner') :
    Grows (facts.map (Fact.under [key.name])) t (t.append key (.table inner')) := by
  have there : (t.append key (.table inner')).child? key.name = some inner' :=
    Table.child?_eq_some_iff.mpr (Table.find?_append_self new _)
  refine append_of_shape new ?_ ?_ fun _ => grows.full inside trivial
  · intro path shape is
    rcases grows.explained _ _ is with empty | explains
    · -- Of the empty table only that it is one is told, and some fact is about what it holds.
      cases path with
      | nil =>
        cases empty
        obtain ⟨f, mem⟩ := List.exists_mem_of_ne_nil _ inside.some
        obtain ⟨first, rest, below⟩ := List.exists_cons_of_ne_nil (inside.path f mem)
        exact .inr ⟨rfl, _, List.mem_map_of_mem mem, first, rest, by simp [Fact.under, below]⟩
      | cons first rest => cases empty
    · exact explains.under key.name
  · intro f mem
    obtain ⟨f, listed, rfl⟩ := List.mem_map.mp mem
    exact (grows.met f listed).under there

theorem met_in_array {ts : List Table} (array : t.find? name = some (.tables ts)) {f : Fact}
    (inside : f.1 ≠ []) : Met t (f.under [name]) := by
  obtain ⟨first, rest, below⟩ := List.exists_cons_of_ne_nil inside
  refine .inr ⟨[name], ⟨first, rest, by simp [Fact.under, below]⟩, ?_⟩
  rw [Table.shapeAt_cons, array]
  rfl

theorem replace_tables {ts ts' : List Table} (found : t.find? name = some (.tables ts))
    (met : ∀ f ∈ facts, Met (t.replace name (.tables ts')) f)
    (full : (Item.tables ts).Full → (Item.tables ts').Full) :
    Grows facts t (t.replace name (.tables ts')) := by
  have same : ∀ path, (t.replace name (.tables ts')).shapeAt path = t.shapeAt path := by
    intro path
    cases path with
    | nil => rfl
    | cons first rest =>
      by_cases here : first = name
      · rw [here, Table.shapeAt_cons, Table.shapeAt_cons, Table.find?_replace_self found, found]
        rfl
      · rw [Table.shapeAt_cons, Table.shapeAt_cons, Table.find?_replace_other here]
  refine ⟨rfl, ?_, ?_, met, ?_⟩
  · intro path shape is
    rwa [same]
  · intro path shape is
    rw [same] at is
    exact .inl is
  · exact fun sound => Table.sound_replace sound (full (Table.full_of_find? sound found))

/-- The last table of an array grows, of which nothing is told but that it is there. -/
theorem replace_last {ts : List Table} (found : t.find? name = some (.tables ts))
    (some : ts.getLast? = some inner) (inside : Inner facts) (grows : Grows facts inner inner') :
    Grows (facts.map (Fact.under [name])) t
      (t.replace name (.tables (ts.dropLast ++ [inner']))) := by
  refine replace_tables found ?_ fun full => ?_
  · intro f mem
    obtain ⟨f, listed, rfl⟩ := List.mem_map.mp mem
    exact met_in_array (Table.find?_replace_self found _) (inside.path f listed)
  · refine ⟨by simp, List.forall_mem_append.mpr
      ⟨fun t mem => full.2 t (List.dropLast_subset _ mem), ?_⟩⟩
    simpa [grows.style] using full.2 inner (List.mem_of_getLast? some)

end Grows

/-! ### Edits at a path -/

section

variable {α : Type} {dotted : Bool} {edit : Table → Option (α × Table)} {path : List Key}
  {t t' : Table} {a : α} {facts : List Fact}

theorem Inner.under (inside : Inner facts) (path : List String) :
    Inner (facts.map (Fact.under path)) where
  some := by simpa using inside.some
  path := by
    intro f mem
    obtain ⟨f, listed, rfl⟩ := List.mem_map.mp mem
    exact List.append_ne_nil_of_right_ne_nil _ (inside.path f listed)

theorem map_under_nil (facts : List Fact) : facts.map (Fact.under []) = facts := List.map_id facts

theorem map_under_cons (name : String) (path : List String) (facts : List Fact) :
    facts.map (Fact.under (name :: path)) =
      (facts.map (Fact.under path)).map (Fact.under [name]) :=
  (under_append [name] path facts).symm

theorem Grows.within (inside : Inner facts)
    (grows : ∀ {x a y}, edit x = some (a, y) → Grows facts x y)
    (done : t.within dotted edit path = some (a, t')) :
    Grows (facts.map (Fact.under (names path))) t t' := by
  induction path generalizing t t' with
  | nil => exact (map_under_nil facts).symm ▸ grows done
  | cons key path ih =>
    have under := inside.under (names path)
    rw [names, List.map_cons, map_under_cons]
    cases Table.way_of_within done with
    | missing missing below => exact append_table missing under (ih below)
    | table found _ below => exact replace found under (ih below)
    | tables found some below => exact replace_last found some under (ih below)

theorem Grows.rises (inside : Inner facts) :
    Assembly.Rises fun path => Grows (facts.map (Fact.under path)) where
  table found grows := map_under_cons .. ▸ replace found (inside.under _) grows
  last found some grows := map_under_cons .. ▸ replace_last found some (inside.under _) grows

end

/-! ### Statements -/

theorem Grows.append_plain {key : Key} {t : Table} {item : Item} {shape : Shape}
    (new : t.find? key.name = none) (root : item.shapeAt [] = some shape)
    (below : ∀ name rest, item.shapeAt (name :: rest) = none) (full : item.Full) :
    Grows [([key.name], shape)] t (t.append key item) := by
  refine append_of_shape new ?_ ?_ fun _ => full
  · intro path shape' is
    cases path with
    | nil =>
      cases root.symm.trans is
      exact .inl (List.mem_singleton_self _)
    | cons first rest =>
      rw [below] at is
      cases is
  · intro f mem
    cases List.mem_singleton.mp mem
    refine .inl ?_
    rw [Table.shapeAt_cons, Table.find?_append_self new]
    exact root

theorem Grows.addPair {leading : String} {q : Pair} {t t' : Table}
    (done : t.addPair leading q = some t') :
    Grows [(names (q.path ++ [q.key]), .value q.value.data)] t t' := by
  obtain ⟨edit, done, gets⟩ := Table.gets_of_addPair done
  have inside : Inner [([q.key.name], Shape.value q.value.data)] := ⟨by simp, by simp⟩
  suffices grows : Grows ([([q.key.name], .value q.value.data)].map
      (Fact.under (names q.path))) t t' by
    simpa [Fact.under, names] using grows
  refine Grows.within inside (fun edited => ?_) done
  obtain ⟨_, missing, rfl⟩ := gets edited
  exact Grows.append_plain missing rfl (fun _ _ => rfl) trivial

namespace Assembly

variable {key : Key} {path : List Key} {t t' parent : Table} {facts : List Fact}

theorem grows_of_opened {style : TableStyle} (found : parent.find? key.name = some (.table t))
    (gone : (parent.remove key.name).find? key.name = none) (plain : style.implicit = false)
    (plain' : style.dotted = false) :
    Grows [([key.name], .table)] parent
      ((parent.remove key.name).append key (.table (.mk style t.entries))) := by
  have within : ∀ path, (Table.mk style t.entries).shapeAt path = t.shapeAt path := by
    intro path
    cases path with
    | nil => rfl
    | cons first rest => rw [Table.shapeAt_cons, Table.shapeAt_cons]; rfl
  have same : ∀ path, ((parent.remove key.name).append key
      (.table (.mk style t.entries))).shapeAt path = parent.shapeAt path := by
    intro path
    cases path with
    | nil => rfl
    | cons first rest =>
      by_cases here : first = key.name
      · rw [here, Table.shapeAt_cons, Table.shapeAt_cons, Table.find?_append_self gone, found]
        exact within rest
      · have kept : (parent.remove key.name).find? first = parent.find? first :=
          Entries.find?_remove_other here parent.entries
        rw [Table.shapeAt_cons, Table.shapeAt_cons, Table.find?_append_other here, kept]
  refine ⟨rfl, ?_, ?_, ?_, ?_⟩
  · intro path shape is
    rwa [same]
  · intro path shape is
    rw [same] at is
    exact .inl is
  · intro f mem
    cases List.mem_singleton.mp mem
    refine .inl ?_
    rw [same, Table.shapeAt_cons, found]
    rfl
  · intro sound
    have inside : t.Sound := (Table.full_of_find? sound found).2
    refine Table.sound_append ?_ ⟨by simp [Table.style, plain, plain'], ?_⟩
    · rw [Table.sound_iff] at sound ⊢
      exact fun e mem => sound e (List.mem_filter.mp mem).1
    · rw [Table.sound_iff] at inside ⊢
      exact inside

/-- A header makes a table, opens one that was there only as a parent, or starts or extends an
array. -/
theorem grows_of_headed {style : TableStyle} {isArray : Bool} (plain : style.implicit = false)
    (plain' : style.dotted = false) (headed : Headed key style parent isArray t') :
    Grows [([key.name], if isArray then .tables else .table)] parent t' := by
  cases headed with
  | new missing =>
    exact Grows.append_plain missing rfl (fun _ _ => rfl) ⟨by simp [Table.style, plain, plain'], trivial⟩
  | parental found _ _ => exact grows_of_opened found (Entries.find?_remove_self ..) plain plain'
  | array missing =>
    exact Grows.append_plain missing rfl (fun _ _ => rfl)
      ⟨by simp, by simpa [Table.style] using plain'⟩
  | more found =>
    refine Grows.replace_tables found ?_ ?_
    · intro f mem
      cases List.mem_singleton.mp mem
      refine .inl ?_
      rw [Table.shapeAt_cons, Table.find?_replace_self found]
      rfl
    · intro full
      refine ⟨by simp, List.forall_mem_append.mpr ⟨full.2, ?_⟩⟩
      simpa [Table.style] using plain'

theorem grows_of_pair {a : Assembly} (inside : Inner facts) (grows : Grows facts a.current.table t)
    {root' : Table} (closed : { a with current := { a.current with table := t } }.close =
      some root') :
    ∃ root, a.close = some root ∧ Grows (facts.map (Fact.under a.here)) root root' := by
  rw [← map_under_nil facts] at grows
  have rises := (Grows.rises inside).close grows closed
  rwa [List.append_nil] at rises

theorem grows_of_header {isArray : Bool} {last : Key} {decor : Decor} {root root' : Table}
    {headers : Nat} {a : Assembly}
    (opened : openTable isArray path last decor root headers = some a)
    (closed : a.close = some root') :
    Grows [(names (path ++ [last]), if isArray then .tables else .table)] root root' := by
  obtain ⟨edit, done, headed⟩ := headed_of_open opened closed
  have grows := Grows.within ⟨by simp, by simp⟩
    (fun edited => grows_of_headed rfl rfl (headed edited)) done
  simpa [Fact.under, names] using grows

theorem grows_of_run {statements : List (String × Statement)} {a b : Assembly} {root' : Table}
    (run : Run statements a b) (closed : b.close = some root') :
    ∃ root, a.close = some root ∧
      Grows (factsOf a.here (statements.map fun s => s.2.said)) root root' := by
  induction run with
  | nil => exact ⟨root', closed, Grows.refl root'⟩
  | pair added _ ih =>
    obtain ⟨middle, closed, later⟩ := ih closed
    obtain ⟨root, closed, first⟩ := grows_of_pair ⟨by simp, by simp [names]⟩
      (Grows.addPair added) closed
    exact ⟨root, closed, first.trans later⟩
  | header before opened _ ih =>
    obtain ⟨middle, closed, later⟩ := ih closed
    rw [(opens_of_openTable opened).here] at later
    exact ⟨_, before, (grows_of_header opened closed).trans later⟩

end Assembly

/-- A tree that holds what facts say, and no more. -/
structure Told (facts : List Fact) (t : Table) : Prop where
  met : ∀ f ∈ facts, Met t f
  explained : ∀ path shape, t.shapeAt path = some shape → path = [] ∨ Explains facts path shape

theorem told_of_parse {text : String} {d : Document} (parsed : Document.parse text = some d) :
    ∃ statements, statements? text = some (statements, d.trailing) ∧
      Told (factsOf [] (statements.map fun s => s.2.said)) d.root ∧ d.root.Sound ∧
      d.root.style = ⟨false, false, .none, some 0⟩ := by
  obtain ⟨statements, a, read, run, closed⟩ := Document.run_of_parse parsed
  obtain ⟨root, start, grows⟩ := Assembly.grows_of_run run closed
  cases start
  refine ⟨statements, read, ⟨grows.met, fun path shape is => ?_⟩, grows.sound trivial, grows.style⟩
  rcases grows.explained path shape is with empty | explains
  · cases path with
    | nil => exact .inl rfl
    | cons name rest => cases empty
  · exact .inr explains

end ClassDiagram.Toml
