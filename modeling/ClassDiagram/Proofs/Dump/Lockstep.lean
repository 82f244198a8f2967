import ClassDiagram.Proofs.Dump.Inheritance
import ClassDiagram.Proofs.Dump.Places
import ClassDiagram.Proofs.Dump.Traversal

/-! Two walks over the declarations of a dump: one fills the index, the other one makes the type
symbols. Each keeps the names of the types around on a stack of its own. It puts the name of a type
on it before it goes into the type, and takes off whatever is on top when it comes out. The walks
stay in step: they hand back the stack that they are given, they use the same identifiers in the
same order, and they come to the index and to the symbols of the dump. -/

namespace ClassDiagram

namespace Dump

namespace Index

/-- Adds an entry, unless there is one of its identifier. -/
def orInsert (index : Index) (e : Entry) : Index :=
  match index.entry? e.id with
  | some _ => index
  | none => index ++ [e]

theorem entry?_orInsert (index : Index) (e : Entry) (id : String) :
    Index.entry? (index.orInsert e) id = Index.entry? (index ++ [e]) id := by
  rw [orInsert]
  cases known : index.entry? e.id with
  | none => rfl
  | some first =>
    rw [ entry?, entry?, List.find?_append]
    by_cases same : e.id = id
    · subst same
      rw [← entry?, known, Option.some_or]
    · have other : ([e].find? fun e => e.id = id) = none := by simpa using same
      rw [other, Option.or_none]

theorem entry?_foldl_orInsert (es index : Index) (id : String) :
    Index.entry? (es.foldl orInsert index) id = Index.entry? (index ++ es) id := by
  induction es generalizing index with
  | nil => rw [List.foldl_nil, List.append_nil]
  | cons e es ih =>
    have first := entry?_orInsert index e id
    rw [ entry?, entry?] at first
    rw [List.foldl_cons, ih, List.append_cons, entry?, entry?, List.find?_append, first,
      ← List.find?_append]

theorem nodup_foldl_orInsert (es : Index) {index : Index}
    (distinct : (index.map Entry.id).Nodup) :
    ((es.foldl orInsert index).map Entry.id).Nodup := by
  induction es generalizing index with
  | nil => exact distinct
  | cons e es ih =>
    refine ih ?_
    rw [orInsert]
    split
    · exact distinct
    next missing =>
      have new : e.id ∉ index.map Entry.id := by
        simpa [ entry?] using missing
      rw [List.map_append]
      exact distinct.append (List.nodup_singleton _) (by simpa using new)

end Index

/-- What the walk that fills an index goes on with. -/
structure Filling where
  /-- The names of the types around, the innermost one last. -/
  containing : List String
  /-- The identifiers that were used, also those that were known before. -/
  used : List String
  entries : Index

namespace Filling

def enter (e : Entry) (s : Filling) : Filling :=
  { s with used := s.used ++ [e.id], entries := s.entries.orInsert e }

def push (name : String) (s : Filling) : Filling :=
  { s with containing := s.containing ++ [name] }

def pop (s : Filling) : Filling := { s with containing := s.containing.dropLast }

def entered (s : Filling) (es : Index) : Filling :=
  { s with used := s.used ++ es.map Entry.id, entries := es.foldl Index.orInsert s.entries }

theorem entered_nil (s : Filling) : s.entered [] = s := by
  rw [entered, List.map_nil, List.append_nil, List.foldl_nil]

theorem enter_entered (s : Filling) (e : Entry) (es : Index) :
    (s.enter e).entered es = s.entered (e :: es) := by
  simp [entered, enter]

theorem entered_entered (s : Filling) (es es' : Index) :
    (s.entered es).entered es' = s.entered (es ++ es') := by
  rw [entered, entered, entered, List.map_append, List.append_assoc, List.foldl_append]

/-- What was put on the stack is what is taken off, since nothing in between leaves a name on it. -/
theorem pop_entered_push (s : Filling) (name : String) (es : Index) :
    ((s.push name).entered es).pop = s.entered es := by
  rw [pop, entered, push, List.dropLast_concat, entered]

end Filling

namespace Index

mutual

def insert (scope : String) : TypeDecl → StateM Filling Unit
  | d@⟨name, _, _, _, _, _, _, _, _, _, base, interfaces, nested⟩ => do
    let s ← get
    set (s.enter ⟨d.idIn scope s.containing, base, interfaces⟩)
    modify (Filling.push name)
    insertAll scope nested
    modify Filling.pop

def insertAll (scope : String) : List TypeDecl → StateM Filling Unit
  | [] => return
  | d :: ds => do
    insert scope d
    insertAll scope ds

end

theorem run_insert_of_nested {scope : String} {d : TypeDecl}
    (nested : ∀ s, (insertAll scope d.nested).run s =
      ((), s.entered (ofTypes scope s.containing d.nested))) (s : Filling) :
    (insert scope d).run s = ((), s.entered (ofType scope s.containing d)) := by
  let own : Entry := ⟨d.idIn scope s.containing, d.base, d.interfaces⟩
  calc (insert scope d).run s
    _ = ((), ((insertAll scope d.nested).run ((s.enter own).push d.name)).2.pop) := by
        cases d
        rfl
    _ = ((), (s.enter own).entered (ofTypes scope (s.containing ++ [d.name]) d.nested)) := by
        -- The nested walk leaves the name on top, so this is what is taken off.
        rw [nested, Filling.pop_entered_push]
        rfl
    _ = ((), s.entered (ofType scope s.containing d)) := by
        rw [Filling.enter_entered, ofType_eq]

mutual

theorem run_insert (scope : String) (d : TypeDecl) (s : Filling) :
    (insert scope d).run s = ((), s.entered (ofType scope s.containing d)) := by
  match d with
  | ⟨_, _, _, _, _, _, _, _, _, _, _, _, nested⟩ =>
    exact run_insert_of_nested (fun s => run_insertAll scope nested s) s

theorem run_insertAll (scope : String) (ds : List TypeDecl) (s : Filling) :
    (insertAll scope ds).run s = ((), s.entered (ofTypes scope s.containing ds)) := by
  match ds with
  | [] =>
    rw [ofTypes, Filling.entered_nil]
    rfl
  | d :: ds =>
    have first := run_insert scope d s
    have rest := run_insertAll scope ds (s.entered (ofType scope s.containing d))
    calc (insertAll scope (d :: ds)).run s
      _ = (insertAll scope ds).run ((insert scope d).run s).2 := rfl
      _ = ((), (s.entered (ofType scope s.containing d)).entered
            (ofTypes scope s.containing ds)) := by
          rw [first, rest]
          rfl
      _ = ((), s.entered (ofTypes scope s.containing (d :: ds))) := by
          rw [Filling.entered_entered, ofTypes]

end

end Index

end Dump

namespace TypeDecl

mutual

def build (index : Dump.Index) (scope : String) : TypeDecl → StateM (List String) TypeSymbol
  | d@⟨name, _, _, _, kind, access, isAbstract, isSealed, isStatic, inSource, base,
      interfaces, nested⟩ => do
    let containing ← get
    modify (· ++ [name])
    let inside ← buildAll index scope nested
    modify List.dropLast
    return {
      name, scope, kind, isAbstract, isSealed, isStatic, inSource, base
      docId := some (d.idIn scope containing)
      access := access.getD (defaultAccess containing)
      interfaces := Dump.allInterfaces index base interfaces
      nested := inside }

def buildAll (index : Dump.Index) (scope : String) :
    List TypeDecl → StateM (List String) (List TypeSymbol)
  | [] => return []
  | d :: ds => do
    let symbol ← build index scope d
    let rest ← buildAll index scope ds
    return symbol :: rest

end

theorem run_build_of_nested {index : Dump.Index} {scope : String} {d : TypeDecl}
    (nested : ∀ containing, (buildAll index scope d.nested).run containing =
      (symbols index scope containing d.nested, containing)) (containing : List String) :
    (d.build index scope).run containing = (d.symbol index scope containing, containing) := by
  have popped : (containing ++ [d.name]).dropLast = containing := List.dropLast_concat
  calc (d.build index scope).run containing
    _ = ({ d.symbol index scope containing with
            nested := ((buildAll index scope d.nested).run (containing ++ [d.name])).1 },
          ((buildAll index scope d.nested).run (containing ++ [d.name])).2.dropLast) := by
        cases d
        rw [symbol]
        rfl
    _ = (d.symbol index scope containing, containing) := by
        rw [nested, popped, ← symbol_nested]
        cases d.symbol index scope containing
        rfl

mutual

theorem run_build (index : Dump.Index) (scope : String) (d : TypeDecl)
    (containing : List String) :
    (d.build index scope).run containing = (d.symbol index scope containing, containing) := by
  match d with
  | ⟨_, _, _, _, _, _, _, _, _, _, _, _, nested⟩ =>
    exact run_build_of_nested (fun around => run_buildAll index scope nested around) containing

theorem run_buildAll (index : Dump.Index) (scope : String) (ds : List TypeDecl)
    (containing : List String) :
    (buildAll index scope ds).run containing = (symbols index scope containing ds, containing) := by
  match ds with
  | [] => rfl
  | d :: ds =>
    have first := run_build index scope d containing
    have rest := run_buildAll index scope ds containing
    calc (buildAll index scope (d :: ds)).run containing
      _ = (((d.build index scope).run containing).1 ::
            ((buildAll index scope ds).run ((d.build index scope).run containing).2).1,
          ((buildAll index scope ds).run ((d.build index scope).run containing).2).2) := rfl
      _ = (symbols index scope containing (d :: ds), containing) := by
          rw [first, rest, symbols]

end

section

variable {index index' : Dump.Index}

mutual

theorem symbol_congr (same : ∀ id, index.entry? id = index'.entry? id) (scope : String)
    (containing : List String) (d : TypeDecl) :
    d.symbol index scope containing = d.symbol index' scope containing := by
  match d with
  | ⟨name, _, _, _, _, _, _, _, _, _, base, interfaces, nested⟩ =>
    rw [symbol, symbol, Dump.allInterfaces_congr same base interfaces,
      symbols_congr same scope (containing ++ [name]) nested]

theorem symbols_congr (same : ∀ id, index.entry? id = index'.entry? id) (scope : String)
    (containing : List String) (ds : List TypeDecl) :
    symbols index scope containing ds = symbols index' scope containing ds := by
  match ds with
  | [] => rfl
  | d :: ds =>
    rw [symbols, symbols, symbol_congr same scope containing d,
      symbols_congr same scope containing ds]

end

end

end TypeDecl

namespace Dump

/-- The walk goes into a declaration that is not nested with nothing on the stack. -/
def Filling.insertTop (s : Filling) (d : TypeDecl) : Filling :=
  ((Index.insert d.scope d).run { s with containing := [] }).2

def filling (ds : List TypeDecl) : Filling := ds.foldl Filling.insertTop ⟨[], [], []⟩

theorem foldl_insertTop (ds : List TypeDecl) (s : Filling) (bare : s.containing = []) :
    ds.foldl Filling.insertTop s = s.entered (ds.flatMap fun d => Index.ofType d.scope [] d) := by
  induction ds generalizing s with
  | nil => exact s.entered_nil.symm
  | cons d ds ih =>
    have first : s.insertTop d = s.entered (Index.ofType d.scope [] d) := by
      have same : { s with containing := [] } = s := by rw [← bare]
      rw [Filling.insertTop, same, Index.run_insert, bare]
    rw [List.foldl_cons, first, ih (s.entered _) bare, Filling.entered_entered, List.flatMap_cons]

theorem filling_eq (ds : List TypeDecl) :
    filling ds = Filling.entered ⟨[], [], []⟩ (ds.flatMap fun d => Index.ofType d.scope [] d) :=
  foldl_insertTop ds _ rfl

def buildTop (index : Index) (d : TypeDecl) : TypeSymbol := ((d.build index d.scope).run []).1

section

variable (dump : Dump)

/-- The index that the walk comes to; the references come after the types. -/
def filled : Index := (filling (dump.types ++ dump.references)).entries

def built : List TypeSymbol := dump.types.map (buildTop dump.filled)

theorem used_types : (filling dump.types).used = dump.places.map Place.id := by
  rw [filling_eq, ← ids_declared]
  rfl

theorem entry?_filled (id : String) :
    Index.entry? dump.filled id = Index.entry? (Index.ofDump dump) id := by
  rw [filled, filling_eq]
  exact Index.entry?_foldl_orInsert _ [] id

theorem nodup_filled : (dump.filled.map Entry.id).Nodup := by
  rw [filled, filling_eq]
  exact Index.nodup_foldl_orInsert _ List.nodup_nil

theorem buildTop_filled (d : TypeDecl) :
    buildTop dump.filled d = d.symbol (Index.ofDump dump) d.scope [] := by
  rw [buildTop, TypeDecl.run_build]
  exact TypeDecl.symbol_congr dump.entry?_filled d.scope [] d

theorem preorder_built :
    dump.built.flatMap TypeSymbol.preorder =
      dump.places.map (Place.symbol (Index.ofDump dump)) := by
  rw [built, List.flatMap_map, places, List.map_flatMap]
  simp only [buildTop_filled, TypeDecl.preorder_symbol]

/-- The walks of a dump in step with each other, and with what the dump is loaded as. -/
structure InStep : Prop where
  /-- Each walk hands back the stack that it was given, whatever declaration it goes into. -/
  insert_stack : ∀ scope d s, ((Index.insert scope d).run s).2.containing = s.containing
  build_stack : ∀ index scope d containing,
    ((TypeDecl.build index scope d).run containing).2 = containing
  distinct : (dump.filled.map Entry.id).Nodup
  answers : ∀ id, Index.entry? dump.filled id = Index.entry? (Index.ofDump dump) id
  namespaces : dump.types.foldl (fun tree d => tree.add d.scope (buildTop dump.filled d))
    (.empty "") = dump.namespaces
  /-- Both walks meet the declarations of the types in the order of the places. -/
  used : (filling dump.types).used = dump.places.map Place.id
  symbols : dump.built.flatMap TypeSymbol.preorder =
    dump.places.map (Place.symbol (Index.ofDump dump))
  identifiers : (filling dump.types).used.map some =
    (dump.built.flatMap TypeSymbol.preorder).map TypeSymbol.docId
  known : ∀ t ∈ dump.built.flatMap TypeSymbol.preorder, ∃ e, t.docId = some e.id ∧
    Index.entry? dump.filled e.id = some e
  first : ∀ id, Index.entry? dump.filled id =
    ((dump.places ++ dump.referencePlaces).find? fun p => p.id = id).map Place.entry
  /-- A declaration that is alone among the types, whatever is declared among the references. -/
  alone : ∀ p ∈ dump.places, (dump.places.map Place.id).count p.id = 1 →
    Index.entry? dump.filled p.id = some ⟨p.id, p.decl.base, p.decl.interfaces⟩

theorem entry?_filled_eq (id : String) :
    Index.entry? dump.filled id =
      ((dump.places ++ dump.referencePlaces).find? fun p => p.id = id).map Place.entry := by
  rw [entry?_filled, entry?_ofDump]

end

theorem exists_entry_of_place {dump : Dump} {p : Place} (present : p ∈ dump.places) :
    ∃ e, e.id = p.id ∧ Index.entry? dump.filled p.id = some e := by
  have declared : p.id ∈ dump.declared.map Entry.id :=
    dump.ids_declared ▸ List.mem_map_of_mem present
  obtain ⟨e, _, same, found⟩ := entry?_of_declared declared
  exact ⟨e, same, (dump.entry?_filled p.id).trans found⟩

theorem entry?_of_alone {dump : Dump} {p : Place} (present : p ∈ dump.places)
    (once : (dump.places.map Place.id).count p.id = 1) :
    Index.entry? dump.filled p.id = some p.entry := by
  rw [entry?_filled_eq, List.find?_append, Place.find?_of_count_eq_one present once]
  rfl

/-- The walk that fills the index and the walk that makes the symbols use the same identifiers,
declaration by declaration, and leave their stacks as they were. -/
theorem walks_inStep (dump : Dump) : dump.InStep where
  insert_stack scope d s := by rw [Index.run_insert]; rfl
  build_stack index scope d containing := by rw [TypeDecl.run_build]
  distinct := dump.nodup_filled
  answers := dump.entry?_filled
  namespaces := by
    simp only [buildTop_filled]
    rfl
  used := dump.used_types
  symbols := dump.preorder_built
  identifiers := by
    rw [used_types, preorder_built, List.map_map, List.map_map]
    exact List.map_congr_left fun p _ => (p.decl.symbol_docId ..).symm
  known t met := by
    rw [preorder_built] at met
    obtain ⟨p, present, rfl⟩ := List.mem_map.mp met
    obtain ⟨e, same, found⟩ := exists_entry_of_place present
    exact ⟨e, same ▸ p.decl.symbol_docId .., same ▸ found⟩
  first := dump.entry?_filled_eq
  alone _ present once := entry?_of_alone present once

def drawer : TypeDecl :=
  { TypeDecl.bare "Drawer" with
    arity := 1
    interfaces := [.known "T:I"]
    nested := [{ TypeDecl.bare "Label" with id := some "T:Tag" }] }

/-- The identifier that is written out is that of another type, too, and a reference has the
identifier of the generic class. -/
def cabinet : Dump :=
  ⟨none,
    [{ TypeDecl.bare "Cabinet" with scope := "Shop", nested := [drawer] },
      { TypeDecl.bare "Tag" with base := some (.known "T:Shop.Cabinet") }],
    [{ TypeDecl.bare "Drawer" with id := some "T:Shop.Cabinet.Drawer`1" }]⟩

theorem walks_inStep_cabinet :
    ⟨"Shop", ["Cabinet"], drawer⟩ ∈ cabinet.places ∧
      (cabinet.places.map Place.id).count "T:Shop.Cabinet.Drawer`1" = 1 ∧
      Index.entry? cabinet.filled "T:Shop.Cabinet.Drawer`1" =
        some ⟨"T:Shop.Cabinet.Drawer`1", none, [.known "T:I"]⟩ ∧
      (filling cabinet.types).used =
        ["T:Shop.Cabinet", "T:Shop.Cabinet.Drawer`1", "T:Tag", "T:Tag"] := by
  have present : ⟨"Shop", ["Cabinet"], drawer⟩ ∈ cabinet.places :=
    List.mem_cons_of_mem _ List.mem_cons_self
  have self : Place.id ⟨"Shop", ["Cabinet"], drawer⟩ = "T:Shop.Cabinet.Drawer`1" := by
    decide +kernel
  have once : (cabinet.places.map Place.id).count "T:Shop.Cabinet.Drawer`1" = 1 := by
    decide +kernel
  have entry := (walks_inStep cabinet).alone _ present (by rw [self]; exact once)
  rw [self] at entry
  exact ⟨present, once, entry, by decide +kernel⟩

end Dump

end ClassDiagram
