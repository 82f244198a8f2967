import ClassDiagram.Toml.Reader

/-! A document from its statements. A header opens a table, which takes the pairs up to the next
header and is then put in its place. No table may be opened twice, and no key may be given
twice; a table that is there only as a parent may be opened later, and keeps what is in it. -/

namespace ClassDiagram.Toml

namespace Table

def isImplicit (t : Table) : Bool := t.style.implicit

def isDotted (t : Table) : Bool := t.style.dotted

/-- Edits the table at a path below a table and passes on what else the edit gives. Missing
tables are made; of an array of tables the last one is meant. A dotted key leads only into
tables that no header has opened. -/
def within {α : Type} (dotted : Bool) (edit : Table → Option (α × Table)) :
    List Key → Table → Option (α × Table)
  | [], t => edit t
  | key :: path, t =>
    match t.find? key.name with
    | none =>
      (within dotted edit path (.empty true dotted)).map fun (a, inner) =>
        (a, t.append key (.table inner))
    | some (.value _) => none
    | some (.table inner) =>
      if dotted && !inner.isImplicit then none
      else (within dotted edit path inner).map fun (a, inner) =>
        (a, t.replace key.name (.table inner))
    | some (.tables ts) =>
      match ts.getLast? with
      | none => none
      | some last =>
        (within dotted edit path last).map fun (a, last) =>
          (a, t.replace key.name (.tables (ts.dropLast ++ [last])))

def addPair (leading : String) (p : Pair) (t : Table) : Option Table :=
  let before := leading ++ p.key.leaf.before.getD ""
  let key := { p.key with leaf := ⟨some before, p.key.leaf.after⟩ }
  let edit := fun inner : Table =>
    if inner.isDotted == p.path.isEmpty || (inner.find? key.name).isSome then none
    else some ((), inner.append key (.value p.value))
  (within true edit p.path t).map Prod.snd

end Table

/-- The table that takes pairs, and where it goes in the end. -/
structure OpenTable where
  isArray : Bool
  path : List Key
  /-- None for the table of the whole document. -/
  last : Option Key
  table : Table

structure Assembly where
  root : Table
  current : OpenTable
  /-- The number of headers so far. -/
  headers : Nat

namespace Assembly

def start : Assembly where
  root := .empty false false
  current := ⟨false, [], none, .mk ⟨false, false, .none, some 0⟩ []⟩
  headers := 0

/-- Takes the table of a header out of its parent, where it is there only as a parent. -/
def takeImplicit (key : Key) (parent : Table) : Option (Entries × Table) :=
  match parent.find? key.name with
  | none => some ([], parent)
  | some (.table t) =>
    if t.isImplicit && !t.isDotted then some (t.entries, parent.remove key.name) else none
  | some _ => none

def putTable (isArray : Bool) (key : Key) (t : Table) (parent : Table) : Option (Unit × Table) :=
  match isArray, parent.find? key.name with
  | false, none => some ((), parent.append key (.table t))
  | true, none => some ((), parent.append key (.tables [t]))
  | true, some (.tables ts) => some ((), parent.replace key.name (.tables (ts ++ [t])))
  | _, some _ => none

def close (a : Assembly) : Option Table :=
  match a.current.last with
  | none => some a.current.table
  | some key =>
    (a.root.within false (putTable a.current.isArray key a.current.table)
      a.current.path).map Prod.snd

def openTable (isArray : Bool) (path : List Key) (last : Key) (decor : Decor) (root : Table)
    (headers : Nat) : Option Assembly :=
  let style : TableStyle := ⟨false, false, decor, some headers⟩
  if isArray then some ⟨root, ⟨true, path, some last, .mk style []⟩, headers⟩
  else (root.within false (takeImplicit last) path).map fun (entries, root) =>
    ⟨root, ⟨false, path, some last, .mk style entries⟩, headers⟩

def step (a : Assembly) (statement : String × Statement) : Option Assembly :=
  match statement with
  | (leading, .pair p) =>
    (a.current.table.addPair leading p).map fun t =>
      { a with current := { a.current with table := t } }
  | (leading, .header isArray path last tail) =>
    a.close.bind fun root =>
      openTable isArray path last (.around leading tail) root (a.headers + 1)

end Assembly

namespace Document

def parse (text : String) : Option Document :=
  (statements? text).bind fun (statements, trailing) =>
    (statements.foldlM Assembly.step Assembly.start).bind fun a =>
      a.close.map fun root => ⟨root, trailing⟩

end Document

end ClassDiagram.Toml
