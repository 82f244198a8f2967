import ClassDiagram.Proofs.Dump.Parts

/-! What an identifier tells of a declaration. Where the names have no dots and no backticks, the names
of the types around, the name and the number of generic parameters can be read off it. The generic
parameters of the types around are not in it. -/

namespace ClassDiagram

namespace TypeDecl

/-- A name without the characters that stand between the parts of an identifier. -/
structure PlainName (name : String) : Prop where
  some : name ≠ ""
  notDot : '.' ∉ name.toList
  notTick : '\x60' ∉ name.toList

def lastPiece (name : String) (arity : Nat) : String :=
  name ++ if arity = 0 then "" else "\x60" ++ toString arity

theorem notMem_toString (n : Nat) {c : Char} (other : c.isDigit = false) :
    c ∉ (toString n).toList := by
  rw [Nat.toString_eq_repr, Nat.toList_repr]
  intro mem
  have digit := Nat.isDigit_of_mem_toDigits (by decide) (by decide) mem
  rw [other] at digit
  cases digit

theorem toString_inj {n k : Nat} (same : toString n = toString k) : n = k := by
  rw [Nat.toString_eq_repr, Nat.toString_eq_repr] at same
  have digits := congrArg (fun s => Nat.ofDigitChars 10 s.toList 0) same
  simpa only [Nat.toList_repr, Nat.ofDigitChars_ten_toDigits] using digits

section

variable {scope name name' : String} {containing containing' : List String} {arity arity' : Nat}

theorem dot_notMem_lastPiece (plain : PlainName name) (arity : Nat) :
    '.' ∉ (lastPiece name arity).toList := by
  have digits := notMem_toString arity (c := '.') (by decide)
  rw [lastPiece, String.toList_append, List.mem_append, not_or]
  refine ⟨plain.notDot, ?_⟩
  split
  · decide
  · simpa using digits

theorem split_lastPiece (plain : PlainName name) (arity : Nat) :
    Text.split '\x60' (lastPiece name arity) =
      name :: if arity = 0 then [] else [toString arity] := by
  have digits := notMem_toString arity (c := '\x60') (by decide)
  rw [lastPiece]
  split
  · rw [String.append_empty, Text.split_of_notMem plain.notTick]
  · have tick : name ++ ("\x60" ++ toString arity) =
        name ++ String.singleton '\x60' ++ toString arity := by
      rw [String.append_assoc]
      rfl
    rw [tick, Text.split_append, Text.split_of_notMem plain.notTick, Text.split_of_notMem digits]
    rfl

theorem lastPiece_inj (plain : PlainName name) (plain' : PlainName name')
    (same : lastPiece name arity = lastPiece name' arity') : name = name' ∧ arity = arity' := by
  have pieces := congrArg (Text.split '\x60') same
  rw [split_lastPiece plain, split_lastPiece plain', List.cons.injEq] at pieces
  obtain ⟨names, arities⟩ := pieces
  refine ⟨names, ?_⟩
  split at arities <;> split at arities
  · simp_all
  · cases arities
  · cases arities
  · exact toString_inj (List.cons.inj arities).1

theorem docId_eq (around : ∀ n ∈ containing, PlainName n) :
    docId scope containing name arity =
      "T:" ++ (if scope = "" then "" else scope ++ ".") ++
        (String.singleton '.').intercalate (containing ++ [lastPiece name arity]) := by
  have named : containing.filter (· ≠ "") = containing :=
    List.filter_eq_self.mpr fun n mem => by simpa using (around n mem).some
  have pieces : ∀ ns : List String, String.join (ns.map (· ++ ".")) ++ lastPiece name arity =
      (String.singleton '.').intercalate (ns ++ [lastPiece name arity]) := by
    intro ns
    induction ns with
    | nil => simp
    | cons n ns ih =>
      rw [List.map_cons, String.join_cons, String.append_assoc, ih, List.cons_append,
        String.intercalate_cons_of_ne_nil (by simp), String.append_assoc, String.append_assoc]
      rfl
  rw [docId, List.filter_cons, named, ← pieces, lastPiece]
  by_cases global : scope = ""
  · simp [global, String.append_assoc]
  · simp [global, String.append_assoc]

theorem docId_inj (plain : PlainName name) (plain' : PlainName name')
    (around : ∀ n ∈ containing, PlainName n) (around' : ∀ n ∈ containing', PlainName n) :
    docId scope containing name arity = docId scope containing' name' arity' ↔
      containing = containing' ∧ name = name' ∧ arity = arity' := by
  have noDots : ∀ {names : List String} {n : String} {k : Nat}, (∀ n ∈ names, PlainName n) →
      PlainName n → ∀ s ∈ names ++ [lastPiece n k], '.' ∉ s.toList := by
    intro names n k around plain s mem
    rcases List.mem_append.mp mem with inside | last
    · exact (around s inside).notDot
    · exact List.mem_singleton.mp last ▸ dot_notMem_lastPiece plain k
  constructor
  · intro same
    rw [docId_eq around, docId_eq around', String.append_right_inj] at same
    have pieces := congrArg (Text.split '.') same
    rw [Text.split_intercalate (by simp) (noDots around plain),
      Text.split_intercalate (by simp) (noDots around' plain')] at pieces
    obtain ⟨containing, last⟩ := List.append_inj' pieces rfl
    exact ⟨containing, lastPiece_inj plain plain' (List.cons.inj last).1⟩
  · rintro ⟨rfl, rfl, rfl⟩
    rfl

end

end TypeDecl

namespace Dump

/-- Where a declaration stands: in a namespace, and inside of other declarations. -/
inductive Within (dump : Dump) (scope : String) : List TypeDecl → TypeDecl → Prop
  | top {d : TypeDecl} : d ∈ dump.types → d.scope = scope → Within dump scope [] d
  | nested {around : List TypeDecl} {outer d : TypeDecl} :
      Within dump scope around outer → d ∈ outer.nested → Within dump scope (around ++ [outer]) d

def symbolIn (dump : Dump) (scope : String) (around : List TypeDecl) (d : TypeDecl) : TypeSymbol :=
  d.symbol (Index.ofDump dump) scope (around.map TypeDecl.name)

/-- No identifier is written out, and no name has the characters that stand between names. -/
def Generated (dump : Dump) : Prop :=
  ∀ scope around d, dump.Within scope around d → d.id = none ∧ TypeDecl.PlainName d.name

section

variable {dump : Dump} {scope : String} {around : List TypeDecl} {d : TypeDecl}

theorem symbolIn_nested :
    (dump.symbolIn scope around d).nested = d.nested.map (dump.symbolIn scope (around ++ [d])) := by
  rw [symbolIn, TypeDecl.symbol_nested]
  induction d.nested with
  | nil => rfl
  | cons inner rest ih =>
    rw [TypeDecl.symbols, ih, List.map_cons, symbolIn, List.map_append]
    rfl

theorem symbolIn_docId :
    (dump.symbolIn scope around d).docId = some (d.idIn scope (around.map TypeDecl.name)) :=
  TypeDecl.symbol_docId ..

end

end Dump

namespace TypeSymbol

theorem occurrencesAll_eq (around ts : List TypeSymbol) :
    occurrencesAll around ts = ts.flatMap (occurrences around) := by
  induction ts with
  | nil => rfl
  | cons t ts ih => rw [occurrencesAll, ih, List.flatMap_cons]

end TypeSymbol

namespace Dump

variable {dump : Dump} {scope : String} {around : List TypeDecl} {d : TypeDecl}

theorem mem_occurrences {o : Occurrence} :
    o ∈ dump.namespaces.occurrences ↔
      ∃ d ∈ dump.types, o ∈ (dump.symbolIn d.scope [] d).occurrences [] := by
  have placed := NamespaceTree.occurrences_foldl_add TypeDecl.scope
    (fun d => d.symbol (Index.ofDump dump) d.scope []) dump.types (.empty "")
  rw [NamespaceTree.occurrences_empty, List.nil_append] at placed
  exact placed.mem_iff.trans List.mem_flatMap

theorem Within.occurrences_subset (within : dump.Within scope around d) :
    ∃ symbols, (dump.symbolIn scope around d).occurrences symbols ⊆ dump.namespaces.occurrences := by
  induction within with
  | top present here =>
    subst here
    exact ⟨[], fun o mem => mem_occurrences.mpr ⟨_, present, mem⟩⟩
  | @nested around outer inner _ inside ih =>
    obtain ⟨symbols, subset⟩ := ih
    rw [TypeSymbol.occurrences_eq, TypeSymbol.occurrencesAll_eq, symbolIn_nested] at subset
    refine ⟨symbols ++ [dump.symbolIn scope around outer], fun o mem => subset ?_⟩
    exact List.mem_cons_of_mem _ (List.mem_flatMap.mpr ⟨_, List.mem_map_of_mem inside, mem⟩)

/-- By induction on the types around: every occurrence is that of a declaration where it stands. -/
theorem within_of_mem_occurrences {around : List TypeDecl} {d : TypeDecl}
    {symbols : List TypeSymbol} {o : Occurrence} (within : dump.Within scope around d)
    (mem : o ∈ (dump.symbolIn scope around d).occurrences symbols) :
    ∃ around' d', dump.Within scope around' d' ∧ o.symbol = dump.symbolIn scope around' d' := by
  rw [TypeSymbol.occurrences_eq, TypeSymbol.occurrencesAll_eq, symbolIn_nested] at mem
  rcases List.mem_cons.mp mem with rfl | mem
  · exact ⟨around, d, within, rfl⟩
  · obtain ⟨_, mapped, mem⟩ := List.mem_flatMap.mp mem
    obtain ⟨inner, inside, rfl⟩ := List.mem_map.mp mapped
    exact within_of_mem_occurrences (.nested within inside) mem
termination_by sizeOf d
decreasing_by
  have := List.sizeOf_lt_of_mem inside
  cases d
  simp_all
  omega

theorem mem_symbols {t : TypeSymbol} :
    (∃ o ∈ dump.namespaces.occurrences, o.symbol = t) ↔
      ∃ scope around d, dump.Within scope around d ∧ t = dump.symbolIn scope around d := by
  constructor
  · rintro ⟨o, mem, rfl⟩
    obtain ⟨d, present, mem⟩ := mem_occurrences.mp mem
    obtain ⟨around, d', within, same⟩ := within_of_mem_occurrences (.top present rfl) mem
    exact ⟨d.scope, around, d', within, same⟩
  · rintro ⟨scope, around, d, within, rfl⟩
    obtain ⟨symbols, subset⟩ := within.occurrences_subset
    refine ⟨⟨symbols, dump.symbolIn scope around d⟩, subset ?_, rfl⟩
    rw [TypeSymbol.occurrences_eq]
    exact List.mem_cons_self

theorem Within.plain (within : dump.Within scope around d) (generated : dump.Generated) :
    ∀ n ∈ around.map TypeDecl.name, TypeDecl.PlainName n := by
  induction within with
  | top => exact List.forall_mem_nil _
  | nested outer _ ih =>
    rw [List.map_append, List.forall_mem_append]
    exact ⟨ih, by simpa using (generated _ _ _ outer).2⟩

/-- Two declarations stand in types of the same names, and have the same name and number of generic
parameters themselves. The numbers of the types around may differ. -/
def SpelledAlike (around around' : List TypeDecl) (d d' : TypeDecl) : Prop :=
  around.map TypeDecl.name = around'.map TypeDecl.name ∧ d.name = d'.name ∧ d.arity = d'.arity

/-- What the identifiers of a dump and of its project tell. -/
structure IdentifiersTell (dump : Dump) (floor : AccessFloor) (path : Path) : Prop where
  symbols : ∀ t, (∃ o ∈ dump.namespaces.occurrences, o.symbol = t) ↔
    ∃ scope around d, dump.Within scope around d ∧ t = dump.symbolIn scope around d
  equal : ∀ scope around d around' d', dump.Within scope around d → dump.Within scope around' d' →
    ((dump.symbolIn scope around d).docId = (dump.symbolIn scope around' d').docId ↔
      SpelledAlike around around' d d')
  /-- A symbol that is drawn is found in the project, by its identifier, and once. -/
  drawn : ∀ o ∈ dump.namespaces.occurrences, o.drawn floor = true →
    ∃ t ∈ (dump.project floor path).types, t.id = o.symbol.id ∧
      ∀ u ∈ (dump.project floor path).types, u.id = o.symbol.id → u = t
  /-- One type stands for two declarations of a namespace only if they are spelled alike. -/
  collapsed : ∀ scope around d around' d', dump.Within scope around d →
    dump.Within scope around' d' → ∀ t ∈ (dump.project floor path).types,
      t.id = (dump.symbolIn scope around d).id → t.id = (dump.symbolIn scope around' d').id →
        SpelledAlike around around' d d'

theorem symbolIn_id (dump : Dump) (scope : String) (around : List TypeDecl) (d : TypeDecl) :
    (dump.symbolIn scope around d).id = d.idIn scope (around.map TypeDecl.name) := by
  rw [TypeSymbol.id, symbolIn_docId]

theorem idIn_inj (generated : dump.Generated) {around' : List TypeDecl} {d' : TypeDecl}
    (within : dump.Within scope around d) (within' : dump.Within scope around' d') :
    d.idIn scope (around.map TypeDecl.name) = d'.idIn scope (around'.map TypeDecl.name) ↔
      SpelledAlike around around' d d' := by
  obtain ⟨none, plain⟩ := generated _ _ _ within
  obtain ⟨none', plain'⟩ := generated _ _ _ within'
  rw [TypeDecl.idIn, TypeDecl.idIn, none, none']
  exact TypeDecl.docId_inj plain plain' (within.plain generated) (within'.plain generated)

theorem find_drawn {floor : AccessFloor} {o : Occurrence} (mem : o ∈ dump.namespaces.occurrences)
    (drawn : o.drawn floor = true) (path : Path) :
    ∃ t ∈ (dump.project floor path).types, t.id = o.symbol.id ∧
      ∀ u ∈ (dump.project floor path).types, u.id = o.symbol.id → u = t := by
  have listed : o.symbol ∈ dump.drawnSymbols floor :=
    List.mem_map_of_mem (List.mem_filter.mpr ⟨mem, drawn⟩)
  have id : o.symbol.id ∈ (dump.project floor path).types.map DeclaredType.id := by
    rw [project, Gathered.ids_typesOf, List.mem_eraseDups]
    exact List.mem_map_of_mem listed
  obtain ⟨t, present, same⟩ := List.mem_map.mp id
  have distinct : ((dump.project floor path).types.map DeclaredType.id).Nodup :=
    Gathered.nodup_ids_typesOf _
  exact ⟨t, present, same, fun u present' same' =>
    List.inj_on_of_nodup_map distinct present' present (same'.trans same.symm)⟩

/-- Where identifiers are generated from plain names, they keep declarations of a namespace apart that
are not spelled alike, in the symbols and in the project. -/
theorem identifiers_tell {dump : Dump} (generated : dump.Generated) (floor : AccessFloor)
    (path : Path) : IdentifiersTell dump floor path where
  symbols _ := mem_symbols
  equal scope around d around' d' within within' := by
    rw [symbolIn_docId, symbolIn_docId, Option.some_inj]
    exact idIn_inj generated within within'
  drawn o mem drawn := find_drawn mem drawn path
  collapsed scope around d around' d' within within' t _ same same' := by
    rw [same, symbolIn_id, symbolIn_id] at same'
    exact (idIn_inj generated within within').mp same'

theorem Within.mem_of_closed (all : List TypeDecl) (tops : ∀ d ∈ dump.types, d ∈ all)
    (closed : ∀ d ∈ all, ∀ inner ∈ d.nested, inner ∈ all) (within : dump.Within scope around d) :
    d ∈ all := by
  induction within with
  | top present _ => exact tops _ present
  | nested _ inside ih => exact closed _ ih _ inside

/-- A class, and a generic class of its name, with an `Inner` in each. -/
def overloads : Dump :=
  ⟨none, [{ TypeDecl.bare "Outer" with nested := [TypeDecl.bare "Inner"] },
    { TypeDecl.bare "Outer" with arity := 1, nested := [TypeDecl.bare "Inner"] }], []⟩

theorem generated_overloads : overloads.Generated := by
  intro scope around d within
  have listed := within.mem_of_closed (TypeDecl.bare "Inner" :: overloads.types)
    (fun _ present => List.mem_cons_of_mem _ present) (by simp [overloads, TypeDecl.bare])
  have outer : TypeDecl.PlainName "Outer" := ⟨by decide, by decide, by decide⟩
  have inner : TypeDecl.PlainName "Inner" := ⟨by decide, by decide, by decide⟩
  simp only [overloads, List.mem_cons, List.not_mem_nil, or_false] at listed
  rcases listed with rfl | rfl | rfl
  · exact ⟨rfl, inner⟩
  · exact ⟨rfl, outer⟩
  · exact ⟨rfl, outer⟩

theorem identifiers_tell_overloads :
    overloads.Generated ∧ IdentifiersTell overloads .pub ⟨"Shop.symbols.json"⟩ ∧
      "T:Outer" ∈ (overloads.project .pub ⟨"Shop.symbols.json"⟩).types.map DeclaredType.id ∧
      "T:Outer`1" ∈ (overloads.project .pub ⟨"Shop.symbols.json"⟩).types.map DeclaredType.id :=
  ⟨generated_overloads, identifiers_tell generated_overloads .pub _, by decide +kernel,
    by decide +kernel⟩

/-- Both types named `Inner` have one identifier, though only one of them stands in a generic type;
the project has one type for the two. -/
theorem overloads_share_identifier :
    overloads.Generated ∧ ∃ around d around' d', overloads.Within "" around d ∧
      overloads.Within "" around' d' ∧
      (overloads.symbolIn "" around d).docId = (overloads.symbolIn "" around' d').docId ∧
      around.map TypeDecl.arity ≠ around'.map TypeDecl.arity ∧
      (overloads.project .pub ⟨"Shop.symbols.json"⟩).types.map DeclaredType.id =
        ["T:Outer", "T:Outer.Inner", "T:Outer`1"] := by
  have outer : overloads.Within "" []
      { TypeDecl.bare "Outer" with nested := [TypeDecl.bare "Inner"] } :=
    .top List.mem_cons_self rfl
  have outer' : overloads.Within "" []
      { TypeDecl.bare "Outer" with arity := 1, nested := [TypeDecl.bare "Inner"] } :=
    .top (List.mem_cons_of_mem _ List.mem_cons_self) rfl
  refine ⟨generated_overloads, _, _, _, _, .nested outer List.mem_cons_self,
    .nested outer' List.mem_cons_self, ?_, ?_, ?_⟩
  · rw [symbolIn_docId, symbolIn_docId]
    decide +kernel
  · decide
  · decide +kernel

end Dump

end ClassDiagram
