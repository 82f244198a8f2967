import ClassDiagram.Proofs.Toml.Reprint
import ClassDiagram.Proofs.Toml.Slots

/-! Where the entries of a document come from. Each key that is read is one of a statement, each value
that of a pair, and what is written is what stands in the tree: a value that is read again is read
where one was written under the same path. -/

namespace ClassDiagram.Toml

/-- An entry somewhere in a table: the names on its way, its key, and its value unless it holds
tables. -/
inductive Table.Has : Table → List String → Key → Option Value → Prop
  | own {t : Table} {e : Key × Item} (entry : e ∈ t.entries) : t.Has [e.1.name] e.1 e.2.value?
  | inner {t c : Table} {e : Key × Item} {path : List String} {key : Key} {v? : Option Value}
      (entry : e ∈ t.entries) (below : c ∈ e.2.inner) (has : c.Has path key v?) :
      t.Has (e.1.name :: path) key v?

abbrev Gains := List String → Key → Option Value → Prop

/-- Entries that a table gets below a path; the tables on the path may be new as well. -/
def Gains.under (path : List Key) (gains : Gains) : Gains := fun p k v? =>
  k ∈ path ∧ v? = none ∨ ∃ rest, p = names path ++ rest ∧ gains rest k v?

namespace Entries

theorem entry_of_replace {name : String} {item : Item} {entries : Entries} {e : Key × Item}
    (listed : e ∈ entries.replace name item) : e ∈ entries ∨
      ∃ old, (e.1, old) ∈ entries ∧ entries.find? name = some old ∧ e.1.name = name ∧ e.2 = item := by
  induction entries with
  | nil => cases listed
  | cons first rest ih =>
    obtain ⟨key, old⟩ := first
    rw [replace] at listed
    split at listed
    next here =>
      rcases List.mem_cons.mp listed with rfl | later
      · exact .inr ⟨old, List.mem_cons_self, by rw [find?, if_pos here], here, rfl⟩
      · exact .inl (List.mem_cons_of_mem _ later)
    next other =>
      rcases List.mem_cons.mp listed with rfl | later
      · exact .inl List.mem_cons_self
      · refine (ih later).imp (List.mem_cons_of_mem _) ?_
        rintro ⟨old, mem, found, same⟩
        exact ⟨old, List.mem_cons_of_mem _ mem, by rwa [find?, if_neg other], same⟩

end Entries

namespace Table

variable {t t' : Table} {key k : Key} {name : String} {item old : Item} {p : List String}
  {v? : Option Value} {P : Gains}

theorem has_iff : t.Has p k v? ↔ ∃ e ∈ t.entries,
    p = [e.1.name] ∧ k = e.1 ∧ v? = e.2.value? ∨
      ∃ c ∈ e.2.inner, ∃ rest, p = e.1.name :: rest ∧ c.Has rest k v? := by
  constructor
  · rintro (entry | ⟨entry, below, has⟩)
    · exact ⟨_, entry, .inl ⟨rfl, rfl, rfl⟩⟩
    · exact ⟨_, entry, .inr ⟨_, below, _, rfl, has⟩⟩
  · rintro ⟨e, entry, ⟨rfl, rfl, rfl⟩ | ⟨c, below, rest, rfl, has⟩⟩
    · exact .own entry
    · exact .inner entry below has

theorem not_has_bare (style : TableStyle) : ¬ (mk style []).Has p k v? := by
  intro has
  obtain ⟨e, entry, _⟩ := has_iff.mp has
  cases entry

theorem has_mono (sub : ∀ e ∈ t'.entries, e ∈ t.entries) (has : t'.Has p k v?) : t.Has p k v? := by
  obtain ⟨e, entry, here⟩ := has_iff.mp has
  exact has_iff.mpr ⟨e, sub e entry, here⟩

theorem has_append (has : (t.append key item).Has p k v?) : t.Has p k v? ∨
    p = [key.name] ∧ k = key ∧ v? = item.value? ∨
      ∃ c ∈ item.inner, ∃ rest, p = key.name :: rest ∧ c.Has rest k v? := by
  obtain ⟨e, entry, here⟩ := has_iff.mp has
  rcases List.mem_append.mp entry with old | last
  · exact .inl (has_iff.mpr ⟨e, old, here⟩)
  · obtain rfl := List.mem_singleton.mp last
    exact .inr here

theorem has_append_tables (bare : item.value? = none)
    (inner : ∀ c ∈ item.inner, ∀ p, c.Has p k v? → P p k v?)
    (has : (t.append key item).Has p k v?) :
    t.Has p k v? ∨ k = key ∧ v? = none ∨ ∃ rest, p = key.name :: rest ∧ P rest k v? := by
  rcases has_append has with old | ⟨_, rfl, rfl⟩ | ⟨c, below, rest, rfl, there⟩
  · exact .inl old
  · exact .inr (.inl ⟨rfl, bare⟩)
  · exact .inr (.inr ⟨rest, rfl, inner c below rest there⟩)

theorem has_replace_tables (found : t.find? name = some old)
    (inner : ∀ c ∈ item.inner, ∀ p, c.Has p k v? →
      (∃ c' ∈ old.inner, c'.Has p k v?) ∨ P p k v?) (bare : item.value? = old.value?)
    (has : (t.replace name item).Has p k v?) :
    t.Has p k v? ∨ ∃ rest, p = name :: rest ∧ P rest k v? := by
  obtain ⟨e, entry, here⟩ := has_iff.mp has
  rcases Entries.entry_of_replace entry with there | ⟨old', there, found', rfl, rfl⟩
  · exact .inl (has_iff.mpr ⟨e, there, here⟩)
  · obtain rfl : old = old' := Option.some.inj (found.symm.trans found')
    rcases here with ⟨rfl, rfl, rfl⟩ | ⟨c, below, rest, rfl, inside⟩
    · exact .inl (has_iff.mpr ⟨_, there, .inl ⟨rfl, rfl, bare⟩⟩)
    · rcases inner c below rest inside with ⟨c', below', before⟩ | new
      · exact .inl (has_iff.mpr ⟨_, there, .inr ⟨c', below', rest, rfl, before⟩⟩)
      · exact .inr ⟨rest, rfl, new⟩

end Table

/-! ### Edits at a path -/

section

variable {α : Type} {dotted : Bool} {edit : Table → Option (α × Table)} {path : List Key}
  {t t' : Table} {a : α} {p : List String} {k : Key} {v? : Option Value} {P : Gains}

/-- A table gains at a path what the table there does, and the tables on the path. What is taken out
was there. -/
theorem Table.has_of_within {Q : α → Gains}
    (step : ∀ {x a y}, edit x = some (a, y) → ∀ p k v?,
      (y.Has p k v? → x.Has p k v? ∨ P p k v?) ∧ (Q a p k v? → x.Has p k v?))
    (done : t.within dotted edit path = some (a, t')) (p : List String) (k : Key)
    (v? : Option Value) : (t'.Has p k v? → t.Has p k v? ∨ P.under path p k v?) ∧
      (Q a p k v? → t.Has (names path ++ p) k v?) := by
  induction path generalizing t t' p with
  | nil =>
    obtain ⟨got, took⟩ := step done p k v?
    exact ⟨fun has => (got has).imp_right fun new => .inr ⟨p, rfl, new⟩, took⟩
  | cons key path ih =>
    have up : ∀ {p}, t.Has p k v? ∨ (∃ rest, p = key.name :: rest ∧ P.under path rest k v?) →
        t.Has p k v? ∨ P.under (key :: path) p k v? := by
      rintro p (old | ⟨_, rfl, ⟨mem, none⟩ | ⟨rest, rfl, new⟩⟩)
      · exact .inl old
      · exact .inr (.inl ⟨List.mem_cons_of_mem key mem, none⟩)
      · exact .inr (.inr ⟨rest, rfl, new⟩)
    cases way_of_within done with
    | @missing inner missing below =>
      refine ⟨fun has => ?_, fun took => absurd ((ih below p).2 took) (not_has_bare _)⟩
      have inner : ∀ c ∈ (Item.table inner).inner, ∀ p, c.Has p k v? → P.under path p k v? := by
        simp only [Item.inner, List.mem_singleton, forall_eq]
        exact fun p has => ((ih below p).1 has).resolve_left (not_has_bare _)
      rcases has_append_tables rfl inner has with old | ⟨rfl, none⟩ | new
      · exact .inl old
      · exact .inr (.inl ⟨List.mem_cons_self, none⟩)
      · exact up (.inr new)
    | @table inner inner' found _ below =>
      obtain ⟨e, entry, named, same⟩ := Entries.mem_of_find? found
      have here : inner ∈ e.2.inner := by simp [same, Item.inner]
      have changed : ∀ c ∈ (Item.table inner').inner, ∀ p, c.Has p k v? →
          (∃ c' ∈ (Item.table inner).inner, c'.Has p k v?) ∨ P.under path p k v? := by
        simp only [Item.inner, List.mem_singleton, forall_eq, exists_eq_left]
        exact fun p => (ih below p).1
      refine ⟨fun has => up (has_replace_tables found changed rfl has), fun took => ?_⟩
      have there := Has.inner entry here ((ih below p).2 took)
      rwa [named] at there
    | @tables ts last last' found some below =>
      obtain ⟨e, entry, named, same⟩ := Entries.mem_of_find? found
      have mem := List.mem_of_getLast? some
      have here : last ∈ e.2.inner := by simp [same, Item.inner, mem]
      have changed : ∀ c ∈ (Item.tables (ts.dropLast ++ [last'])).inner, ∀ p, c.Has p k v? →
          (∃ c' ∈ (Item.tables ts).inner, c'.Has p k v?) ∨ P.under path p k v? := by
        refine List.forall_mem_append.mpr ⟨fun c early p has =>
          .inl ⟨c, List.dropLast_subset ts early, has⟩, ?_⟩
        simp only [List.mem_singleton, forall_eq]
        exact fun p has => ((ih below p).1 has).imp_left fun has => ⟨last, mem, has⟩
      refine ⟨fun has => up (has_replace_tables found changed rfl has), fun took => ?_⟩
      have there := Has.inner entry here ((ih below p).2 took)
      rwa [named] at there

end

/-! ### Documents that are read -/

/-- The entries that statements give, where `here` is the path of the last header. -/
def given (here : List String) : List (String × Statement) → Gains
  | [], _, _, _ => False
  | (_, .header _ path last _) :: rest, p, k, v? =>
    k ∈ path ++ [last] ∧ v? = none ∨ given (names (path ++ [last])) rest p k v?
  | (leading, .pair q) :: rest, p, k, v? =>
    (k ∈ q.path ∧ v? = none ∨
      p = here ++ names (q.path ++ [q.key]) ∧ k = q.placed leading ∧ v? = some q.value) ∨
        given here rest p k v?

namespace Assembly

variable {a b : Assembly} {t t' parent root : Table} {key k : Key} {p : List String}
  {v? : Option Value}

def Has (a : Assembly) : Gains := fun p k v? =>
  a.root.Has p k v? ∨ (k ∈ a.current.path ∨ a.current.last = some k) ∧ v? = none ∨
    ∃ rest, p = a.here ++ rest ∧ a.current.table.Has rest k v?

theorem has_of_put {isArray : Bool} (put : Put key t parent isArray t') (has : t'.Has p k v?) :
    parent.Has p k v? ∨ k = key ∧ v? = none ∨ ∃ rest, p = key.name :: rest ∧ t.Has rest k v? := by
  cases put with
  | table _ => exact Table.has_append_tables (P := t.Has) rfl (by simp [Item.inner]) has
  | array _ => exact Table.has_append_tables (P := t.Has) rfl (by simp [Item.inner]) has
  | @more ts found =>
    have changed : ∀ c ∈ (Item.tables (ts ++ [t])).inner, ∀ p, c.Has p k v? →
        (∃ c' ∈ (Item.tables ts).inner, c'.Has p k v?) ∨ t.Has p k v? := by
      refine List.forall_mem_append.mpr ⟨fun c mem p has => .inl ⟨c, mem, has⟩, ?_⟩
      simp only [List.mem_singleton, forall_eq]
      exact fun p => .inr
    exact (Table.has_replace_tables found changed rfl has).imp_right .inr

theorem has_of_close (closed : a.close = some root) (has : root.Has p k v?) : a.Has p k v? := by
  cases close_eq_some_iff.mp closed with
  | whole _ here => exact .inr (.inr ⟨p, by simp [here], has⟩)
  | @put key _ _ last here done =>
    let put : Gains := fun p k v? =>
      k = key ∧ v? = none ∨ ∃ rest, p = key.name :: rest ∧ a.current.table.Has rest k v?
    have gains := (Table.has_of_within (P := put) (Q := fun _ _ _ _ => False)
      (fun done p k v? => ⟨has_of_put (putTable_eq_some_iff.mp done), False.elim⟩) done p k v?).1 has
    rcases gains with old | ⟨mem, none⟩ | ⟨_, rfl, ⟨rfl, none⟩ | ⟨rest, rfl, own⟩⟩
    · exact .inl old
    · exact .inr (.inl ⟨.inl mem, none⟩)
    · exact .inr (.inl ⟨.inr last, none⟩)
    · exact .inr (.inr ⟨rest, by simp [here], own⟩)

theorem has_of_taken {entries : Entries} (style : TableStyle)
    (taken : Taken key parent entries t') :
    (t'.Has p k v? → parent.Has p k v?) ∧
      ((Table.mk style entries).Has p k v? → parent.Has (key.name :: p) k v?) := by
  cases taken with
  | nothing _ => exact ⟨id, fun has => absurd has (Table.not_has_bare _)⟩
  | @parental t found _ _ =>
    refine ⟨Table.has_mono fun e mem => (List.mem_filter.mp mem).1, fun has => ?_⟩
    obtain ⟨e, entry, named, same⟩ := Entries.mem_of_find? found
    have below : t ∈ e.2.inner := by simp [same, Item.inner]
    refine named ▸ Table.Has.inner entry below (Table.has_mono ?_ has)
    exact fun _ mem => mem

theorem has_of_open {isArray : Bool} {path : List Key} {last : Key} {decor : Decor} {headers : Nat}
    (opened : openTable isArray path last decor root headers = some a) (has : a.Has p k v?) :
    root.Has p k v? ∨ k ∈ path ++ [last] ∧ v? = none := by
  have keys : ∀ {k : Key}, k ∈ path ∨ some last = some k → k ∈ path ++ [last] := by
    rintro k (mem | same)
    · exact List.mem_append_left _ mem
    · cases same
      exact List.mem_append_right _ (List.mem_singleton_self _)
  cases opens_of_openTable opened with
  | array =>
    rcases has with old | ⟨mem, none⟩ | ⟨_, _, bare⟩
    · exact .inl old
    · exact .inr ⟨keys mem, none⟩
    · exact absurd bare (Table.not_has_bare _)
  | table taken =>
    let style : TableStyle := ⟨false, false, decor, some headers⟩
    have both := Table.has_of_within (P := fun _ _ _ => False)
      (Q := fun entries p k v? => ∃ rest, p = last.name :: rest ∧
        (Table.mk style entries).Has rest k v?)
      (fun take p k v? => ⟨fun has => .inl ((has_of_taken style (taken_of_takeImplicit take)).1 has), by
        rintro ⟨rest, rfl, has⟩
        exact (has_of_taken style (taken_of_takeImplicit take)).2 has⟩) taken
    rcases has with old | ⟨mem, none⟩ | ⟨more, rfl, own⟩
    · rcases (both p k v?).1 old with old | ⟨mem, none⟩ | ⟨_, _, none⟩
      · exact .inl old
      · exact .inr ⟨List.mem_append_left _ mem, none⟩
      · exact none.elim
    · exact .inr ⟨keys mem, none⟩
    · have there := (both (last.name :: more) k v?).2 ⟨more, rfl, own⟩
      exact .inl (by simpa [Assembly.here, names] using there)

theorem has_of_addPair {leading : String} {q : Pair} (added : t.addPair leading q = some t')
    (has : t'.Has p k v?) : t.Has p k v? ∨ k ∈ q.path ∧ v? = none ∨
      p = names (q.path ++ [q.key]) ∧ k = q.placed leading ∧ v? = some q.value := by
  obtain ⟨edit, done, gets⟩ := Table.gets_of_addPair added
  let value : Gains := fun p k v? =>
    p = [q.key.name] ∧ k = q.placed leading ∧ v? = some q.value
  have gains := (Table.has_of_within (P := value) (Q := fun _ _ _ _ => False)
    (fun {x a y} edited p k v? => ⟨fun has => ?_, False.elim⟩) done p k v?).1 has
  · rcases gains with old | new | ⟨_, rfl, rfl, rfl, rfl⟩
    · exact .inl old
    · exact .inr (.inl new)
    · exact .inr (.inr ⟨by simp [names], rfl, rfl⟩)
  · obtain ⟨_, _, rfl⟩ := gets edited
    rcases Table.has_append has with old | new | ⟨c, below, _⟩
    · exact .inl old
    · exact .inr new
    · cases below

theorem has_of_run {statements : List (String × Statement)} (run : Run statements a b)
    (has : b.Has p k v?) : a.Has p k v? ∨ given a.here statements p k v? := by
  induction run with
  | nil => exact .inl has
  | pair added _ ih =>
    rcases ih has with (old | keys | ⟨more, rfl, own⟩) | later
    · exact .inl (.inl old)
    · exact .inl (.inr (.inl keys))
    · rcases has_of_addPair added own with old | keys | ⟨rfl, new⟩
      · exact .inl (.inr (.inr ⟨more, rfl, old⟩))
      · exact .inr (.inl (.inl keys))
      · exact .inr (.inl (.inr ⟨rfl, new⟩))
    · exact .inr (.inr later)
  | header closed opened _ ih =>
    rcases ih has with first | later
    · rcases has_of_open opened first with old | keys
      · exact .inl (has_of_close closed old)
      · exact .inr (.inl keys)
    · exact .inr (.inr ((opens_of_openTable opened).here ▸ later))

end Assembly

theorem given_of_parse {text : String} {d : Document} (parsed : Document.parse text = some d) :
    ∃ statements, statements? text = some (statements, d.trailing) ∧
      ∀ p k v?, d.root.Has p k v? → given [] statements p k v? := by
  obtain ⟨statements, a, read, run, closed⟩ := Document.run_of_parse parsed
  refine ⟨statements, read, fun p k v? has => ?_⟩
  rcases Assembly.has_of_run run (Assembly.has_of_close closed has) with start | given
  · rcases start with bare | ⟨none | none, _⟩ | ⟨rest, _, bare⟩
    · exact absurd bare (Table.not_has_bare _)
    · cases none
    · cases none
    · exact absurd bare (Table.not_has_bare _)
  · exact given

/-! ### Documents that are read again -/

/-- The pairs among parts, each with its path, where `here` is the path of the last header. -/
def Part.pairs (here : List String) : List Part → List (List String × List Key × Value)
  | [] => []
  | .header _ path _ _ :: rest => pairs (names path) rest
  | .pair path v :: rest => (here ++ names path, path, v) :: pairs here rest

theorem pair_of_given {parts : List Part} {statements : List (String × Statement)}
    (read : List.Forall₂ Part.ReadAs parts statements) {here p : List String} {k : Key} {v : Value}
    (gives : given here statements p k (some v)) :
    ∃ path w, (p, path, w) ∈ Part.pairs here parts ∧ ∃ leading q,
      (Part.pair path w).ReadAs (leading, .pair q) ∧ k = q.placed leading ∧ v = q.value := by
  induction read generalizing here with
  | nil => cases gives
  | cons own _ ih =>
    cases own with
    | header keys =>
      rcases gives with ⟨_, none⟩ | later
      · cases none
      · rw [names_keysAgain keys] at later
        exact ih later
    | pair keys value rereads =>
      rcases gives with (⟨_, none⟩ | ⟨rfl, rfl, same⟩) | later
      · cases none
      · refine ⟨_, _, ?_, _, _, .pair keys value rereads, rfl, Option.some.inj same⟩
        rw [names_keysAgain keys]
        exact List.mem_cons_self
      · obtain ⟨path, w, mem, read⟩ := ih later
        exact ⟨path, w, List.mem_cons_of_mem _ mem, read⟩

namespace Block

theorem pairs_map (here : List String) (pairs : List (List Key × Value)) (rest : List Part) :
    Part.pairs here (pairs.map (fun q => .pair q.1 q.2) ++ rest) =
      pairs.map (fun q => (here ++ names q.1, q)) ++ Part.pairs here rest := by
  induction pairs with
  | nil => rfl
  | cons q pairs ih => simp [Part.pairs, ih]

def fullPairs (b : Block) : List (List String × List Key × Value) :=
  b.pairs.map fun q => (names (b.path ++ q.1), q)

theorem pairs_parts (b : Block) (first : Bool) (here : List String) (top : b.path = [] → here = [])
    (rest : List Part) : ∃ next, Part.pairs here (b.parts first ++ rest) =
      b.fullPairs ++ Part.pairs next rest ∧ (b.path = [] → next = []) := by
  rw [parts, fullPairs]
  cases header : b.hasHeader with
  | true =>
    refine ⟨names b.path, ?_, fun none => by simp [none, names]⟩
    simp [Section.headerPart, Part.pairs, toSection, pairs_map, names_append]
  | false =>
    refine ⟨here, ?_, top⟩
    simp only [Bool.false_eq_true, if_false, List.nil_append, pairs_map]
    by_cases none : b.path = []
    · simp [none, top none]
    · have hidden : b.isVisible = false := by simpa [hasHeader, none] using header
      simp [pairs_of_hidden hidden]

theorem pairs_partsOf {blocks : List Block} (below : ∀ b ∈ blocks, b.path ≠ []) (first : Bool)
    (here : List String) :
    Part.pairs here (partsOf first blocks) = blocks.flatMap fullPairs := by
  induction blocks generalizing first here with
  | nil => rfl
  | cons b blocks ih =>
    obtain ⟨own, below⟩ := List.forall_mem_cons.mp below
    obtain ⟨next, same, _⟩ := b.pairs_parts first here (absurd · own) (partsOf (b.still first) blocks)
    rw [partsOf, same, ih below, List.flatMap_cons]

end Block

namespace Table

variable {t : Table} {path : List Key} {q : List Key × Value} {b : Block}

theorem has_of_pairs (kept : t.Kept) (mem : q ∈ t.pairs path) : ∃ front key,
    q.1 = path ++ (front ++ [key]) ∧ t.Has (names (front ++ [key])) key (some q.2) := by
  induction t using induct generalizing path with
  | step t ih =>
    obtain ⟨e, entry, mem⟩ := mem_pairs.mp mem
    cases item : e.2 with
    | value v =>
      have own := (kept_iff.mp kept).2.2 e entry
      rw [item] at mem own
      rw [Item.pairs, Value.leaves_of_leaf own.2.2.rereads.leaf, List.mem_singleton] at mem
      subst mem
      have has := Has.own entry
      rw [item] at has
      exact ⟨[], e.1, rfl, has⟩
    | table c =>
      have below : c ∈ e.2.inner := by simp [item, Item.inner]
      rw [item, Item.pairs] at mem
      split at mem
      · obtain ⟨front, key, whole, has⟩ := ih e entry c below (kept.inner entry below).2 mem
        exact ⟨e.1 :: front, key, by simp [whole], .inner entry below has⟩
      · cases mem
    | tables ts =>
      rw [item] at mem
      cases mem

theorem has_of_blocks {isArray : Bool} (kept : t.Kept) (mem : b ∈ t.blocks path isArray)
    (pair : q ∈ b.pairs) : ∃ front key, q.1.getLast? = some key ∧
      b.path ++ q.1 = path ++ (front ++ [key]) ∧
        t.Has (names (front ++ [key])) key (some q.2) := by
  induction t using induct generalizing path isArray with
  | step t ih =>
    rcases mem_blocks.mp mem with ⟨_, rfl⟩ | ⟨e, entry, c, below, mem⟩
    · obtain ⟨front, key, whole, has⟩ := has_of_pairs kept pair
      exact ⟨front, key, by simp [whole], by simp [own, whole], has⟩
    · obtain ⟨front, key, last, whole, has⟩ := ih e entry c below (kept.inner entry below).2 mem
      exact ⟨e.1 :: front, key, last, by simp [whole], .inner entry below has⟩

end Table

/-- A key that is read, as the last one before its value, where a key is written. -/
structure Key.ReadAs (written read : Key) : Prop where
  name : read.name = written.name
  text : read.text = written.text
  leaf : read.leaf = .around (written.leaf.left .spaceAfter) (written.leaf.right .spaceAfter)
  dotted : ∃ before, read.dotted = .around before "" ∧
    (before = "" ∨ before = written.dotted.left .tight)

theorem Part.ReadAs.entry {path : List Key} {last : Key} {v : Value} {leading : String} {q : Pair}
    (read : (Part.pair (path ++ [last]) v).ReadAs (leading, .pair q)) :
    last.ReadAs (q.placed leading) ∧ ∃ w, v.ReadAs w ∧
      q.value = w.withDecor (.around (v.decor.left .spaceBefore) (v.decor.right .spaceBefore)) := by
  generalize whole : path ++ [last] = keys at read
  cases read with
  | @pair front _ last' _ _ _ again value =>
    obtain ⟨rfl, same⟩ := List.append_inj' whole rfl
    obtain rfl : last = last' := List.head_eq_of_cons_eq same
    obtain ⟨name, text, leaf, dotted⟩ := last_keysAgain again
    refine ⟨⟨name, text, ?_, _, dotted, ?_⟩, _, value, rfl⟩
    · simp [Pair.placed, leaf, Decor.around]
    · split
      · exact .inl rfl
      · exact .inr rfl

/-- A value of a document that is read again is read where a value was written under the same
names. -/
theorem Document.Kept.has_again {d d' : Document} (kept : d.Kept) (parsed : parse d.text = some d')
    {p : List String} {k : Key} {v : Value} (has : d'.root.Has p k (some v)) :
    ∃ k₀ v₀ w, d.root.Has p k₀ (some v₀) ∧ k₀.ReadAs k ∧ v₀.ReadAs w ∧
      v = w.withDecor (.around (v₀.decor.left .spaceBefore) (v₀.decor.right .spaceBefore)) := by
  obtain ⟨statements, read, gives⟩ := given_of_parse parsed
  obtain ⟨path, v₀, mem, leading, q, readAs, rfl, rfl⟩ :=
    pair_of_given (kept.readAs_text read).2 (gives p k _ has)
  obtain ⟨others, order, perm, below⟩ := Table.blocks_root kept.style
  obtain ⟨next, same, none⟩ := (d.root.own [] false).pairs_parts true [] (fun _ => rfl)
    (Block.partsOf _ others)
  rw [order, Block.partsOf, same, Block.pairs_partsOf below, ← List.flatMap_cons] at mem
  obtain ⟨b, listed, mem⟩ := List.mem_flatMap.mp mem
  obtain ⟨pair, listed', same⟩ := List.mem_map.mp mem
  obtain ⟨rfl, rfl⟩ := Prod.mk.inj same
  obtain ⟨front, k₀, last, whole, there⟩ :=
    Table.has_of_blocks kept.root (perm.mem_iff.mp listed) listed'
  obtain ⟨way, rfl⟩ := List.getLast?_eq_some_iff.mp last
  obtain ⟨key, w, value, same⟩ := readAs.entry
  have path : names (b.path ++ (way ++ [k₀])) = names (front ++ [k₀]) := congrArg names whole
  exact ⟨k₀, v₀, w, path ▸ there, key, value, same⟩

end ClassDiagram.Toml
