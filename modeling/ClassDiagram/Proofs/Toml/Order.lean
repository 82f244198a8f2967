import ClassDiagram.Proofs.Toml.Slots

/-! The order of the values in a document. Each table has the values of its pairs in the order in
which they were written, and headers are numbered as they come: in an array of tables, the numbers
below one table are before those below the next. -/

namespace ClassDiagram.Toml

/-! ### Headers and their numbers -/

/-- A table that is there only as a parent holds no values, and no more do those in it. -/
inductive Table.Idle : Table → Prop
  | intro {t : Table} (own : t.style.implicit = true → t.style.dotted = false → t.slots = [])
      (inner : ∀ e ∈ t.entries, ∀ c ∈ e.2.inner, c.Idle) : t.Idle

/-- A number of a header in a table, its own one included. -/
inductive Table.Holds (n : Nat) : Table → Prop
  | own {t : Table} (place : t.style.position = some n) : t.Holds n
  | inner {t c : Table} {e : Key × Item} (entry : e ∈ t.entries) (below : c ∈ e.2.inner)
      (holds : c.Holds n) : t.Holds n

/-- The tables of an array, each with its number, and one behind the other. -/
def Stack (ts : List Table) : Prop :=
  (∀ t ∈ ts, t.style.position.isSome) ∧
    ts.Pairwise fun t u => ∀ m, t.Holds m → ∀ n, u.Holds n → m ≤ n

inductive Table.Stacked : Table → Prop
  | intro {t : Table} (arrays : ∀ e ∈ t.entries, ∀ ts, e.2 = .tables ts → Stack ts)
      (inner : ∀ e ∈ t.entries, ∀ c ∈ e.2.inner, c.Stacked) : t.Stacked

namespace Item

def Stacked (item : Item) : Prop :=
  (∀ ts, item = .tables ts → Stack ts) ∧ ∀ c ∈ item.inner, c.Stacked

theorem stacked_value (v : Value) : (value v).Stacked := by simp [Stacked, inner]

theorem stacked_table {t : Table} (stacked : t.Stacked) : (table t).Stacked := by
  simpa [Stacked, inner] using stacked

end Item

namespace Table

variable {t : Table} {e : Key × Item} {c : Table}

theorem Idle.own (idle : t.Idle) (implicit : t.style.implicit = true)
    (plain : t.style.dotted = false) : t.slots = [] := by
  cases idle with
  | intro own _ => exact own implicit plain

theorem Idle.inner (idle : t.Idle) (entry : e ∈ t.entries) (below : c ∈ e.2.inner) : c.Idle := by
  cases idle with
  | intro _ inner => exact inner e entry c below

theorem stacked_iff : t.Stacked ↔ ∀ e ∈ t.entries, e.2.Stacked := by
  constructor
  · rintro ⟨arrays, inner⟩ e entry
    exact ⟨arrays e entry, inner e entry⟩
  · exact fun all => .intro (fun e entry => (all e entry).1) fun e entry => (all e entry).2

theorem Stacked.array (stacked : t.Stacked) (entry : e ∈ t.entries) {ts : List Table}
    (array : e.2 = .tables ts) : Stack ts :=
  (stacked_iff.mp stacked e entry).1 ts array

theorem Stacked.inner (stacked : t.Stacked) (entry : e ∈ t.entries) (below : c ∈ e.2.inner) :
    c.Stacked :=
  (stacked_iff.mp stacked e entry).2 c below

theorem holds_iff {n : Nat} : t.Holds n ↔
    t.style.position = some n ∨ ∃ e ∈ t.entries, ∃ c ∈ e.2.inner, c.Holds n := by
  constructor
  · rintro (place | ⟨entry, below, holds⟩)
    · exact .inl place
    · exact .inr ⟨_, entry, _, below, holds⟩
  · rintro (place | ⟨e, entry, c, below, holds⟩)
    · exact .own place
    · exact .inner entry below holds

theorem idle_bare (style : TableStyle) : (mk style []).Idle :=
  .intro (fun _ _ => rfl) (by simp [entries])

theorem stacked_bare (style : TableStyle) : (mk style []).Stacked :=
  .intro (by simp [entries]) (by simp [entries])

theorem holds_bare {style : TableStyle} {n : Nat} (holds : (mk style []).Holds n) :
    style.position = some n := by
  rcases holds_iff.mp holds with place | ⟨e, mem, _⟩
  · exact place
  · cases mem

end Table

/-! ### Tables that are extended -/

/-- A table that gets values behind those that it has, and at most one header, numbered `new`. -/
structure Extends (new : Option Nat) (rows : List Row) (t t' : Table) : Prop where
  style : t'.style = t.style
  slots : t.Idle → ∀ path, t'.slotsAt path = t.slotsAt path ++ slotsIn path rows
  idle : t.Idle → t'.Idle
  holds : ∀ n, t'.Holds n → t.Holds n ∨ new = some n
  stacked : t.Stacked → (∀ n m, new = some n → t.Holds m → m ≤ n) → t'.Stacked

namespace Extends

variable {new : Option Nat} {rows more : List Row} {t t' inner inner' last last' : Table} {key : Key}
  {name : String} {item : Item} {ts : List Table}

theorem of_item (item : Item) (style : t'.style = t.style)
    (entries : ∀ e ∈ t'.entries, e ∈ t.entries ∨ e.2 = item)
    (own : t.Idle → t.style.implicit = true → t.style.dotted = false → t'.slots = [])
    (slots : t.Idle → ∀ path, t'.slotsAt path = t.slotsAt path ++ slotsIn path rows)
    (idle : t.Idle → ∀ c ∈ item.inner, c.Idle)
    (holds : ∀ c ∈ item.inner, ∀ n, c.Holds n → t.Holds n ∨ new = some n)
    (stacked : t.Stacked → (∀ n m, new = some n → t.Holds m → m ≤ n) → item.Stacked) :
    Extends new rows t t' := by
  refine ⟨style, slots, fun old => .intro ?_ fun e mem c below => ?_, fun n there => ?_,
    fun old bound => Table.stacked_iff.mpr fun e mem => ?_⟩
  · rw [style]
    exact own old
  · rcases entries e mem with before | rfl
    · exact old.inner before below
    · exact idle old c below
  · rcases Table.holds_iff.mp there with place | ⟨e, mem, c, below, there⟩
    · exact .inl (.own (style ▸ place))
    · rcases entries e mem with before | rfl
      · exact .inl (.inner before below there)
      · exact holds c below n there
  · rcases entries e mem with before | rfl
    · exact Table.stacked_iff.mp old e before
    · exact stacked old bound

theorem slots_of_item (name : String) (rows : List Row) (own : t'.slots = t.slots)
    (others : ∀ other, other ≠ name → t'.find? other = t.find? other)
    (here : ∀ path, t'.slotsAt (name :: path) = t.slotsAt (name :: path) ++ slotsIn path rows)
    (path : List String) :
    t'.slotsAt path = t.slotsAt path ++ slotsIn path (rows.map (Row.under [name])) := by
  cases path with
  | nil =>
    rw [slotsIn_under_nil, List.append_nil]
    exact own
  | cons other path =>
    by_cases same : other = name
    · rw [same, slotsIn_under, here]
    · rw [slotsIn_under_other same, List.append_nil, Table.slotsAt_congr (others other same)]

theorem append (rows : List Row) (missing : t.find? key.name = none) (bare : item.value? = none)
    (here : ∀ path, (t.append key item).slotsAt (key.name :: path) = slotsIn path rows)
    (idle : ∀ c ∈ item.inner, c.Idle) (holds : ∀ c ∈ item.inner, ∀ n, c.Holds n → new = some n)
    (stacked : item.Stacked) :
    Extends new (rows.map (Row.under [key.name])) t (t.append key item) := by
  have own : (t.append key item).slots = t.slots := by
    rw [Table.slots_append, bare]
    exact List.append_nil _
  refine of_item item rfl (fun e mem => ?_)
    (fun old implicit plain => own.trans (old.own implicit plain))
    (fun _ => slots_of_item key.name rows own (fun other ne => Table.find?_append_other ne item)
      fun path => ?_)
    (fun _ => idle) (fun c below n there => .inr (holds c below n there)) (fun _ _ => stacked)
  · rcases List.mem_append.mp mem with before | last
    · exact .inl before
    · exact .inr (by rw [List.mem_singleton.mp last])
  · rw [here, Table.slotsAt_of_none missing]
    rfl

theorem append_table {implicit dotted : Bool} (missing : t.find? key.name = none)
    (grows : Extends new rows (.empty implicit dotted) inner) :
    Extends new (rows.map (Row.under [key.name])) t (t.append key (.table inner)) := by
  have idle := Table.idle_bare ⟨implicit, dotted, .none, none⟩
  have stacked := Table.stacked_bare ⟨implicit, dotted, .none, none⟩
  refine append rows missing rfl (fun path => ?_) ?_ ?_ (Item.stacked_table ?_)
  · rw [Table.slotsAt_of_table (Table.find?_append_self missing _), grows.slots idle,
      Table.empty, Table.slotsAt_bare]
    rfl
  · simpa [Item.inner] using grows.idle idle
  · intro c below n there
    rw [Item.inner, List.mem_singleton] at below
    subst below
    rcases grows.holds n there with old | new
    · cases Table.holds_bare old
    · exact new
  · refine grows.stacked stacked fun n m _ old => ?_
    cases Table.holds_bare old

theorem replace_table (found : t.find? name = some (.table inner))
    (grows : Extends new rows inner inner') :
    Extends new (rows.map (Row.under [name])) t (t.replace name (.table inner')) := by
  obtain ⟨e, entry, _, same⟩ := Entries.mem_of_find? found
  have below : inner ∈ e.2.inner := by simp [same, Item.inner]
  have own : (t.replace name (.table inner')).slots = t.slots := Table.slots_replace found rfl rfl
  refine of_item _ rfl (fun e mem => Entries.mem_replace mem)
    (fun old implicit plain => own.trans (old.own implicit plain)) (fun old => slots_of_item name rows own
      (fun other ne => Table.find?_replace_other ne _) fun path => ?_) (fun old => ?_) ?_ ?_
  · rw [Table.slotsAt_of_table (Table.find?_replace_self found _), Table.slotsAt_of_table found,
      grows.slots (old.inner entry below)]
  · simpa [Item.inner] using grows.idle (old.inner entry below)
  · simp only [Item.inner, List.mem_singleton, forall_eq]
    exact fun n there => (grows.holds n there).imp_left (.inner entry below)
  · exact fun old bound => Item.stacked_table (grows.stacked (old.inner entry below)
      fun n m is there => bound n m is (.inner entry below there))

theorem replace_last (found : t.find? name = some (.tables ts)) (some : ts.getLast? = some last)
    (grows : Extends new rows last last') :
    Extends new (rows.map (Row.under [name])) t
      (t.replace name (.tables (ts.dropLast ++ [last']))) := by
  obtain ⟨e, entry, _, same⟩ := Entries.mem_of_find? found
  have whole : ts = ts.dropLast ++ [last] := (List.dropLast_append_getLast? last some).symm
  have inner : ∀ c ∈ ts, c ∈ e.2.inner := by simp [same, Item.inner]
  have below := inner last (List.mem_of_getLast? some)
  have early : ∀ c ∈ ts.dropLast, c ∈ e.2.inner := fun c mem => inner c (List.dropLast_subset ts mem)
  have own : (t.replace name (.tables (ts.dropLast ++ [last']))).slots = t.slots :=
    Table.slots_replace found rfl rfl
  refine of_item _ rfl (fun e mem => Entries.mem_replace mem)
    (fun old implicit plain => own.trans (old.own implicit plain)) (fun old => slots_of_item name rows own
      (fun other ne => Table.find?_replace_other ne _) fun path => ?_) (fun old => ?_) ?_ ?_
  · rw [Table.slotsAt_of_tables (Table.find?_replace_self found _), Table.slotsAt_of_tables found]
    conv => rhs; rw [whole]
    rw [List.flatMap_append, List.flatMap_append, List.flatMap_singleton, List.flatMap_singleton,
      grows.slots (old.inner entry below), List.append_assoc]
  · refine List.forall_mem_append.mpr ⟨fun c mem => old.inner entry (early c mem), ?_⟩
    simpa using grows.idle (old.inner entry below)
  · refine List.forall_mem_append.mpr ⟨fun c mem n there => .inl (.inner entry (early c mem) there), ?_⟩
    simp only [List.mem_singleton, forall_eq]
    exact fun n there => (grows.holds n there).imp_left (.inner entry below)
  · intro old bound
    obtain ⟨placed, behind⟩ := old.array entry same
    rw [whole, List.pairwise_append] at behind
    obtain ⟨early', _, across⟩ := behind
    have across := fun c mem => across c mem last (List.mem_singleton_self _)
    refine ⟨?_, List.forall_mem_append.mpr ⟨fun c mem => old.inner entry (early c mem), ?_⟩⟩
    · rintro _ ⟨⟩
      refine ⟨List.forall_mem_append.mpr ⟨fun c mem => placed c (List.dropLast_subset ts mem), ?_⟩,
        List.pairwise_append.mpr ⟨early', by simp, ?_⟩⟩
      · simpa [grows.style] using placed last (List.mem_of_getLast? some)
      · simp only [List.mem_singleton, forall_eq]
        intro c mem m there n holds
        rcases grows.holds n holds with before | is
        · exact across c mem m there n before
        · exact bound n m is (.inner entry (early c mem) there)
    · have inside := grows.stacked (old.inner entry below) fun n m is there =>
        bound n m is (.inner entry below there)
      simpa using inside

theorem append_value (missing : t.find? key.name = none)
    (opened : t.style.implicit = true → t.style.dotted = true) (v : Value) :
    Extends none [([], ⟨t.place, key.name, v⟩)] t (t.append key (.value v)) := by
  refine of_item (.value v) rfl (fun e mem => ?_) (fun _ implicit plain => ?_)
    (fun _ path => ?_) (by simp [Item.inner]) (by simp [Item.inner])
    (fun _ _ => Item.stacked_value v)
  · rcases List.mem_append.mp mem with before | last
    · exact .inl before
    · exact .inr (by rw [List.mem_singleton.mp last])
  · rw [opened implicit] at plain
    cases plain
  · cases path with
    | nil => exact Table.slots_append t key (.value v)
    | cons other path =>
      have none : slotsIn (other :: path) [([], ⟨t.place, key.name, v⟩)] = [] := rfl
      rw [none, List.append_nil]
      by_cases same : other = key.name
      · rw [same, Table.slotsAt_of_none missing, Table.slotsAt, Table.find?_append_self missing]
      · exact Table.slotsAt_congr (Table.find?_append_other same _) path

section

variable {style : TableStyle}

theorem open_new (missing : t.find? key.name = none) (place : style.position = new) :
    Extends new [] t (t.append key (.table (.mk style []))) := by
  refine append [] missing rfl (fun path => ?_) ?_ ?_ (Item.stacked_table (Table.stacked_bare style))
  · rw [Table.slotsAt_of_table (Table.find?_append_self missing _), Table.slotsAt_bare]
    rfl
  · simpa [Item.inner] using Table.idle_bare style
  · simp only [Item.inner, List.mem_singleton, forall_eq]
    exact fun n holds => place.symm.trans (Table.holds_bare holds)

theorem open_parent (distinct : (t.entries.map (·.1.name)).Nodup)
    (found : t.find? key.name = some (.table inner)) (implicit : inner.style.implicit = true)
    (plain : inner.style.dotted = false) (place : style.position = new)
    (header : style.implicit = false) :
    Extends new [] t ((t.remove key.name).append key (.table (.mk style inner.entries))) := by
  obtain ⟨e, entry, _, same⟩ := Entries.mem_of_find? found
  have below : inner ∈ e.2.inner := by simp [same, Item.inner]
  have gone : (t.remove key.name).find? key.name = none := Entries.find?_remove_self key.name t.entries
  have own : ((t.remove key.name).append key (.table (.mk style inner.entries))).slots = t.slots := by
    rw [Table.slots_append]
    exact (List.append_nil _).trans (Table.slots_remove distinct found rfl)
  refine of_item (.table (.mk style inner.entries)) rfl (fun e mem => ?_)
    (fun old implicit plain => own.trans (old.own implicit plain))
    (fun old => slots_of_item key.name [] own (fun other ne => ?_) fun path => ?_) (fun old => ?_) ?_
    (fun old _ => Item.stacked_table ?_)
  · rcases List.mem_append.mp mem with before | last
    · exact .inl (List.mem_filter.mp before).1
    · exact .inr (by rw [List.mem_singleton.mp last])
  · exact (Table.find?_append_other ne _).trans (Entries.find?_remove_other ne t.entries)
  · have empty := (old.inner entry below).own implicit plain
    rw [Table.slotsAt_of_table (Table.find?_append_self gone _), Table.slotsAt_of_table found]
    refine Eq.trans ?_ (List.append_nil _).symm
    cases path with
    | nil =>
      rw [Table.slotsAt, Table.slotsAt, empty]
      rw [Table.slots, List.filterMap_eq_nil_iff] at empty ⊢
      intro e mem
      exact Option.map_eq_none_iff.mpr (Option.map_eq_none_iff.mp (empty e mem))
    | cons name path => exact Table.slotsAt_congr rfl path
  · have inside := old.inner entry below
    simp only [Item.inner, List.mem_singleton, forall_eq]
    exact .intro (by simp [Table.style, header]) fun e mem c below => inside.inner mem below
  · simp only [Item.inner, List.mem_singleton, forall_eq]
    intro n holds
    rcases Table.holds_iff.mp holds with own | ⟨e', mem, c, below', there⟩
    · exact .inr (place.symm.trans own)
    · exact .inl (.inner entry below (.inner mem below' there))
  · have inside := old.inner entry below
    exact Table.stacked_iff.mpr fun e mem => Table.stacked_iff.mp inside e mem

theorem open_array (missing : t.find? key.name = none) (place : style.position = new)
    (header : new.isSome) : Extends new [] t (t.append key (.tables [.mk style []])) := by
  refine append [] missing rfl (fun path => ?_) ?_ ?_ ⟨?_, ?_⟩
  · rw [Table.slotsAt_of_tables (Table.find?_append_self missing _), List.flatMap_singleton,
      Table.slotsAt_bare]
    rfl
  · simpa [Item.inner] using Table.idle_bare style
  · simp only [Item.inner, List.mem_singleton, forall_eq]
    exact fun n holds => place.symm.trans (Table.holds_bare holds)
  · rintro _ ⟨⟩
    exact ⟨by simpa [Table.style, place] using header, by simp⟩
  · simpa [Item.inner] using Table.stacked_bare style

theorem extend_array (found : t.find? name = some (.tables ts)) (place : style.position = new)
    (header : new.isSome) :
    Extends new [] t (t.replace name (.tables (ts ++ [.mk style []]))) := by
  obtain ⟨e, entry, _, same⟩ := Entries.mem_of_find? found
  have inner : ∀ c ∈ ts, c ∈ e.2.inner := by simp [same, Item.inner]
  have own : (t.replace name (.tables (ts ++ [.mk style []]))).slots = t.slots :=
    Table.slots_replace found rfl rfl
  refine of_item _ rfl (fun e mem => Entries.mem_replace mem)
    (fun old implicit plain => own.trans (old.own implicit plain))
    (fun old => slots_of_item name [] own (fun other ne => Table.find?_replace_other ne _)
      fun path => ?_) (fun old => ?_) ?_ ?_
  · rw [Table.slotsAt_of_tables (Table.find?_replace_self found _), Table.slotsAt_of_tables found,
      List.flatMap_append, List.flatMap_singleton, Table.slotsAt_bare]
    rfl
  · exact List.forall_mem_append.mpr
      ⟨fun c mem => old.inner entry (inner c mem), by simpa using Table.idle_bare style⟩
  · refine List.forall_mem_append.mpr ⟨fun c mem n there => .inl (.inner entry (inner c mem) there), ?_⟩
    simp only [List.mem_singleton, forall_eq]
    exact fun n holds => .inr (place.symm.trans (Table.holds_bare holds))
  · intro old bound
    obtain ⟨placed, behind⟩ := old.array entry same
    refine ⟨?_, List.forall_mem_append.mpr
      ⟨fun c mem => old.inner entry (inner c mem), by simpa using Table.stacked_bare style⟩⟩
    rintro _ ⟨⟩
    refine ⟨List.forall_mem_append.mpr ⟨placed, by simpa [Table.style, place] using header⟩,
      List.pairwise_append.mpr ⟨behind, by simp, ?_⟩⟩
    simp only [List.mem_singleton, forall_eq]
    intro c mem m there n holds
    exact bound n m (place.symm.trans (Table.holds_bare holds)) (.inner entry (inner c mem) there)

end

end Extends

/-! ### Edits at a path -/

theorem map_under_none (rows : List Row) : rows.map (Row.under []) = rows := List.map_id rows

theorem map_under_map (path below : List String) (rows : List Row) :
    (rows.map (Row.under below)).map (Row.under path) = rows.map (Row.under (path ++ below)) := by
  rw [List.map_map]
  exact List.map_congr_left fun r _ => by simp [Row.under]

theorem map_under_names (name : String) (path : List String) (rows : List Row) :
    rows.map (Row.under (name :: path)) = (rows.map (Row.under path)).map (Row.under [name]) :=
  (map_under_map [name] path rows).symm

section

variable {α : Type} {dotted : Bool} {edit : Table → Option (α × Table)} {path : List Key}
  {t t' : Table} {a : α} {new : Option Nat} {rows : List Row}

theorem Extends.within (kept : t.Kept)
    (grows : ∀ {x a y}, x.Kept → (path = [] → x = t) → edit x = some (a, y) → Extends new rows x y)
    (done : t.within dotted edit path = some (a, t')) :
    Extends new (rows.map (Row.under (names path))) t t' := by
  induction path generalizing t t' with
  | nil => exact (map_under_none rows).symm ▸ grows kept (fun _ => rfl) done
  | cons key path ih =>
    rw [names, List.map_cons, map_under_names]
    have below : ∀ inner : Table, inner.Kept → ∀ {inner'},
        inner.within dotted edit path = some (a, inner') →
          Extends new (rows.map (Row.under (names path))) inner inner' :=
      fun inner own => ih own fun kept _ => grows kept fun top => absurd top (List.cons_ne_nil key path)
    cases Table.way_of_within done with
    | missing missing next => exact append_table missing (below _ (Table.kept_empty true dotted) next)
    | table found _ next =>
      exact replace_table found (below _ (kept.child (Table.child?_eq_some_iff.mpr found)) next)
    | tables found some next =>
      obtain ⟨_, _, _, all⟩ := kept.of_find? found
      exact replace_last found some
        (below _ (keptAll_iff.mp all _ (List.mem_of_getLast? some)).1 next)

theorem Extends.rises (new : Option Nat) (rows : List Row) :
    Assembly.Rises fun path => Extends new (rows.map (Row.under path)) where
  table found grows := map_under_names .. ▸ replace_table found grows
  last found some grows := map_under_names .. ▸ replace_last found some grows

end

/-! ### Documents that are read -/

theorem Extends.addPair {leading : String} {q : Pair} {t t' : Table} {headers : Nat} (kept : t.Kept)
    (plain : t.style.implicit = false) (place : t.place = some headers)
    (done : t.addPair leading q = some t') :
    Extends none [(names q.path, ⟨if q.path = [] then some headers else none, q.key.name, q.value⟩)]
      t t' := by
  obtain ⟨edit, done, gets⟩ := Table.gets_of_addPair done
  let slot : Slot := ⟨if q.path = [] then some headers else none, q.key.name, q.value⟩
  suffices whole : Extends none ([([], slot)].map (Row.under (names q.path))) t t' by
    simpa [Row.under] using whole
  refine within kept (fun {x a y} _ top edited => ?_) done
  obtain ⟨dotted, missing, rfl⟩ := gets edited
  have own : x.place = slot.place ∧ (x.style.implicit = true → x.style.dotted = true) := by
    by_cases none : q.path = []
    · obtain rfl := top none
      exact ⟨by simp [slot, none, place], by simp [plain]⟩
    · have dotted : x.style.dotted = true := by
        rw [dotted, List.isEmpty_eq_false_iff.mpr none]
        rfl
      exact ⟨by simp [slot, none, Table.place, dotted], fun _ => dotted⟩
  have value := append_value missing own.2 q.value
  rwa [own.1] at value

namespace Assembly

variable {key : Key} {t t' parent root root' : Table} {new : Option Nat} {rows : List Row}
  {a b : Assembly}

theorem extends_of_headed {style : TableStyle} {isArray : Bool} {n : Nat} (kept : parent.Kept)
    (place : style.position = some n) (header : style.implicit = false)
    (headed : Headed key style parent isArray t') : Extends (some n) [] parent t' := by
  cases headed with
  | new missing => exact Extends.open_new missing place
  | parental found implicit plain =>
    exact Extends.open_parent (Table.kept_iff.mp kept).2.1 found implicit plain place header
  | array missing => exact Extends.open_array missing place rfl
  | more found => exact Extends.extend_array found place rfl

theorem extends_of_pair (grows : Extends new rows a.current.table t)
    (closed : { a with current := { a.current with table := t } }.close = some root') :
    ∃ root, a.close = some root ∧ Extends new (rows.map (Row.under a.here)) root root' := by
  rw [← map_under_none rows] at grows
  have rises := (Extends.rises new rows).close grows closed
  rwa [List.append_nil] at rises

theorem extends_of_header {isArray : Bool} {path : List Key} {last : Key} {decor : Decor}
    {headers : Nat} (kept : root.Kept)
    (opened : openTable isArray path last decor root headers = some a)
    (closed : a.close = some root') : Extends (some headers) [] root root' := by
  obtain ⟨edit, done, headed⟩ := headed_of_open opened closed
  exact Extends.within kept (fun kept _ edited => extends_of_headed kept rfl rfl (headed edited)) done

theorem extends_of_run {statements : List (String × Statement)} (kept : a.Kept)
    (opened : a.current.table.style.implicit = false)
    (place : a.current.table.place = some a.headers)
    (all : ∀ s ∈ statements, Skipped s.1.toList ∧ s.2.Kept)
    (run : Run statements a b) (closed : b.close = some root') :
    ∃ root, a.close = some root ∧
      (root.Idle → ∀ path, root'.slotsAt path =
        root.slotsAt path ++ slotsIn path (rowsOf a.headers a.here (statements.map Prod.snd))) ∧
      (root.Stacked → (∀ m, root.Holds m → m ≤ a.headers) → root'.Stacked) := by
  induction run with
  | nil => exact ⟨root', closed, fun _ path => (List.append_nil _).symm, fun stacked _ => stacked⟩
  | @pair leading q statements a b table added rest ih =>
    obtain ⟨⟨skipped, said⟩, later⟩ := List.forall_mem_cons.mp all
    have grows := Extends.addPair kept.table opened place added
    obtain ⟨middle, closed, slots, stacked⟩ := ih (kept.pair skipped said added)
      (by rw [grows.style, opened]) (by rw [Table.place, grows.style]; exact place) later closed
    obtain ⟨root, closed, first⟩ := extends_of_pair grows closed
    refine ⟨root, closed, fun idle path => ?_, fun old bound => ?_⟩
    · rw [slots (first.idle idle), first.slots idle, List.append_assoc, ← slotsIn_append]
      rfl
    · refine stacked (first.stacked old fun n m new => by cases new) fun m there => ?_
      rcases first.holds m there with before | new
      · exact bound m before
      · cases new
  | @header leading tail isArray path last statements a next b root before opens rest ih =>
    obtain ⟨⟨skipped, said⟩, later⟩ := List.forall_mem_cons.mp all
    have opened := opens_of_openTable opens
    have headers := opened.headers
    obtain ⟨middle, closed, slots, stacked⟩ := ih (kept.header skipped said before opens)
      (by rw [opened.style]) (by rw [Table.place, opened.style, headers]; rfl) later closed
    have first := extends_of_header (kept.close before) opens closed
    refine ⟨root, before, fun idle path => ?_, fun old bound => ?_⟩
    · have same : middle.slotsAt path = root.slotsAt path ++ [] := first.slots idle path
      rw [slots (first.idle idle), same, List.append_nil, opened.here, headers]
      rfl
    · have less : ∀ m, root.Holds m → m ≤ next.headers := fun m there =>
        (bound m there).trans (headers ▸ Nat.le_succ a.headers)
      refine stacked (first.stacked old fun n m new there => ?_) fun m there => ?_
      · cases new
        exact headers ▸ less m there
      · rcases first.holds m there with before | new
        · exact less m before
        · cases new
          exact headers.ge

end Assembly

/-- The values of a document are those of its statements, and its arrays are in the order of their
headers. -/
theorem slotsAt_of_parse {text : String} {d : Document} (parsed : Document.parse text = some d) :
    ∃ statements, statements? text = some (statements, d.trailing) ∧
      (∀ path, d.root.slotsAt path = slotsIn path (rowsOf 0 [] (statements.map Prod.snd))) ∧
      d.root.Stacked := by
  obtain ⟨statements, a, read, run, closed⟩ := Document.run_of_parse parsed
  obtain ⟨all, _⟩ := kept_of_statements? read
  obtain ⟨root, start, slots, stacked⟩ :=
    Assembly.extends_of_run Assembly.kept_start rfl rfl all run closed
  cases start
  refine ⟨statements, read, fun path => ?_, stacked (Table.stacked_bare _) fun m there => ?_⟩
  · have none : Assembly.start.current.table.slotsAt path = [] := Table.slotsAt_bare ..
    rw [slots (Table.idle_bare _), none]
    rfl
  · cases Table.holds_bare there
    exact Nat.le_refl 0

end ClassDiagram.Toml
