import ClassDiagram.Proofs.Toml.Written

/-! Keys without dots stand right under a header, and the numbers of headers tell their order: where
two documents have the same values in each table, these keys come in the same order throughout. -/

namespace ClassDiagram.Toml

namespace Row

def number (r : Row) : Nat := r.2.place.getD 0

def plain (r : Row) : Bool := r.2.place.isSome

end Row

section

variable {path : List String} {rows : List Row} {r : Row}

theorem mem_slotsIn {s : Slot} : s ∈ slotsIn path rows ↔ (path, s) ∈ rows := by
  rw [slotsIn, List.mem_filterMap]
  constructor
  · rintro ⟨r, mem, same⟩
    rw [Row.slot?] at same
    split at same
    next here =>
      cases same
      exact here ▸ mem
    next => cases same
  · exact fun mem => ⟨_, mem, by simp [Row.slot?]⟩

theorem slotsIn_cons (path : List String) (r : Row) (rows : List Row) :
    slotsIn path (r :: rows) = (r.slot? path).toList ++ slotsIn path rows := by
  rw [slotsIn, List.filterMap_cons, slotsIn]
  cases r.slot? path <;> rfl

theorem slotsIn_cons_self (r : Row) (rows : List Row) :
    slotsIn r.1 (r :: rows) = r.2 :: slotsIn r.1 rows := by
  simp [slotsIn, Row.slot?]

theorem slotsIn_filter_rows (p : Row → Bool) (path : List String) (rows : List Row) :
    slotsIn path (rows.filter p) = (slotsIn path rows).filter fun s => p (path, s) := by
  induction rows with
  | nil => rfl
  | cons r rest ih =>
    by_cases here : r.1 = path
    · subst here
      rw [slotsIn_cons_self, List.filter_cons, List.filter_cons, ← ih]
      split
      · rw [slotsIn_cons_self]
      · rfl
    · have other : ∀ rows, slotsIn path (r :: rows) = slotsIn path rows := fun rows => by
        simp [slotsIn, Row.slot?, here]
      rw [other, List.filter_cons, ← ih]
      split
      · exact other _
      · rfl

end

def Sorted (rows : List Row) : Prop := rows.Pairwise fun r s => r.number ≤ s.number

/-- Values in the order of their headers, each of which is over one table, are told by what each
table has. -/
theorem Sorted.eq_of_slotsIn {rows rows' : List Row} (sorted : Sorted rows) (sorted' : Sorted rows')
    (table : ∀ r ∈ rows, ∀ s ∈ rows, r.number = s.number → r.1 = s.1)
    (same : ∀ path, slotsIn path rows = slotsIn path rows') : rows = rows' := by
  induction rows generalizing rows' with
  | nil =>
    refine (List.eq_nil_iff_forall_not_mem.mpr fun r mem => ?_).symm
    have none := mem_slotsIn.mpr mem
    rw [← same] at none
    cases none
  | cons r rows ih =>
    have mem : ∀ s, s ∈ r :: rows ↔ s ∈ rows' := fun s => by
      have there : s.2 ∈ slotsIn s.1 (r :: rows) ↔ s.2 ∈ slotsIn s.1 rows' := by rw [same]
      rwa [mem_slotsIn, mem_slotsIn] at there
    cases rows' with
    | nil => exact absurd ((mem r).mp List.mem_cons_self) List.not_mem_nil
    | cons r' rows' =>
      obtain ⟨first, rest⟩ := List.pairwise_cons.mp sorted
      obtain ⟨first', rest'⟩ := List.pairwise_cons.mp sorted'
      -- The first ones have the least number, so they are in one table, and first there.
      have least : r.number = r'.number := by
        have above : ∀ s ∈ r :: rows, r.number ≤ s.number :=
          List.forall_mem_cons.mpr ⟨Nat.le_refl _, first⟩
        have above' : ∀ s ∈ r' :: rows', r'.number ≤ s.number :=
          List.forall_mem_cons.mpr ⟨Nat.le_refl _, first'⟩
        exact Nat.le_antisymm (above r' ((mem r').mpr List.mem_cons_self))
          (above' r ((mem r).mp List.mem_cons_self))
      have path : r.1 = r'.1 := table r List.mem_cons_self r' ((mem r').mpr List.mem_cons_self) least
      have heads := same r.1
      rw [slotsIn_cons_self, path, slotsIn_cons_self] at heads
      obtain ⟨slot, _⟩ := List.cons_eq_cons.mp heads
      obtain rfl : r = r' := Prod.ext path slot
      refine congrArg (r :: ·) (ih rest rest' (fun a mem b mem' => table a
        (List.mem_cons_of_mem r mem) b (List.mem_cons_of_mem r mem')) fun path => ?_)
      have both := same path
      rw [slotsIn_cons, slotsIn_cons] at both
      exact List.append_cancel_left both

/-! ### Values of statements -/

section

variable {headers : Nat} {here : List String} {statements : List Statement} {p : Pair} {r s : Row}

theorem path_of_plain (plain : (p.row headers here).plain) : p.path = [] := by
  by_contra some
  simp [Pair.row, Row.plain, some] at plain

theorem number_of_plain (plain : (p.row headers here).plain) : (p.row headers here).number = headers := by
  simp [Pair.row, Row.number, path_of_plain plain]

theorem number_of_rowsOf (mem : r ∈ rowsOf headers here statements) (plain : r.plain) :
    headers ≤ r.number := by
  induction statements generalizing headers here with
  | nil => cases mem
  | cons first rest ih =>
    cases first with
    | header isArray path last tail => exact (Nat.le_succ headers).trans (ih mem)
    | pair p =>
      rcases List.mem_cons.mp mem with rfl | later
      · exact (number_of_plain plain).ge
      · exact ih later

theorem sorted_rowsOf (headers : Nat) (here : List String) (statements : List Statement) :
    Sorted ((rowsOf headers here statements).filter Row.plain) := by
  induction statements generalizing headers here with
  | nil => exact .nil
  | cons first rest ih =>
    cases first with
    | header isArray path last tail => exact ih _ _
    | pair p =>
      rw [rowsOf, List.filter_cons]
      split
      next plain =>
        refine List.pairwise_cons.mpr ⟨fun r mem => ?_, ih _ _⟩
        obtain ⟨mem, own⟩ := List.mem_filter.mp mem
        exact (number_of_plain plain).trans_le (number_of_rowsOf mem own)
      next => exact ih _ _

theorem path_of_rowsOf (mem : r ∈ rowsOf headers here statements) (plain : r.plain)
    (own : r.number = headers) : r.1 = here := by
  induction statements with
  | nil => cases mem
  | cons first rest ih =>
    cases first with
    | header isArray path last tail =>
      have above : headers + 1 ≤ r.number := number_of_rowsOf mem plain
      omega
    | pair p =>
      rcases List.mem_cons.mp mem with rfl | later
      · simp [Pair.row, path_of_plain plain, names]
      · exact ih later

theorem table_of_rowsOf (mem : r ∈ rowsOf headers here statements)
    (mem' : s ∈ rowsOf headers here statements) (plain : r.plain) (plain' : s.plain)
    (same : r.number = s.number) : r.1 = s.1 := by
  induction statements generalizing headers here with
  | nil => cases mem
  | cons first rest ih =>
    cases first with
    | header isArray path last tail => exact ih mem mem'
    | pair p =>
      by_cases own : r.number = headers
      · rw [path_of_rowsOf mem plain own, path_of_rowsOf mem' plain' (same ▸ own)]
      · have later : ∀ {q : Row}, q ∈ rowsOf headers here (.pair p :: rest) → q.plain →
            q.number ≠ headers → q ∈ rowsOf headers here rest := by
          intro q mem plain other
          rcases List.mem_cons.mp mem with rfl | later
          · exact absurd (number_of_plain plain) other
          · exact later
        exact ih (later mem plain own) (later mem' plain' (same ▸ own))

end

/-! ### Values of documents -/

theorem number_of_numbered {last n m : Nat} {b : Block} {bs : List Block}
    (mem : (n, b) ∈ numberedBlocks last bs) (place : b.style.position = some m) : n = m := by
  induction bs generalizing last with
  | nil => cases mem
  | cons first rest ih =>
    rcases List.mem_cons.mp mem with same | later
    · cases same
      simp [place]
    · exact ih later

theorem number_of_rows {b : Block} {r : Row} (mem : r ∈ b.rows) (plain : r.plain) :
    b.style.position = some r.number := by
  obtain ⟨p, _, rfl⟩ := List.mem_map.mp mem
  rw [Row.plain, pairRow] at plain
  rw [Row.number, pairRow]
  dsimp only at plain ⊢
  split at plain
  next single =>
    obtain ⟨n, place⟩ := Option.isSome_iff_exists.mp plain
    rw [if_pos single, place]
    rfl
  next => cases plain

theorem Document.sorted_rows (d : Document) : Sorted (d.rows.filter Row.plain) := by
  have sorted : ((numberedBlocks 0 (d.root.blocks [] false)).mergeSort
      (fun a b => decide (a.1 ≤ b.1))).Pairwise fun a b => decide (a.1 ≤ b.1) = true :=
    List.pairwise_mergeSort (by simp; omega) (by simp; omega) _
  have number : ∀ e ∈ (numberedBlocks 0 (d.root.blocks [] false)).mergeSort
      (fun a b => decide (a.1 ≤ b.1)), ∀ r ∈ e.2.rows.filter Row.plain, r.number = e.1 := by
    intro e mem r row
    obtain ⟨row, plain⟩ := List.mem_filter.mp row
    exact (number_of_numbered (List.mem_mergeSort.mp mem) (number_of_rows row plain)).symm
  rw [Document.rows, orderedBlocks, List.flatMap_map, List.filter_flatMap]
  generalize (numberedBlocks 0 (d.root.blocks [] false)).mergeSort
    (fun a b => decide (a.1 ≤ b.1)) = l at sorted number
  refine List.pairwise_flatMap.mpr ⟨fun e mem => ?_, ?_⟩
  · refine List.pairwise_of_forall_mem_list fun r row s row' => ?_
    rw [number e mem r row, number e mem s row']
  · refine sorted.imp_of_mem fun {a b} mem mem' le r row s row' => ?_
    rw [number a mem r row, number b mem' s row']
    exact of_decide_eq_true le

end ClassDiagram.Toml
