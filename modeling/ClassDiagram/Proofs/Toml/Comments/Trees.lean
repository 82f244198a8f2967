import ClassDiagram.Proofs.Toml.Upkeep

/-! The comments of a document. The tree of a document that was read has the comments of its text,
wherever they stood: a statement brings in the ones before it and the one at its end, and no
statement loses what the tree has already. -/

namespace ClassDiagram.Toml

/-! ### Statements -/

def Statement.comments : Statement → Multiset String
  | header _ _ _ tail => Toml.comments tail.toList
  | pair p => p.value.comments

section

variable {cs rest : List Char} {s : Statement}

theorem ReadsStatement.comments (reads : ReadsStatement cs s rest) :
    Toml.comments cs = s.comments + Toml.comments rest := by
  have bracket : isQuote ']' = false := by decide
  have equals : isQuote '=' = false := by decide
  cases reads with
  | array found tail =>
    rw [comments_plain (by decide), comments_plain (by decide),
      comments_of_keyPath? found (by simpa using bracket), comments_plain (by decide),
      comments_plain (by decide), comments_of_lineTail tail, Statement.comments,
      String.toList_ofList]
  | table _ found tail =>
    rw [comments_plain (by decide), comments_of_keyPath? found (by simpa using bracket),
      comments_plain (by decide), comments_of_lineTail tail, Statement.comments,
      String.toList_ofList]
  | @pair _ behind _ _ _ _ _ _ _ found value tail =>
    have blank : Toml.comments (blanks behind).1 = 0 := by
      simpa using comments_append_of_blank (allBlank_blanks behind) []
    rw [comments_of_keyPath? found (by simpa using equals), comments_plain (by decide),
      ← comments_of_blanks behind, (comments_of_value? value).2, comments_of_lineTail tail,
      Statement.comments, Value.comments_withDecor]
    simp only [Decor.comments, Decor.around, Option.getD_some, String.toList_ofList, blank, zero_add]
    exact (add_assoc _ _ _).symm

def commentsOfRun (statements : List (String × Statement)) : Multiset String :=
  (statements.map fun s => comments s.1.toList + s.2.comments).sum

theorem ReadsStatements.comments {reversed statements : List (String × Statement)}
    {trailing : String} (reads : ReadsStatements reversed cs statements trailing) :
    commentsOfRun reversed + Toml.comments cs =
      commentsOfRun statements + Toml.comments trailing.toList := by
  induction reads with
  | done skip =>
    rw [comments_of_trivia skip, commentsOfRun, commentsOfRun, List.map_reverse, List.sum_reverse,
      String.toList_ofList, comments_nil, add_zero]
  | more skip _ statement _ ih =>
    rw [← ih, comments_of_trivia skip, statement.comments, commentsOfRun, commentsOfRun,
      List.map_cons, List.sum_cons, String.toList_ofList]
    ac_rfl

theorem comments_of_statements? {text : String} {statements : List (String × Statement)}
    {trailing : String} (read : statements? text = some (statements, trailing)) :
    comments text.toList = commentsOfRun statements + comments trailing.toList := by
  have told := (reads_of_readStatements read).comments
  have unmarked : comments (dropByteOrderMark text.toList) = comments text.toList := by
    unfold dropByteOrderMark
    split
    · next rest same => rw [same, comments_plain (by decide)]
    · rfl
  rwa [unmarked, commentsOfRun, List.map_nil, List.sum_nil, zero_add] at told

end

/-! ### Trees -/

mutual

def Item.comments (key : Key) : Item → Multiset String
  | .value v => key.leaf.comments + v.comments
  | .table t => t.comments
  | .tables ts => commentsOfAll ts

def Table.comments : Table → Multiset String
  | .mk style entries => style.decor.comments + commentsOf entries

def commentsOf : Entries → Multiset String
  | [] => 0
  | (key, item) :: rest => item.comments key + commentsOf rest

def commentsOfAll : List Table → Multiset String
  | [] => 0
  | t :: ts => t.comments + commentsOfAll ts

end

theorem commentsOf_eq_sum (entries : Entries) :
    commentsOf entries = (entries.map fun e => e.2.comments e.1).sum := by
  induction entries with
  | nil => rfl
  | cons e rest ih =>
    obtain ⟨key, item⟩ := e
    rw [commentsOf, ih]
    rfl

theorem commentsOfAll_eq_sum (ts : List Table) : commentsOfAll ts = (ts.map Table.comments).sum := by
  induction ts with
  | nil => rfl
  | cons t ts ih => rw [commentsOfAll, ih]; rfl

theorem commentsOf_append (first second : Entries) :
    commentsOf (first ++ second) = commentsOf first + commentsOf second := by
  simp only [commentsOf_eq_sum, List.map_append, List.sum_append]

theorem commentsOfAll_append (first second : List Table) :
    commentsOfAll (first ++ second) = commentsOfAll first + commentsOfAll second := by
  simp only [commentsOfAll_eq_sum, List.map_append, List.sum_append]

namespace Table

variable {t inner : Table} {key : Key} {name : String} {item old : Item}
  {lost gained : Multiset String}

theorem comments_eq (t : Table) : t.comments = t.style.decor.comments + commentsOf t.entries := by
  cases t
  rfl

theorem comments_empty (implicit dotted : Bool) : (empty implicit dotted).comments = 0 := by
  simp [comments_eq, empty, style, entries, commentsOf]

theorem comments_append (t : Table) (key : Key) (item : Item) :
    (t.append key item).comments = t.comments + item.comments key := by
  have entries : (t.append key item).entries = t.entries ++ [(key, item)] := rfl
  rw [comments_eq, comments_eq, style_append, entries, commentsOf_append, commentsOf, commentsOf,
    add_zero, add_assoc]

theorem comments_replace (found : t.find? name = some old)
    (change : ∀ key, item.comments key + lost = old.comments key + gained) :
    (t.replace name item).comments + lost = t.comments + gained := by
  have changed : ∀ {entries : Entries}, entries.find? name = some old →
      commentsOf (entries.replace name item) + lost = commentsOf entries + gained := by
    intro entries found
    induction entries with
    | nil => cases found
    | cons e rest ih =>
      obtain ⟨key, first⟩ := e
      by_cases here : key.name = name
      · simp only [Entries.find?, if_pos here, Option.some.injEq] at found
        rw [Entries.replace, if_pos here, commentsOf, commentsOf, add_right_comm, change key, found,
          add_right_comm]
      · simp only [Entries.find?, if_neg here] at found
        rw [Entries.replace, if_neg here, commentsOf, commentsOf, add_assoc, ih found, add_assoc]
  have entries : (t.replace name item).entries = t.entries.replace name item := rfl
  rw [comments_eq, comments_eq, style_replace, entries, add_assoc, changed found, add_assoc]

theorem comments_remove (kept : t.Kept) (found : t.find? name = some (.table inner)) :
    (t.remove name).comments + inner.comments = t.comments := by
  have changed : ∀ {entries : Entries}, (entries.map (·.1.name)).Nodup →
      entries.find? name = some (.table inner) →
      commentsOf (entries.remove name) + inner.comments = commentsOf entries := by
    intro entries distinct found
    induction entries with
    | nil => cases found
    | cons e rest ih =>
      obtain ⟨key, first⟩ := e
      obtain ⟨fresh, distinct⟩ := List.nodup_cons.mp distinct
      by_cases here : key.name = name
      · simp only [Entries.find?, if_pos here, Option.some.injEq] at found
        have others : Entries.remove name rest = rest := by
          refine List.filter_eq_self.mpr fun e mem => ?_
          have other : e.1.name ≠ name := fun same =>
            fresh (List.mem_map.mpr ⟨e, mem, same.trans here.symm⟩)
          simpa using other
        have gone : Entries.remove name ((key, first) :: rest) = Entries.remove name rest := by
          simp [Entries.remove, here]
        rw [gone, others, commentsOf, found, Item.comments, add_comm]
      · simp only [Entries.find?, if_neg here] at found
        have stays : Entries.remove name ((key, first) :: rest) =
            (key, first) :: Entries.remove name rest := by
          simp [Entries.remove, here]
        rw [stays, commentsOf, commentsOf, add_assoc, ih distinct found]
  have entries : (t.remove name).entries = t.entries.remove name := rfl
  rw [comments_eq, comments_eq t, entries, add_assoc, changed (kept_iff.mp kept).2.1 found]
  rfl

theorem comments_within {α : Type} {dotted : Bool} {edit : Table → Option (α × Table)}
    {path : List Key} {t' : Table} {a : α} (kept : t.Kept)
    (change : ∀ x y, x.Kept → edit x = some (a, y) → y.comments + lost = x.comments + gained)
    (done : t.within dotted edit path = some (a, t')) :
    t'.comments + lost = t.comments + gained := by
  induction path generalizing t t' with
  | nil => exact change _ _ kept done
  | cons key path ih =>
    cases way_of_within done with
    | missing missing below =>
      have inner := ih (kept_empty true dotted) below
      rw [comments_empty, zero_add] at inner
      rw [comments_append, Item.comments, add_assoc, inner]
    | table found _ below =>
      have inner := ih (kept.child (child?_eq_some_iff.mpr found)) below
      exact comments_replace found fun _ => inner
    | @tables ts last last' found some below =>
      obtain ⟨_, _, _, all⟩ := kept.of_find? found
      have inner := ih (keptAll_iff.mp all _ (List.mem_of_getLast? some)).1 below
      have whole : ts = ts.dropLast ++ [last] :=
        (List.dropLast_append_getLast? last some).symm
      refine comments_replace found fun key => ?_
      rw [Item.comments, Item.comments]
      conv => rhs; rw [whole]
      rw [commentsOfAll_append, commentsOfAll_append, commentsOfAll, commentsOfAll, commentsOfAll,
        commentsOfAll, add_zero, add_zero, add_assoc, inner, add_assoc]

end Table

/-! ### Documents that are read -/

theorem Table.comments_addPair {leading : String} {p : Pair} {t t' : Table} (kept : t.Kept)
    (skipped : Skipped leading.toList) (blank : p.key.leaf.Blank)
    (done : t.addPair leading p = some t') :
    t'.comments = t.comments + (Toml.comments leading.toList + p.value.comments) := by
  obtain ⟨edit, done, gets⟩ := gets_of_addPair done
  suffices whole : t'.comments + 0 =
      t.comments + (Toml.comments leading.toList + p.value.comments) by simpa using whole
  refine comments_within kept (fun x y _ edited => ?_) done
  obtain ⟨_, _, rfl⟩ := gets edited
  have before : Toml.comments (leading ++ p.key.leaf.before.getD "").toList =
      Toml.comments leading.toList + Toml.comments (p.key.leaf.before.getD "").toList := by
    rw [String.toList_append, skipped.comments_append]
  have none : Toml.comments (p.key.leaf.before.getD "").toList +
      Toml.comments (p.key.leaf.after.getD "").toList = 0 := blank.comments
  rw [comments_append, Item.comments, Decor.comments, Pair.placed, Option.getD_some, before,
    add_assoc (Toml.comments leading.toList), none, add_zero, add_zero]

namespace Assembly

variable {key : Key} {t t' parent root : Table} {a b : Assembly}

theorem comments_of_taken {entries : Entries} (kept : parent.Kept)
    (taken : Taken key parent entries t') :
    t'.comments + commentsOf entries = parent.comments + 0 := by
  cases taken with
  | nothing _ => rfl
  | @parental t found implicit _ =>
    have style := (Table.kept_iff.mp (kept.child (Table.child?_eq_some_iff.mpr found))).1
    have bare : t.style.decor = .none := style.bare (.inl implicit)
    have inner : t.comments = commentsOf t.entries := by
      rw [Table.comments_eq, bare, Decor.comments_none, zero_add]
    rw [← inner, Table.comments_remove kept found, add_zero]

theorem comments_of_put {isArray : Bool} (put : Put key t parent isArray t') :
    t'.comments + 0 = parent.comments + t.comments := by
  cases put with
  | table _ => rw [Table.comments_append, Item.comments, add_zero]
  | array _ =>
    rw [Table.comments_append, Item.comments, commentsOfAll, commentsOfAll, add_zero, add_zero]
  | more found =>
    refine Table.comments_replace found fun key => ?_
    rw [Item.comments, Item.comments, commentsOfAll_append, commentsOfAll, commentsOfAll, add_zero,
      add_zero]

def comments (a : Assembly) : Multiset String := a.root.comments + a.current.table.comments

/-- Nothing is put in its place before the first header. -/
def Fresh (a : Assembly) : Prop := a.current.last = none → a.root.comments = 0

theorem comments_close (kept : a.Kept) (fresh : a.Fresh) (closed : a.close = some root) :
    root.comments = a.comments := by
  cases close_eq_some_iff.mp closed with
  | whole none _ => rw [comments, fresh none, zero_add]
  | put _ _ done =>
    have whole := Table.comments_within kept.root
      (fun _ _ _ put => comments_of_put (putTable_eq_some_iff.mp put)) done
    rwa [add_zero] at whole

theorem comments_openTable {isArray : Bool} {path : List Key} {last : Key} {decor : Decor}
    {headers : Nat} (kept : root.Kept)
    (opened : openTable isArray path last decor root headers = some a) :
    a.comments = root.comments + decor.comments ∧ a.Fresh := by
  cases opens_of_openTable opened with
  | array =>
    refine ⟨?_, nofun⟩
    rw [comments, Table.comments, commentsOf, add_zero]
  | table taken =>
    have whole := Table.comments_within kept
      (fun _ _ kept taken => comments_of_taken kept (taken_of_takeImplicit taken)) taken
    refine ⟨?_, nofun⟩
    rw [comments, Table.comments, add_left_comm, whole, add_zero, add_comm]

theorem comments_run {statements : List (String × Statement)} (kept : a.Kept) (fresh : a.Fresh)
    (all : ∀ s ∈ statements, Skipped s.1.toList ∧ s.2.Kept) (run : Run statements a b) :
    b.comments = a.comments + commentsOfRun statements ∧ b.Fresh := by
  induction run with
  | nil => exact ⟨by simp [commentsOfRun], fresh⟩
  | @pair leading p _ a _ table added _ ih =>
    obtain ⟨⟨skipped, said⟩, all⟩ := List.forall_mem_cons.mp all
    have own := said.1 p.key (List.mem_append_right _ (List.mem_singleton_self _))
    obtain ⟨later, fresh⟩ := ih (kept.pair skipped said added) fresh all
    refine ⟨?_, fresh⟩
    rw [later, comments, Table.comments_addPair kept.table skipped own.blank added,
      commentsOfRun, commentsOfRun, List.map_cons, List.sum_cons, comments]
    simp only [Statement.comments, add_assoc]
  | header closed opened _ ih =>
    obtain ⟨⟨skipped, said⟩, all⟩ := List.forall_mem_cons.mp all
    obtain ⟨told, fresh'⟩ := comments_openTable (kept.close closed) opened
    obtain ⟨later, fresh'⟩ := ih (kept.header skipped said closed opened) fresh' all
    refine ⟨?_, fresh'⟩
    rw [later, told, comments_close kept fresh closed, commentsOfRun, commentsOfRun, List.map_cons,
      List.sum_cons, add_assoc]
    rfl

end Assembly

/-- A document has the comments of the text that it was read from. -/
theorem comments_of_parse {text : String} {d : Document} (parsed : Document.parse text = some d) :
    comments text.toList = d.root.comments + comments d.trailing.toList := by
  obtain ⟨statements, a, read, run, closed⟩ := Document.run_of_parse parsed
  obtain ⟨all, _⟩ := kept_of_statements? read
  have empty : Assembly.start.root.comments = 0 := Table.comments_empty false false
  have start : Assembly.start.comments = 0 := by
    rw [Assembly.comments, empty, zero_add]
    simp [Assembly.start, Table.comments, commentsOf]
  obtain ⟨told, fresh⟩ := Assembly.comments_run Assembly.kept_start (fun _ => empty) all run
  rw [comments_of_statements? read, Assembly.comments_close (Assembly.kept_start.run all run) fresh
    closed, told, start, zero_add]

end ClassDiagram.Toml
