import ClassDiagram.Proofs.Files.Descent
import ClassDiagram.Proofs.Glob.Order

/-! What a pattern matches in a tree that has been extended: what it matched before, and paths whose
way meets a new entry. So a pattern none of whose matches meets one matches the same as before. -/

namespace ClassDiagram

namespace Glob

open Files (Location ProperName Tree Workspace)

variable {w : Workspace} {t : Tree} {p : Path}

/-! ### One folder -/

theorem start_single (w : Workspace) (relative : p.isAbsolute = false) {name : String}
    (noSlash : '/' ∉ name.toList) :
    w.start ⟨name⟩ = w.start p ∧ (Path.mk name).segments = [name] := by
  have alone : (Path.mk name).isAbsolute = false := Path.isAbsolute_of_notMem noSlash
  constructor
  · rw [Workspace.start, Workspace.start, alone, relative]
  · rw [Path.segments, alone]
    exact Text.split_of_notMem noSlash

theorem visited_inside (w : Workspace) (p : Path) {name : String} (noSlash : '/' ∉ name.toList) :
    w.visited (inside p name) = w.visited p ++ Workspace.visits (w.location p) [name] := by
  unfold inside
  split
  · next here =>
    obtain ⟨relative, steps⟩ := Path.steps_of_same_here here
    obtain ⟨start, segments⟩ := start_single w relative noSlash
    rw [w.visited_eq p, w.location_eq, steps, Workspace.visited, segments, start]
    rfl
  · exact w.visited_joinName p noSlash

theorem location_inside (w : Workspace) (p : Path) {name : String} (proper : ProperName name) :
    w.location (inside p name) = w.location p ++ [name] := by
  have entered : Workspace.enter (w.location p) name = w.location p ++ [name] := by
    rw [Workspace.enter, if_neg (by simp [proper.notIdle]), if_neg proper.notUp]
  rw [← entered]
  unfold inside
  split
  · next here =>
    obtain ⟨relative, steps⟩ := Path.steps_of_same_here here
    obtain ⟨start, segments⟩ := start_single w relative proper.noSlash
    rw [w.location_eq p, steps, Workspace.location, segments, start]
    rfl
  · exact w.location_joinName p proper.noSlash

theorem visited_inside_of_proper (w : Workspace) (p : Path) {name : String}
    (proper : ProperName name) :
    w.visited (inside p name) = w.visited p ++ [w.location p ++ [name]] := by
  rw [visited_inside w p proper.noSlash, Workspace.visits, if_neg (by simp [proper.notIdle]),
    if_neg proper.notUp, Workspace.visits]

theorem mergeSort_filter (keep : String → Bool) (names : List String) :
    (names.filter keep).mergeSort (· ≤ ·) = (names.mergeSort (· ≤ ·)).filter keep :=
  (filter_mergeSort (by simpa using fun a b c => le_trans) (by simpa using le_total) keep names).symm

theorem children_eq (w : Workspace) (p : Path) :
    children w p = if w.isFolder p then
      ((w.tree.names (w.location p)).mergeSort (· ≤ ·)).map fun name => (inside p name, name)
    else [] := by
  unfold children Workspace.list Workspace.isFolder Workspace.entry
  cases ends : w.resolve p with
  | error cause => simp
  | ok spot =>
    cases spot with
    | free l slashed => simp
    | present l e =>
      have there : l = w.location p := Workspace.loc_of_resolve ends
      subst there
      cases e <;> simp

theorem old_inside_iff (proper : t.Proper) (old : w.Old t p) {name : String}
    (mem : name ∈ t.names (w.location p)) :
    w.Old t (inside p name) ↔ (w.tree.find? (w.location p ++ [name])).isSome = true := by
  have entry := Tree.mem_names.mp mem
  have there := (Tree.find?_isSome_iff (by simp)).mpr entry
  rw [Workspace.Old, visited_inside_of_proper w p (proper _ entry name (by simp))]
  simp only [List.forall_mem_append, List.forall_mem_singleton]
  refine (and_iff_right old).trans ?_
  cases before : w.tree.find? (w.location p ++ [name]) with
  | none =>
    refine iff_of_false (fun gone => ?_) (by simp)
    rw [gone rfl] at there
    cases there
  | some e => simp

theorem children_onTree (ext : w.tree.Extends t) (proper : t.Proper) (old : w.Old t p) :
    children w p = (children (w.onTree t) p).filter fun child => w.Old t child.1 := by
  have folder : w.isFolder p = (w.onTree t).isFolder p := by
    rw [Bool.eq_iff_iff, Workspace.isFolder_onTree ext, and_iff_left old]
  rw [children_eq, children_eq, folder]
  split
  · rw [ext.names_eq, mergeSort_filter, List.filter_map]
    refine congrArg _ (List.filter_congr fun name mem => ?_)
    rw [Bool.eq_iff_iff, Function.comp_apply, decide_eq_true_iff]
    exact (old_inside_iff proper old (List.mem_mergeSort.mp mem)).symm
  · rfl

theorem mem_children {child : Path × String} (mem : child ∈ children w p) :
    child.2 ∈ w.tree.names (w.location p) ∧ child.1 = inside p child.2 := by
  rw [children_eq] at mem
  split at mem
  · obtain ⟨name, mem, rfl⟩ := List.mem_map.mp mem
    exact ⟨by simpa using mem, rfl⟩
  · cases mem

/-! ### All that lies below -/

def Leading (w : Workspace) (p q : Path) : Prop := w.visited p ⊆ w.visited q

theorem not_old_of_leading {q : Path} (leading : Leading w p q) (new : ¬w.Old t p) :
    ¬w.Old t q := fun old => new fun l mem => old l (leading mem)

theorem leading_of_mem_children (proper : w.tree.Proper) {child : Path × String}
    (mem : child ∈ children w p) : Leading w p child.1 := by
  obtain ⟨named, same⟩ := mem_children mem
  rw [Leading, same, visited_inside w p (proper _ (Tree.mem_names.mp named) _ (by simp)).noSlash]
  exact List.subset_append_left _ _

theorem leading_of_mem_descendants (proper : w.tree.Proper) {depth : Nat} {q : Path × String}
    (mem : q ∈ descendants w depth p) : Leading w p q.1 := by
  induction depth generalizing p with
  | zero => cases mem
  | succ depth ih =>
    obtain ⟨child, inFolder, mem⟩ := List.mem_flatMap.mp mem
    have first := leading_of_mem_children proper inFolder
    rcases List.mem_cons.mp mem with rfl | below
    · exact first
    · split at below
      · exact fun l visited => ih below (first visited)
      · cases below

/-- Where each member gives what is kept of another list, and what is left out gives nothing that is
kept, all of them do. -/
theorem flatMap_filter {α β : Type} {keep : α → Bool} {kept : β → Bool} {f g : α → List β}
    {xs : List α} (same : ∀ x ∈ xs, keep x = true → f x = (g x).filter kept)
    (gone : ∀ x ∈ xs, keep x = false → ∀ y ∈ g x, kept y = false) :
    (xs.filter keep).flatMap f = (xs.flatMap g).filter kept := by
  induction xs with
  | nil => rfl
  | cons x xs ih =>
    have rest := ih (fun x mem => same x (List.mem_cons_of_mem _ mem))
      (fun x mem => gone x (List.mem_cons_of_mem _ mem))
    rw [List.flatMap_cons, List.filter_append, ← rest]
    cases keeps : keep x with
    | true =>
      rw [List.filter_cons_of_pos keeps, List.flatMap_cons, same x List.mem_cons_self keeps]
    | false =>
      have none : (g x).filter kept = [] :=
        List.filter_eq_nil_iff.mpr fun y mem => by simp [gone x List.mem_cons_self keeps y mem]
      rw [List.filter_cons_of_neg (by simp [keeps]), none, List.nil_append]

theorem descendants_onTree (ext : w.tree.Extends t) (proper : t.Proper) (depth : Nat)
    (old : w.Old t p) :
    descendants w depth p =
      (descendants (w.onTree t) depth p).filter fun q => w.Old t q.1 := by
  induction depth generalizing p with
  | zero => rfl
  | succ depth ih =>
    -- What lies below a new child is new as well, so leaving out the child leaves out no more.
    rw [descendants, descendants, children_onTree ext proper old]
    refine flatMap_filter ?_ ?_
    · intro child _ keeps
      have oldChild : w.Old t child.1 := by simpa using keeps
      have folder : w.isFolder child.1 = (w.onTree t).isFolder child.1 := by
        rw [Bool.eq_iff_iff, Workspace.isFolder_onTree ext, and_iff_left oldChild]
      simp only [List.filter_cons, keeps, if_true, folder]
      split
      · rw [ih oldChild]
      · rfl
    · intro child inFolder gone q mem
      have newChild : ¬w.Old t child.1 := by simpa using gone
      have leading : Leading w child.1 q.1 := by
        rcases List.mem_cons.mp mem with rfl | below
        · exact fun _ => id
        · split at below
          · exact leading_of_mem_descendants (w := w.onTree t) proper below
          · cases below
      simpa using not_old_of_leading leading newChild

theorem length_le_depth {loc : Location} (mem : loc ∈ w.tree.locs) : loc.length ≤ depth w := by
  have inside : ∀ (es : List (Location × Files.Entry)) (least : Nat),
      least ≤ es.foldl (fun deepest e => max deepest e.1.length) least ∧
        ∀ loc ∈ es.map Prod.fst,
          loc.length ≤ es.foldl (fun deepest e => max deepest e.1.length) least := by
    intro es
    induction es with
    | nil => simp
    | cons e es ih =>
      intro least
      have ⟨above, all⟩ := ih (max least e.1.length)
      simp only [List.foldl_cons, List.map_cons, List.forall_mem_cons]
      exact ⟨(le_max_left _ _).trans above, (le_max_right _ _).trans above, all⟩
  exact (inside w.tree.entries 0).2 loc mem

theorem location_of_mem_children (proper : w.tree.Proper) {child : Path × String}
    (mem : child ∈ children w p) :
    w.location child.1 ∈ w.tree.locs ∧ w.location child.1 = w.location p ++ [child.2] := by
  obtain ⟨named, same⟩ := mem_children mem
  have entry := Tree.mem_names.mp named
  have loc := location_inside w p (proper _ entry child.2 (by simp))
  rw [same, loc]
  exact ⟨entry, rfl⟩

theorem descendants_of_le (proper : w.tree.Proper) {depth more : Nat}
    (deep : ∀ loc ∈ w.tree.locs, loc.length ≤ (w.location p).length + depth)
    (enough : depth ≤ more) : descendants w more p = descendants w depth p := by
  -- Induction on the levels that are left below `p`. At the last one there are no children, for they
  -- would lie deeper than any entry.
  induction depth generalizing p more with
  | zero =>
    have none : children w p = [] := by
      refine List.eq_nil_iff_forall_not_mem.mpr fun child mem => ?_
      obtain ⟨entry, loc⟩ := location_of_mem_children proper mem
      have := deep _ entry
      rw [loc, List.length_append, List.length_singleton] at this
      omega
    cases more with
    | zero => rfl
    | succ more => simp [descendants, none]
  | succ depth ih =>
    cases more with
    | zero => omega
    | succ more =>
      have same : ∀ child ∈ children w p,
          descendants w more child.1 = descendants w depth child.1 := by
        intro child mem
        obtain ⟨_, loc⟩ := location_of_mem_children proper mem
        refine ih (fun l entry => ?_) (Nat.le_of_succ_le_succ enough)
        have := deep l entry
        rw [loc, List.length_append, List.length_singleton]
        omega
      rw [descendants, descendants]
      exact List.flatMap_congr fun child mem => by rw [same child mem]

/-! ### One part of a pattern -/

/-- The paths that a part of a name leads to from a path. -/
def named (w : Workspace) (tokens : List Token) (p : Path) : List Path :=
  match literal? tokens with
  | some cs => if leads w p (String.ofList cs) then [inside p (String.ofList cs)] else []
  | none =>
    if !w.isFolder p then []
    else (specials tokens).map p.joinName ++
      ((children w p).filter fun child => fits tokens child.2.toList).map Prod.fst

/-- The paths that a part leads to after folders in each other. -/
def sought (w : Workspace) (tokens : List Token) (p : Path) : List Path :=
  ((descendants w (depth w) p).filter fun child => fits tokens child.2.toList).map Prod.fst

theorem flatMap_if {α β : Type} (keep : α → Bool) (f : α → List β) (xs : List α) :
    (xs.flatMap fun x => if keep x then f x else []) = (xs.filter keep).flatMap f := by
  induction xs with
  | nil => rfl
  | cons x xs ih =>
    cases keeps : keep x with
    | true => simp [keeps, ih]
    | false => simp [keeps, ih]

theorem expand_named (w : Workspace) (tokens : List Token) (rest : List Part) (p : Path) :
    expand w (.name tokens :: rest) p = (named w tokens p).flatMap (expand w rest) := by
  rw [expand, named]
  cases literal? tokens with
  | some cs =>
    simp only
    split <;> simp
  | none =>
    simp only
    split
    · rfl
    · have fitting := flatMap_if (fun child : Path × String => fits tokens child.2.toList)
        (fun child => expand w rest child.1) (children w p)
      rw [List.flatMap_append, List.flatMap_map, List.flatMap_map, ← fitting]

theorem expand_sought (w : Workspace) (tokens : List Token) (rest : List Part) (p : Path) :
    expand w (.folders :: .name tokens :: rest) p =
      (sought w tokens p).flatMap (expand w rest) := by
  rw [expand, sought, List.flatMap_map]
  exact flatMap_if (fun child : Path × String => fits tokens child.2.toList)
    (fun child => expand w rest child.1) _

def Slashless (tokens : List Token) : Prop := ∀ cs, literal? tokens = some cs → '/' ∉ cs

theorem mem_specials {tokens : List Token} {name : String} (mem : name ∈ specials tokens) :
    name = ".." ∨ name = "." := by
  unfold specials at mem
  split at mem
  · simpa using (List.mem_filter.mp mem).1
  · cases mem

theorem visits_special (loc : Location) {name : String} (special : name = ".." ∨ name = ".") :
    Workspace.visits loc [name] = [] := by
  have idle : Path.isIdle "." = true := by decide
  have up : Path.isIdle ".." = false := by decide
  rcases special with rfl | rfl
  · simp only [Workspace.visits, up, Bool.false_eq_true, if_false, if_true]
  · simp only [Workspace.visits, idle, if_true]

theorem visited_special (w : Workspace) (p : Path) {name : String}
    (special : name = ".." ∨ name = ".") : w.visited (p.joinName name) = w.visited p := by
  have noSlash : '/' ∉ name.toList := by rcases special with rfl | rfl <;> decide
  rw [w.visited_joinName p noSlash, visits_special _ special, List.append_nil]

theorem leading_of_mem_named (proper : w.tree.Proper) {tokens : List Token}
    (slashless : Slashless tokens) {q : Path} (mem : q ∈ named w tokens p) : Leading w p q := by
  unfold named at mem
  cases literal : literal? tokens with
  | some cs =>
    simp only [literal, List.mem_ite_nil_right, List.mem_singleton] at mem
    rw [mem.2, Leading, visited_inside w p (by simpa using slashless cs literal)]
    exact List.subset_append_left _ _
  | none =>
    simp only [literal] at mem
    split at mem
    · cases mem
    · rcases List.mem_append.mp mem with special | inFolder
      · obtain ⟨name, found, rfl⟩ := List.mem_map.mp special
        rw [Leading, visited_special w p (mem_specials found)]
        exact fun _ => id
      · obtain ⟨child, found, rfl⟩ := List.mem_map.mp inFolder
        exact leading_of_mem_children proper (List.mem_filter.mp found).1

theorem leading_of_mem_sought (proper : w.tree.Proper) {tokens : List Token} {q : Path}
    (mem : q ∈ sought w tokens p) : Leading w p q := by
  obtain ⟨child, below, rfl⟩ := List.mem_map.mp mem
  exact leading_of_mem_descendants proper (List.mem_filter.mp below).1

theorem leads_onTree (ext : w.tree.Extends t) (old : w.Old t p) {name : String}
    (noSlash : '/' ∉ name.toList) :
    leads w p name = (leads (w.onTree t) p name && decide (w.Old t (inside p name))) := by
  unfold leads
  split
  · next special =>
    have stays : w.visited (inside p name) = w.visited p := by
      have either : name = ".." ∨ name = "." := by
        simpa [isSpecial, or_comm] using special
      rw [visited_inside w p noSlash, visits_special _ either, List.append_nil]
    have oldChild : w.Old t (inside p name) := by
      rw [Workspace.Old, stays]
      exact old
    rw [Bool.eq_iff_iff, Workspace.isFolder_onTree ext, and_iff_left old]
    simp [oldChild]
  · rw [Bool.eq_iff_iff, Workspace.holds_onTree ext]
    simp

theorem named_onTree (ext : w.tree.Extends t) (proper : t.Proper) {tokens : List Token}
    (slashless : Slashless tokens) (old : w.Old t p) :
    named w tokens p = (named (w.onTree t) tokens p).filter (w.Old t) := by
  unfold named
  cases literal : literal? tokens with
  | some cs =>
    simp only
    rw [leads_onTree ext old (by simpa using slashless cs literal)]
    cases leads (w.onTree t) p (String.ofList cs) <;> simp [List.filter_singleton]
  | none =>
    have folder : w.isFolder p = (w.onTree t).isFolder p := by
      rw [Bool.eq_iff_iff, Workspace.isFolder_onTree ext, and_iff_left old]
    have special : ∀ q ∈ (specials tokens).map p.joinName, decide (w.Old t q) = true := by
      intro q mem
      obtain ⟨name, found, rfl⟩ := List.mem_map.mp mem
      rw [decide_eq_true_iff, Workspace.Old, visited_special w p (mem_specials found)]
      exact old
    simp only [folder]
    split
    · rfl
    · rw [children_onTree ext proper old, List.filter_append, List.filter_eq_self.mpr special,
        List.filter_map, List.filter_filter, List.filter_filter]
      simp only [Function.comp_apply, Bool.and_comm]

theorem descendants_depth (ext : w.tree.Extends t) (proper : w.tree.Proper) (p : Path) :
    descendants w (depth w) p = descendants w (depth (w.onTree t)) p := by
  obtain ⟨added, locs, _⟩ := ext.locs
  have known : ∀ loc ∈ w.tree.locs, loc.length ≤ depth (w.onTree t) := fun loc mem =>
    length_le_depth (w := w.onTree t) (locs ▸ List.mem_append_left added mem)
  have deep : ∀ n, (∀ loc ∈ w.tree.locs, loc.length ≤ n) →
      ∀ loc ∈ w.tree.locs, loc.length ≤ (w.location p).length + n := fun n all loc mem =>
    (all loc mem).trans (Nat.le_add_left _ _)
  calc descendants w (depth w) p
    _ = descendants w (max (depth w) (depth (w.onTree t))) p :=
      (descendants_of_le proper (deep _ fun _ => length_le_depth) (le_max_left _ _)).symm
    _ = descendants w (depth (w.onTree t)) p :=
      descendants_of_le proper (deep _ known) (le_max_right _ _)

theorem sought_onTree (ext : w.tree.Extends t) (proper : t.Proper) (tokens : List Token)
    (old : w.Old t p) :
    sought w tokens p = (sought (w.onTree t) tokens p).filter (w.Old t) := by
  rw [sought, descendants_depth ext (ext.proper proper), descendants_onTree ext proper _ old, sought,
    List.filter_map, List.filter_filter, List.filter_filter]
  simp only [Function.comp_apply, Bool.and_comm]

/-! ### A whole pattern -/

def Plain (parts : List Part) : Prop := ∀ tokens, .name tokens ∈ parts → Slashless tokens

theorem leading_of_mem_expand (proper : w.tree.Proper) {q : Path} :
    ∀ (parts : List Part) (p : Path), Plain parts → q ∈ expand w parts p → Leading w p q
  | [], p, _, mem => by
    cases List.mem_singleton.mp mem
    exact fun _ => id
  | [.folders], p, _, mem => by
    obtain ⟨child, below, rfl⟩ := List.mem_map.mp (List.mem_filter.mp mem).1
    exact leading_of_mem_descendants proper below
  | .folders :: .folders :: _, p, _, mem => by cases mem
  | .folders :: .name tokens :: rest, p, plain, mem => by
    rw [expand_sought] at mem
    obtain ⟨next, found, mem⟩ := List.mem_flatMap.mp mem
    have later := leading_of_mem_expand proper rest next
      (fun tokens mem => plain tokens (by simp [mem])) mem
    exact fun l visited => later (leading_of_mem_sought proper found visited)
  | .name tokens :: rest, p, plain, mem => by
    rw [expand_named] at mem
    obtain ⟨next, found, mem⟩ := List.mem_flatMap.mp mem
    have later := leading_of_mem_expand proper rest next
      (fun tokens mem => plain tokens (by simp [mem])) mem
    exact fun l visited => later (leading_of_mem_named proper (plain tokens (by simp)) found visited)

theorem flatMap_expand_onTree (proper : t.Proper) {rest : List Part} (plain : Plain rest)
    (same : ∀ q, w.Old t q → expand w rest q = (expand (w.onTree t) rest q).filter (w.Old t))
    (paths : List Path) :
    (paths.filter (w.Old t)).flatMap (expand w rest) =
      (paths.flatMap (expand (w.onTree t) rest)).filter (w.Old t) := by
  refine flatMap_filter (fun q _ keeps => same q (by simpa using keeps)) ?_
  intro q _ gone q' mem
  have leading : Leading w q q' := leading_of_mem_expand (w := w.onTree t) proper rest q plain mem
  simpa using not_old_of_leading leading (by simpa using gone)

theorem filter_isFolder_onTree (ext : w.tree.Extends t) (paths : List Path) :
    (paths.filter (w.Old t)).filter w.isFolder =
      (paths.filter (w.onTree t).isFolder).filter (w.Old t) := by
  rw [List.filter_filter, List.filter_filter]
  refine List.filter_congr fun q _ => ?_
  rw [Bool.eq_iff_iff, Bool.and_eq_true, Bool.and_eq_true, Workspace.isFolder_onTree ext,
    decide_eq_true_iff]
  tauto

theorem expand_onTree (ext : w.tree.Extends t) (proper : t.Proper) :
    ∀ (parts : List Part) (p : Path), Plain parts → w.Old t p →
      expand w parts p = (expand (w.onTree t) parts p).filter (w.Old t)
  | [], p, _, old => by simp [expand, old]
  | [.folders], p, _, old => by
    rw [expand, expand, descendants_depth ext (ext.proper proper),
      descendants_onTree ext proper _ old, ← Function.comp_def (fun q => decide (w.Old t q)),
      ← List.filter_map]
    exact filter_isFolder_onTree ext _
  | .folders :: .folders :: _, p, _, _ => rfl
  | .folders :: .name tokens :: rest, p, plain, old => by
    have plainRest : Plain rest := fun tokens mem => plain tokens (by simp [mem])
    rw [expand_sought, expand_sought, sought_onTree ext proper tokens old]
    exact flatMap_expand_onTree proper plainRest
      (fun q => expand_onTree ext proper rest q plainRest) _
  | .name tokens :: rest, p, plain, old => by
    have plainRest : Plain rest := fun tokens mem => plain tokens (by simp [mem])
    rw [expand_named, expand_named, named_onTree ext proper (plain tokens (by simp)) old]
    exact flatMap_expand_onTree proper plainRest
      (fun q => expand_onTree ext proper rest q plainRest) _

theorem literal?_readClass {cs rest : List Char} {token : Token}
    (read : readClass cs = some (token, rest)) (tokens : List Token) :
    literal? (token :: tokens) = none := by
  unfold readClass at read
  split at read
  · obtain ⟨_, _, same⟩ := Option.map_eq_some_iff.mp read
    cases same
    rfl
  · split at read
    · cases read
    · obtain ⟨_, _, same⟩ := Option.map_eq_some_iff.mp read
      cases same
      rfl
  · cases read

theorem literal?_tokens {cs : List Char} {tokens : List Token} (read : tokens? cs = some tokens)
    {name : List Char} (literal : literal? tokens = some name) :
    name = cs ∧ ∀ c ∈ cs, c ≠ '*' ∧ c ≠ '?' ∧ c ≠ '[' := by
  fun_induction tokens? cs generalizing tokens name with
  | case1 =>
    cases read
    cases literal
    exact ⟨rfl, nofun⟩
  | case2 rest ih | case4 rest notTwo ih =>
    obtain ⟨later, _, rfl⟩ := Option.map_eq_some_iff.mp read
    cases literal
  | case3 => cases read
  | case5 => cases read
  | case6 rest token later found lt ih =>
    obtain ⟨more, _, rfl⟩ := Option.map_eq_some_iff.mp read
    rw [literal?_readClass found] at literal
    cases literal
  | case7 c rest mark _ star bracket ih =>
    obtain ⟨later, found, rfl⟩ := Option.map_eq_some_iff.mp read
    obtain ⟨inner, below, rfl⟩ := Option.map_eq_some_iff.mp literal
    obtain ⟨same, plain⟩ := ih found below
    exact ⟨by rw [same], List.forall_mem_cons.mpr ⟨⟨star, mark, bracket⟩, plain⟩⟩

theorem map_of_mapM {α β : Type} {f : α → Option β} {xs : List α} {ys : List β}
    (mapped : xs.mapM f = some ys) : xs.map f = ys.map some := by
  induction xs generalizing ys with
  | nil => cases mapped; rfl
  | cons x xs ih =>
    rw [List.mapM_cons] at mapped
    obtain ⟨first, made, mapped⟩ := Option.bind_eq_some_iff.mp mapped
    obtain ⟨rest, later, mapped⟩ := Option.bind_eq_some_iff.mp mapped
    cases mapped
    rw [List.map_cons, List.map_cons, made, ih later]

theorem plain_parts {pattern : Path} {parts : List Part} (read : parts? pattern = some parts) :
    Plain parts := by
  intro tokens mem cs literal
  have read := map_of_mapM read
  obtain ⟨segment, inPath, part⟩ := List.mem_map.mp (read ▸ List.mem_map_of_mem mem)
  have inPath : segment ∈ pattern.segments := by
    split at inPath
    · exact List.dropLast_subset _ inPath
    · exact inPath
  unfold part? at part
  split at part
  · cases part
  · obtain ⟨_, found, same⟩ := Option.map_eq_some_iff.mp part
    cases same
    rw [(literal?_tokens found literal).1]
    exact Path.slash_notMem_segments inPath

theorem mem_of_mem_collapse {parts : List Part} {part : Part} (mem : part ∈ collapse parts) :
    part ∈ parts := by
  fun_induction collapse parts with
  | case1 rest ih => exact List.mem_cons_of_mem _ (ih mem)
  | case2 first rest _ ih => exact List.mem_cons.mpr ((List.mem_cons.mp mem).imp_right ih)
  | case3 => exact mem

theorem plain_collapse {parts : List Part} (plain : Plain parts) : Plain (collapse parts) :=
  fun tokens mem => plain tokens (mem_of_mem_collapse mem)

theorem old_start (w : Workspace) (t : Tree) (pattern : Path) :
    w.Old t (if pattern.isAbsolute then ⟨"/"⟩ else ⟨"."⟩) := by
  have still : ∀ p : Path, p.steps = [] → w.Old t p := by
    intro p steps l mem
    rw [w.visited_eq, steps] at mem
    cases mem
  split
  · exact still _ (by decide +kernel)
  · exact still _ (by decide +kernel)

theorem matches?_filter (ext : w.tree.Extends t) (proper : t.Proper) (pattern : Path) :
    matches? w pattern = (matches? (w.onTree t) pattern).map (List.filter (w.Old t)) := by
  unfold matches?
  cases read : parts? pattern with
  | none => rfl
  | some parts =>
    simp only [Option.map_some, Option.some.injEq]
    have expands := expand_onTree ext proper (collapse parts) _
      (plain_collapse (plain_parts read)) (old_start w t pattern)
    rw [expands, filter_mergeSort byComponents_trans byComponents_total]
    split
    · rw [filter_isFolder_onTree ext]
    · rfl

theorem matches?_onTree (ext : w.tree.Extends t) (proper : t.Proper) (pattern : Path)
    (old : ∀ found, matches? (w.onTree t) pattern = some found → ∀ q ∈ found, w.Old t q) :
    matches? w pattern = matches? (w.onTree t) pattern := by
  rw [matches?_filter ext proper]
  cases found : matches? (w.onTree t) pattern with
  | none => rfl
  | some found' =>
    have every : found'.filter (w.Old t) = found' :=
      List.filter_eq_self.mpr fun q mem => by simpa using old found' found q mem
    rw [Option.map_some, every]

end Glob

end ClassDiagram
