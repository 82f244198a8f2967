import ClassDiagram.Proofs.Files.Inside
import Mathlib.Algebra.GroupWithZero.Nat

/-! What lies below a folder, as a tree of its own that has the folder for its root. A way that does
not go up leads to the same in it as from the folder in the whole tree. How long the text of a path
is, is told by the names on the way. -/

namespace ClassDiagram

theorem Text.mem_split {c x : Char} (other : x ≠ c) (s : String) :
    (∃ piece ∈ Text.split c s, x ∈ piece.toList) ↔ x ∈ s.toList := by
  have chars : ∀ cs, (∃ piece ∈ Text.splitChars c cs, x ∈ piece) ↔ x ∈ cs := by
    intro cs
    induction cs with
    | nil => simp [Text.splitChars]
    | cons y ys ih =>
      unfold Text.splitChars
      by_cases same : y = c
      · simp [same, other, ih]
      · cases pieces : Text.splitChars c ys with
        | nil => exact absurd pieces (Text.splitChars_ne_nil c ys)
        | cons first rest =>
          rw [pieces] at ih
          simp [same, ← ih, or_assoc]
  simpa [Text.split] using chars s.toList

namespace Files

def span (loc : Location) : Nat := (loc.map fun name => name.utf8ByteSize + 1).sum

theorem span_append (loc more : Location) : span (loc ++ more) = span loc + span more := by
  simp [span]

theorem span_single (name : String) : span [name] = name.utf8ByteSize + 1 := by simp [span]

theorem hasNul_iff (p : Path) :
    Workspace.hasNul p = true ↔ ∃ step ∈ p.steps, '\x00' ∈ step.toList := by
  rw [Workspace.hasNul, List.contains_iff_mem, ← Text.mem_split (c := '/') (by decide), p.steps_eq]
  refine exists_congr fun piece => ?_
  rw [List.mem_filter, and_assoc]
  refine and_congr_right fun _ => (and_iff_right_of_imp fun nul => ?_).symm
  -- The idle segments hold no such character.
  have idle : piece ≠ "" ∧ piece ≠ "." := by
    constructor <;> rintro rfl <;> simp at nul
  simp [Path.isIdle, idle]

theorem span_intercalate {pieces : List String} (some : pieces ≠ []) :
    span pieces = ("/".intercalate pieces).utf8ByteSize + 1 := by
  induction pieces with
  | nil => exact absurd rfl some
  | cons first rest ih =>
    cases rest with
    | nil => simp [span_single]
    | cons second rest =>
      rw [String.intercalate_cons_cons, String.utf8ByteSize_append, String.utf8ByteSize_append]
      have later := ih (by simp)
      have slash : "/".utf8ByteSize = 1 := rfl
      rw [show first :: second :: rest = [first] ++ second :: rest from rfl, span_append, later,
        span_single, slash]
      omega

theorem span_split (s : String) : span (Text.split '/' s) = s.utf8ByteSize + 1 := by
  rw [span_intercalate (List.length_pos_iff.mp (Text.length_split_pos '/' s))]
  exact congrArg (·.utf8ByteSize + 1) (Text.intercalate_split '/' s)

namespace Tree

def below (t : Tree) (loc : Location) : Tree := ⟨viewFrom loc t.entries⟩

variable {t : Tree} {loc l : Location}

theorem find?_below (some : l ≠ []) : (t.below loc).find? l = t.find? (loc ++ l) := by
  obtain ⟨name, rest, rfl⟩ := List.exists_cons_of_ne_nil some
  rw [find?, if_neg some, find?, if_neg (by simp)]
  exact findIn_viewFrom loc name rest t.entries

theorem nameBelow?_cons (first : String) (l entry : Location) :
    nameBelow? (first :: l) (first :: entry) = nameBelow? l entry := by
  refine Option.ext fun name => ?_
  rw [nameBelow?_eq_some_iff, nameBelow?_eq_some_iff, List.cons_append, List.cons.injEq,
    and_iff_right rfl]

theorem nameBelow?_cons_other {first : String} {l entry : Location}
    (other : ∀ rest, entry = first :: rest → rest = []) : nameBelow? (first :: l) entry = none := by
  refine Option.eq_none_iff_forall_ne_some.mpr fun name below => ?_
  have none := other _ (nameBelow?_eq_some_iff.mp below)
  simp at none

theorem names_inFolder (first : String) (l : Location) (es : List (Location × Entry)) :
    (inFolder first es).filterMap (fun e => nameBelow? l e.1) =
      es.filterMap fun e => nameBelow? (first :: l) e.1 := by
  induction es with
  | nil => rfl
  | cons e es ih =>
    obtain ⟨entry, kind⟩ := e
    match entry with
    | [] | [_] => simpa [inFolder, nameBelow?_cons_other] using ih
    | name :: second :: rest =>
      by_cases same : name = first
      · subst same
        simp only [inFolder, if_true, List.filterMap_cons, nameBelow?_cons, ih]
      · have off : nameBelow? (first :: l) (name :: second :: rest) = none :=
          nameBelow?_cons_other fun _ eq => absurd (List.cons.inj eq).1 same
        simp only [inFolder, if_neg same, List.filterMap_cons, off, ih]

theorem names_below (t : Tree) (loc l : Location) :
    (t.below loc).names l = t.names (loc ++ l) := by
  have inside : ∀ es : List (Location × Entry),
      (viewFrom loc es).filterMap (fun e => nameBelow? l e.1) =
        es.filterMap fun e => nameBelow? (loc ++ l) e.1 := by
    induction loc with
    | nil => exact fun _ => rfl
    | cons first loc ih => exact fun es => (ih _).trans (names_inFolder first _ es)
  exact inside t.entries

theorem mem_of_mem_inFolder {first : String} {es : List (Location × Entry)}
    (mem : l ∈ (inFolder first es).map Prod.fst) : first :: l ∈ es.map Prod.fst := by
  induction es with
  | nil => cases mem
  | cons e es ih =>
    obtain ⟨entry, kind⟩ := e
    match entry with
    | [] | [_] => exact List.mem_cons_of_mem _ (ih mem)
    | name :: second :: rest =>
      by_cases same : name = first
      · rw [inFolder, if_pos same, List.map_cons, List.mem_cons] at mem
        rcases mem with rfl | later
        · simp [same]
        · exact List.mem_cons_of_mem _ (ih later)
      · rw [inFolder, if_neg same] at mem
        exact List.mem_cons_of_mem _ (ih mem)

theorem mem_of_mem_below (mem : l ∈ (t.below loc).locs) : loc ++ l ∈ t.locs := by
  have inside : ∀ es : List (Location × Entry),
      l ∈ (viewFrom loc es).map Prod.fst → loc ++ l ∈ es.map Prod.fst := by
    clear mem
    induction loc with
    | nil => exact fun _ => id
    | cons first loc ih => exact fun es mem => mem_of_mem_inFolder (ih _ mem)
  exact inside t.entries mem

theorem proper_below (proper : t.Proper) (loc : Location) : (t.below loc).Proper :=
  fun _ mem name part => proper _ (mem_of_mem_below mem) name (List.mem_append_right loc part)

/-- The most bytes that the names on a way in a tree take. -/
def reach (t : Tree) : Nat := (t.locs.map span).foldr max 0

theorem span_le_reach (mem : l ∈ t.locs) : span l ≤ t.reach := by
  have known : ∀ sizes : List Nat, ∀ size ∈ sizes, size ≤ sizes.foldr max 0 := by
    intro sizes
    induction sizes with
    | nil => simp
    | cons first sizes ih =>
      intro size mem
      rw [List.foldr_cons]
      rcases List.mem_cons.mp mem with rfl | later
      · exact Nat.le_max_left _ _
      · exact Nat.le_trans (ih size later) (Nat.le_max_right _ _)
  exact known _ _ (List.mem_map_of_mem mem)

end Tree

def Spot.under (loc : Location) : Spot → Spot
  | .present l e => .present (loc ++ l) e
  | .free l slashed => .free (loc ++ l) slashed

namespace Workspace

open ClassDiagram.Path (isStep)

section

variable {t : Tree} {loc m l : Location} {front rest segments : List String} {e : Entry}

theorem Leads.follow_append (first : Leads t loc front (.present m .folder)) (rest : List String) :
    Workspace.follow t loc .folder (front ++ rest) = Workspace.follow t m .folder rest := by
  generalize ends : Spot.present m .folder = middle at first
  induction first with
  | stop => cases ends; rfl
  | idle idle _ ih => rw [List.cons_append, Workspace.follow, if_pos idle, ih ends]
  | up _ ih => rw [List.cons_append, Workspace.follow, if_neg (by decide), if_pos rfl, ih ends]
  | down named found _ ih =>
    rw [List.cons_append, follow_of_named named, found]
    exact ih ends
  | file => cases ends
  | free => cases ends

theorem Leads.first {segment : String} (leads : Leads t loc (segment :: rest) (.present l .folder)) :
    Leads t loc ([segment].filter isStep) (.present (enter loc segment) .folder) ∧
      Leads t (enter loc segment) rest (.present l .folder) := by
  cases leads with
  | idle idle leads =>
    rw [enter_of_idle idle, List.filter_cons_of_neg (by simp [isStep, idle])]
    exact ⟨.stop loc, leads⟩
  | up leads => exact ⟨.up (.stop _), leads⟩
  | down named found leads =>
    rw [enter_of_named named, List.filter_cons_of_pos (by simp [isStep, named.notIdle])]
    exact ⟨.down named found (.stop _), leads⟩

theorem Leads.find?_folder (leads : Leads t loc segments (.present l .folder))
    (inner : ".." ∉ segments) : l = loc ∨ t.find? l = some .folder := by
  generalize ends : Spot.present l .folder = spot at leads
  induction leads with
  | stop => cases ends; exact .inl rfl
  | idle _ _ ih => exact ih (List.not_mem_of_not_mem_cons inner) ends
  | up => simp at inner
  | down _ found _ ih =>
    rcases ih (List.not_mem_of_not_mem_cons inner) ends with rfl | found'
    · exact .inr found
    · exact .inr found'
  | file => cases ends
  | free => cases ends

/-- A walk that does not go up goes through the tree below a folder as through the whole tree. -/
theorem follow_below (loc m : Location) (e : Entry) (inner : ".." ∉ segments) :
    follow t (loc ++ m) e segments =
      (follow (t.below loc) m e segments).map (Spot.under loc) := by
  induction segments generalizing m e with
  | nil => rw [follow, follow]; rfl
  | cons segment rest ih =>
    obtain ⟨notUp, inner⟩ := List.ne_and_not_mem_of_not_mem_cons inner
    cases e with
    | file bytes => rw [follow, follow]; rfl
    | folder =>
      rw [follow, follow]
      by_cases idle : Path.isIdle segment = true
      · rw [if_pos idle, if_pos idle]
        exact ih m .folder inner
      rw [if_neg idle, if_neg idle, if_neg (Ne.symm notUp), if_neg (Ne.symm notUp),
        List.append_assoc, ← Tree.find?_below (by simp)]
      by_cases long : nameLimit < segment.utf8ByteSize
      · rw [if_pos long, if_pos long]
        rfl
      rw [if_neg long, if_neg long]
      cases (t.below loc).find? (m ++ [segment]) with
      | some e => exact ih (m ++ [segment]) e inner
      | none => cases rest.all (· == "") <;> rfl

theorem leads_below_iff (first : Leads t loc front (.present m .folder)) (inner : ".." ∉ rest) :
    Leads t loc (front ++ rest) (.present (m ++ l) e) ↔
      Leads (t.below m) [] rest (.present l e) := by
  have whole : follow t loc .folder (front ++ rest) =
      (follow (t.below m) [] .folder rest).map (Spot.under m) := by
    rw [first.follow_append, ← follow_below m [] .folder inner, List.append_nil]
  constructor
  · intro leads
    have ends := leads.follow
    rw [whole] at ends
    cases below : follow (t.below m) [] .folder rest with
    | error cause => rw [below] at ends; cases ends
    | ok spot =>
      rw [below] at ends
      cases spot with
      | free l' slashed => cases ends
      | present l' e' =>
        obtain ⟨same, rfl⟩ := Spot.present.inj (Except.ok.inj ends)
        rw [List.append_cancel_left same] at below
        exact leads_of_follow below
  · intro leads
    refine leads_of_follow ?_
    rw [whole, leads.follow]
    rfl

end

variable {w : Workspace} {p q d x : Path} {name : String}

theorem isFolder_iff_reached : w.isFolder p = true ↔ Askable p ∧ w.Reached p := by
  rw [isFolder_iff]
  constructor
  · rintro ⟨l, e, ends, kind⟩
    obtain ⟨askable, leads⟩ := resolve_ok_iff.mp ends
    cases e with
    | folder => exact ⟨askable, l, leads.steps⟩
    | file bytes => cases kind
  · rintro ⟨askable, l, leads⟩
    exact ⟨l, .folder, resolve_ok_iff.mpr ⟨askable, leads.of_steps⟩, rfl⟩

theorem holds_of_slashed (slashed : ∃ before, p.segments = before ++ [""]) :
    w.holds p = w.isFolder p := by
  rw [Bool.eq_iff_iff, holds_iff, isFolder_iff]
  constructor
  · rintro ⟨l, e, ends⟩
    obtain ⟨before, segments⟩ := slashed
    have leads := leads_of_resolve ends
    rw [segments] at leads
    obtain ⟨_, _, last⟩ := leads.split
    generalize closing : "" = segment at last
    cases last with
    | idle _ last => cases last; exact ⟨_, _, ends, rfl⟩
    | up => simp at closing
    | down named | file named => exact absurd named.notIdle (by simp [← closing, Path.isIdle])
  · rintro ⟨l, e, ends, _⟩
    exact ⟨l, e, ends⟩

theorem holds_step_iff (absolute : q.isAbsolute = p.isAbsolute)
    (steps : q.steps = p.steps ++ [name]) (ends : ∃ before, q.segments = before ++ [name])
    (proper : ProperName name) :
    w.holds q = true ↔ Askable q ∧ w.Reached p ∧ Named name ∧
      ∃ e, w.tree.find? (w.location p ++ [name]) = some e := by
  rw [holds_iff]
  constructor
  · rintro ⟨l, e, found⟩
    have named : Named name := by
      obtain ⟨before, segments⟩ := ends
      have leads := leads_of_resolve found
      rw [segments] at leads
      obtain ⟨_, _, last⟩ := leads.split
      cases last with
      | idle idle => simp [proper.notIdle] at idle
      | up => exact absurd rfl proper.notUp
      | down named | file named => exact named
    obtain ⟨askable, reached, rfl, found⟩ := (resolve_step_iff absolute steps ends named).mp found
    exact ⟨askable, reached, named, e, found⟩
  · rintro ⟨askable, reached, named, e, found⟩
    exact ⟨_, e, (resolve_step_iff absolute steps ends named).mpr ⟨askable, reached, rfl, found⟩⟩

theorem foldl_enter_inner {loc : Location} {segments : List String}
    (named : ∀ segment ∈ segments, Path.isIdle segment = false) (inner : ".." ∉ segments) :
    segments.foldl enter loc = loc ++ segments := by
  induction segments generalizing loc with
  | nil => simp
  | cons segment rest ih =>
    obtain ⟨notUp, inner⟩ := List.ne_and_not_mem_of_not_mem_cons inner
    rw [List.forall_mem_cons] at named
    rw [List.foldl_cons, enter, if_neg (by simp [named.1]), if_neg (Ne.symm notUp),
      ih named.2 inner, List.append_assoc]
    rfl

theorem isIdle_of_mem_steps {segment : String} (mem : segment ∈ p.steps) :
    Path.isIdle segment = false := by
  simpa using (List.mem_filter.mp mem).2

theorem location_inner (absolute : p.isAbsolute = d.isAbsolute) (steps : p.steps = d.steps ++ x.steps)
    (inner : ".." ∉ x.steps) : w.location p = w.location d ++ x.steps := by
  rw [location_eq, location_eq, steps, List.foldl_append, start, start, absolute,
    foldl_enter_inner (fun _ => isIdle_of_mem_steps) inner]

def below (w : Workspace) (d : Path) : Workspace := ⟨w.tree.below (w.location d), []⟩

theorem start_below (w : Workspace) (d x : Path) : (w.below d).start x = [] := by
  rw [start]
  split <;> rfl

theorem location_below (inner : ".." ∉ x.steps) : (w.below d).location x = x.steps := by
  rw [location_eq, start_below, foldl_enter_inner (fun _ => isIdle_of_mem_steps) inner,
    List.nil_append]

theorem reached_below_iff (base : w.Reached d) (absolute : p.isAbsolute = d.isAbsolute)
    (steps : p.steps = d.steps ++ x.steps) (inner : ".." ∉ x.steps) :
    w.Reached p ↔ (w.below d).Reached x := by
  have start : w.start p = w.start d := by rw [Workspace.start, Workspace.start, absolute]
  rw [Reached, Reached, start, steps, start_below]
  constructor
  · rintro ⟨l, leads⟩
    have same : l = w.location d ++ x.steps := by
      rw [← location_inner absolute steps inner, location_eq, start, steps]
      exact leads.loc_eq
    subst same
    exact ⟨x.steps, (leads_below_iff base.leads inner).mp leads⟩
  · rintro ⟨l, leads⟩
    exact ⟨w.location d ++ l, (leads_below_iff base.leads inner).mpr leads⟩

theorem span_le_of_reached (reached : (w.below d).Reached x) (inner : ".." ∉ x.steps) :
    span x.steps ≤ (w.below d).tree.reach := by
  obtain ⟨l, leads⟩ := reached
  have same : l = x.steps := by
    rw [← location_below (w := w) (d := d) inner, location_eq]
    exact leads.loc_eq
  subst same
  rw [start_below] at leads
  by_cases root : x.steps = []
  · rw [root]
    exact Nat.zero_le _
  · rcases leads.find?_folder inner with own | found
    · exact absurd own root
    · exact Tree.span_le_reach ((Tree.find?_isSome_iff root).mp (by rw [found]; rfl))

end Workspace

end Files

end ClassDiagram
