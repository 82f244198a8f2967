import ClassDiagram.Proofs.Files.Extension

/-! The way of a path, and of a path one name longer. The way does not see idle segments, so it does
not depend on how many slashes stand between two names. -/

namespace ClassDiagram

namespace Path

theorem isAbsolute_iff {p : Path} : p.isAbsolute = true ↔ p.text.toList.head? = some '/' := by
  rw [isAbsolute, String.startsWith_string_iff]
  constructor
  · rintro ⟨rest, opening⟩
    rw [← opening]
    rfl
  · intro first
    obtain ⟨rest, opening⟩ := List.head?_eq_some_iff.mp first
    exact ⟨rest, opening.symm⟩

def steps (p : Path) : List String := p.segments.filter fun segment => !isIdle segment

theorem steps_eq (p : Path) :
    p.steps = (Text.split '/' p.text).filter fun segment => !isIdle segment := by
  unfold steps segments
  split
  · next absolute =>
    -- What stands before the opening slash is empty, and so idle.
    obtain ⟨rest, opening⟩ := List.head?_eq_some_iff.mp (isAbsolute_iff.mp absolute)
    have text : p.text = "" ++ String.singleton '/' ++ String.ofList rest :=
      String.toList_inj.mp (by simp [opening])
    rw [text, Text.split_append]
    rfl
  · rfl

theorem steps_slash (front back : String) :
    (Path.mk (front ++ "/" ++ back)).steps = (Path.mk front).steps ++ (Path.mk back).steps := by
  rw [steps_eq, steps_eq, steps_eq, ← List.filter_append]
  exact congrArg _ (Text.split_append '/' front back)

theorem steps_empty : (Path.mk "").steps = [] := by decide

theorem steps_name {name : String} (noSlash : '/' ∉ name.toList) :
    (Path.mk name).steps = if isIdle name then [] else [name] := by
  rw [steps_eq, Text.split_of_notMem noSlash]
  cases h : isIdle name <;> simp [h]

theorem isAbsolute_slash {front : String} (some : front ≠ "") (back : String) :
    (Path.mk (front ++ back)).isAbsolute = (Path.mk front).isAbsolute := by
  rw [Bool.eq_iff_iff, isAbsolute_iff, isAbsolute_iff, String.toList_append,
    List.head?_append_of_ne_nil]
  exact fun none => some (String.toList_inj.mp none)

theorem joinName_steps (p : Path) {name : String} (noSlash : '/' ∉ name.toList) :
    (p.joinName name).isAbsolute = p.isAbsolute ∧
      (p.joinName name).steps = p.steps ++ (Path.mk name).steps := by
  have alone : (Path.mk name).isAbsolute = false := isAbsolute_of_notMem noSlash
  by_cases empty : p.text = ""
  · have none : p = ⟨""⟩ := by cases p; simp_all
    rw [joinName, join, if_pos (by simp [empty]), none, alone, steps_empty]
    exact ⟨by decide, rfl⟩
  rw [joinName, join, if_neg (by simp [alone, empty])]
  split
  · next closed =>
    -- The path ends in a slash already, which makes no step.
    obtain ⟨front, eq⟩ := slash_of_endsWith closed
    have closing : p.steps = (Path.mk front).steps := by
      have := steps_slash front ""
      rw [steps_empty, List.append_nil, String.append_empty, ← eq] at this
      exact this
    refine ⟨isAbsolute_slash empty name, ?_⟩
    rw [closing, eq]
    exact steps_slash front name
  · refine ⟨?_, steps_slash p.text name⟩
    rw [String.append_assoc]
    exact isAbsolute_slash empty _

def Component.step? : Component → Option String
  | root | here => none
  | up => some ".."
  | name text => some text

theorem Component.step?_ofSegment (segment : String) : (ofSegment segment).step? = some segment := by
  unfold ofSegment
  split
  · next up => rw [up]; rfl
  · rfl

theorem components_steps (p : Path) :
    p.isAbsolute = (p.components.head? == some .root) ∧
      p.steps = p.components.filterMap Component.step? := by
  have back : ∀ segments : List String,
      (segments.map Component.ofSegment).filterMap Component.step? = segments := by
    intro segments
    rw [List.filterMap_map, show Component.step? ∘ Component.ofSegment = some from
      funext Component.step?_ofSegment, List.filterMap_some]
  have notRoot : ∀ segments : List String,
      ((segments.map Component.ofSegment).head? == some .root) = false := by
    intro segments
    cases segments with
    | nil => rfl
    | cons segment rest =>
      simp only [List.map_cons, List.head?_cons, Component.ofSegment]
      split <;> rfl
  unfold components steps
  cases p.isAbsolute with
  | true => exact ⟨rfl, (back _).symm⟩
  | false =>
    rw [if_neg (by simp)]
    split
    · next rest segments =>
      rw [segments, List.filter_cons_of_neg (by decide)]
      exact ⟨rfl, (back _).symm⟩
    · exact ⟨(notRoot _).symm, (back _).symm⟩

theorem steps_of_same {p q : Path} (same : p.same q = true) :
    p.isAbsolute = q.isAbsolute ∧ p.steps = q.steps := by
  have same : p.components = q.components := beq_iff_eq.mp same
  rw [p.components_steps.1, p.components_steps.2, q.components_steps.1, q.components_steps.2, same]
  exact ⟨rfl, rfl⟩

theorem steps_of_same_here {p : Path} (here : p.same ⟨"."⟩ = true) :
    p.isAbsolute = false ∧ p.steps = [] := by
  obtain ⟨absolute, steps⟩ := steps_of_same here
  exact ⟨absolute.trans (by decide +kernel), steps.trans (by decide +kernel)⟩

end Path

namespace Files.Workspace

theorem foldl_enter_steps (loc : Location) (segments : List String) :
    (segments.filter fun segment => !Path.isIdle segment).foldl enter loc =
      segments.foldl enter loc := by
  induction segments generalizing loc with
  | nil => rfl
  | cons segment rest ih =>
    cases idle : Path.isIdle segment with
    | true => rw [List.filter_cons_of_neg (by simp [idle]), ih, List.foldl_cons, enter_of_idle idle]
    | false => rw [List.filter_cons_of_pos (by simp [idle]), List.foldl_cons, List.foldl_cons, ih]

theorem visits_steps (loc : Location) (segments : List String) :
    visits loc (segments.filter fun segment => !Path.isIdle segment) = visits loc segments := by
  induction segments generalizing loc with
  | nil => rfl
  | cons segment rest ih =>
    cases idle : Path.isIdle segment with
    | true => rw [List.filter_cons_of_neg (by simp [idle]), ih, visits, if_pos idle]
    | false =>
      rw [List.filter_cons_of_pos (by simp [idle]), visits, visits, ih, ih, ih]

theorem visits_append (loc : Location) (first second : List String) :
    visits loc (first ++ second) = visits loc first ++ visits (first.foldl enter loc) second := by
  induction first generalizing loc with
  | nil => rfl
  | cons segment rest ih =>
    rw [List.cons_append, visits, visits, List.foldl_cons, enter]
    split_ifs
    · exact ih loc
    · exact ih loc.dropLast
    · rw [ih, List.cons_append]

section

variable (w : Workspace)

theorem visited_eq (p : Path) : w.visited p = visits (w.start p) p.steps :=
  (visits_steps _ _).symm

theorem location_eq (p : Path) : w.location p = p.steps.foldl enter (w.start p) :=
  (foldl_enter_steps _ _).symm

theorem visited_joinName (p : Path) {name : String} (noSlash : '/' ∉ name.toList) :
    w.visited (p.joinName name) = w.visited p ++ visits (w.location p) [name] := by
  obtain ⟨absolute, steps⟩ := p.joinName_steps noSlash
  have start : w.start (p.joinName name) = w.start p := by rw [start, start, absolute]
  rw [visited_eq, visited_eq, location_eq, steps, start, visits_append, ← visits_steps _ [name],
    Path.steps_name noSlash]
  cases h : Path.isIdle name <;> simp [h]

theorem location_joinName (p : Path) {name : String} (noSlash : '/' ∉ name.toList) :
    w.location (p.joinName name) = enter (w.location p) name := by
  obtain ⟨absolute, steps⟩ := p.joinName_steps noSlash
  have start : w.start (p.joinName name) = w.start p := by rw [start, start, absolute]
  rw [location_eq, location_eq, steps, start, List.foldl_append, Path.steps_name noSlash]
  cases h : Path.isIdle name with
  | true => exact (enter_of_idle h _).symm
  | false => rfl

end

/-! ### The same path in a larger tree -/

section

variable {t t' : Tree} {loc l : Location} {segments : List String} {e : Entry}

theorem visits_of_named {segment : String} (named : Named segment) (loc : Location)
    (rest : List String) :
    visits loc (segment :: rest) = (loc ++ [segment]) :: visits (loc ++ [segment]) rest := by
  rw [visits, if_neg (by simp [named.notIdle]), if_neg named.notUp]

/-- On a way that meets no new entry the smaller tree has the same entries. -/
theorem Leads.back (ext : t.Extends t')
    (old : ∀ l ∈ visits loc segments, t.find? l = none → t'.find? l = none)
    (leads : Leads t' loc segments (.present l e)) :
    ∃ e', Leads t loc segments (.present l e') ∧ e.isFolder = e'.isFolder := by
  have known : ∀ l e, t'.find? l = some e → (t.find? l = none → t'.find? l = none) →
      ∃ e', t.find? l = some e' ∧ e.isFolder = e'.isFolder := by
    intro l e found old
    cases before : t.find? l with
    | none => rw [old before] at found; cases found
    | some e' =>
      obtain ⟨_, found', same⟩ := ext.kept l e' before
      cases found.symm.trans found'
      exact ⟨e', rfl, same⟩
  -- Induction on the walk in the larger tree; `old` shrinks to the rest of the way with it.
  generalize ends : Spot.present l e = spot at leads
  induction leads with
  | stop => cases ends; exact ⟨_, .stop _, rfl⟩
  | idle idle _ ih =>
    rw [visits, if_pos idle] at old
    obtain ⟨e', leads, same⟩ := ih old ends
    exact ⟨e', .idle idle leads, same⟩
  | up _ ih =>
    rw [visits, if_neg (by decide), if_pos rfl] at old
    obtain ⟨e', leads, same⟩ := ih old ends
    exact ⟨e', .up leads, same⟩
  | down named found _ ih =>
    rw [visits_of_named named, List.forall_mem_cons] at old
    obtain ⟨before, found', same⟩ := known _ _ found old.1
    obtain ⟨e', leads, same'⟩ := ih old.2 ends
    cases before with
    | folder => exact ⟨e', .down named found' leads, same'⟩
    | file bytes => cases same
  | file named found =>
    cases ends
    rw [visits_of_named named, List.forall_mem_cons] at old
    obtain ⟨e', found', same⟩ := known _ _ found old.1
    cases e' with
    | folder => cases same
    | file bytes => exact ⟨_, .file named found', rfl⟩
  | free => cases ends

/-- What is there in the smaller tree is there in the larger one, and the way to it is an old
one. -/
theorem Leads.forth (ext : t.Extends t') (leads : Leads t loc segments (.present l e)) :
    (∃ e', Leads t' loc segments (.present l e') ∧ e'.isFolder = e.isFolder) ∧
      ∀ l ∈ visits loc segments, t.find? l ≠ none := by
  generalize ends : Spot.present l e = spot at leads
  induction leads with
  | stop => cases ends; exact ⟨⟨_, .stop _, rfl⟩, by simp [visits]⟩
  | idle idle _ ih =>
    obtain ⟨⟨e', leads, same⟩, old⟩ := ih ends
    rw [visits, if_pos idle]
    exact ⟨⟨e', .idle idle leads, same⟩, old⟩
  | up _ ih =>
    obtain ⟨⟨e', leads, same⟩, old⟩ := ih ends
    rw [visits, if_neg (by decide), if_pos rfl]
    exact ⟨⟨e', .up leads, same⟩, old⟩
  | down named found _ ih =>
    obtain ⟨⟨e', leads, same⟩, old⟩ := ih ends
    rw [visits_of_named named, List.forall_mem_cons]
    exact ⟨⟨e', .down named (ext.keepsFolders _ found) leads, same⟩, by simp [found], old⟩
  | file named found =>
    cases ends
    obtain ⟨e', found', same⟩ := ext.kept _ _ found
    rw [visits_of_named named, List.forall_mem_cons]
    cases e' with
    | folder => cases same
    | file bytes => exact ⟨⟨_, .file named found', rfl⟩, by simp [found], by simp [visits]⟩
  | free => cases ends

end

variable {w : Workspace} {t : Tree} {p : Path}

/-- The way of a path meets no entry that only the larger tree has. -/
def Old (w : Workspace) (t : Tree) (p : Path) : Prop :=
  ∀ l ∈ w.visited p, w.tree.find? l = none → t.find? l = none

instance (w : Workspace) (t : Tree) : DecidablePred (w.Old t) := fun p =>
  inferInstanceAs (Decidable (∀ l ∈ w.visited p, w.tree.find? l = none → t.find? l = none))

theorem old_of_same {q : Path} (same : p.same q = true) : w.Old t p ↔ w.Old t q := by
  obtain ⟨absolute, steps⟩ := Path.steps_of_same same
  unfold Old
  rw [visited_eq, visited_eq, steps, start, absolute, start]

theorem resolve_present_iff (ext : w.tree.Extends t) (folder : Bool) (l : Location) :
    (∃ e, w.resolve p = .ok (.present l e) ∧ e.isFolder = folder) ↔
      (∃ e, (w.onTree t).resolve p = .ok (.present l e) ∧ e.isFolder = folder) ∧ w.Old t p := by
  constructor
  · rintro ⟨e, ends, kind⟩
    obtain ⟨⟨e', leads, same⟩, old⟩ := (leads_of_resolve ends).forth ext
    exact ⟨⟨e', resolve_onTree ends leads, same.trans kind⟩, fun l mem new =>
      absurd new (old l mem)⟩
  · rintro ⟨⟨e, ends, kind⟩, old⟩
    obtain ⟨e', leads, same⟩ := (leads_of_resolve ends).back ext old
    exact ⟨e', resolve_ok_iff.mpr ⟨(resolve_ok_iff.mp ends).1, leads⟩, same.symm.trans kind⟩

theorem isFolder_iff : w.isFolder p = true ↔
    ∃ l e, w.resolve p = .ok (.present l e) ∧ e.isFolder = true := by
  unfold isFolder entry
  cases w.resolve p with
  | error cause => simp
  | ok spot =>
    cases spot with
    | free l slashed => simp
    | present l e => cases e <;> simp [Entry.isFolder]

theorem isFile_iff : w.isFile p = true ↔
    ∃ l e, w.resolve p = .ok (.present l e) ∧ e.isFolder = false := by
  unfold isFile Workspace.entry
  cases w.resolve p with
  | error cause => simp
  | ok spot =>
    cases spot with
    | free l slashed => simp
    | present l e => cases e <;> simp [Entry.isFolder]

theorem holds_iff : w.holds p = true ↔ ∃ l e, w.resolve p = .ok (.present l e) := by
  unfold holds entry
  cases w.resolve p with
  | error cause => simp [Except.toBool]
  | ok spot =>
    cases spot with
    | free l slashed => simp [Except.toBool]
    | present l e => simp [Except.toBool]

theorem isFolder_onTree (ext : w.tree.Extends t) :
    w.isFolder p = true ↔ (w.onTree t).isFolder p = true ∧ w.Old t p := by
  rw [isFolder_iff, isFolder_iff]
  simp only [resolve_present_iff ext true, exists_and_right]

theorem isFile_onTree (ext : w.tree.Extends t) :
    w.isFile p = true ↔ (w.onTree t).isFile p = true ∧ w.Old t p := by
  rw [isFile_iff, isFile_iff]
  simp only [resolve_present_iff ext false, exists_and_right]

theorem holds_onTree (ext : w.tree.Extends t) :
    w.holds p = true ↔ (w.onTree t).holds p = true ∧ w.Old t p := by
  have kinds : ∀ w : Workspace, (∃ l e, w.resolve p = .ok (.present l e)) ↔
      ∃ folder l e, w.resolve p = .ok (.present l e) ∧ e.isFolder = folder :=
    fun w => ⟨fun ⟨l, e, ends⟩ => ⟨_, l, e, ends, rfl⟩, fun ⟨_, l, e, ends, _⟩ => ⟨l, e, ends⟩⟩
  rw [holds_iff, holds_iff, kinds, kinds]
  simp only [resolve_present_iff ext, exists_and_right]

end Files.Workspace

end ClassDiagram
