import ClassDiagram.Files.Workspace
import Mathlib.Data.List.Induction

/-! Walks along paths, by locations. What the system answers about a path depends on the entries
at the locations that it looks up on the way, and a walk that ends does so where the text of the
path says. -/

namespace ClassDiagram.Files

namespace Tree

def viewFrom (loc : Location) (es : List (Location × Entry)) : List (Location × Entry) :=
  loc.foldl (fun view name => inFolder name view) es

theorem findIn_viewFrom (loc : Location) (name : String) (rest : Location)
    (es : List (Location × Entry)) :
    findIn (name :: rest) (viewFrom loc es) = findIn (loc ++ name :: rest) es := by
  induction loc generalizing es with
  | nil => rfl
  | cons first loc ih =>
    -- The induction is for all entries: those of the folder take the place of those of the root.
    rw [viewFrom, List.foldl_cons, ← viewFrom, ih]
    cases loc with
    | nil => exact findIn_inFolder first name rest es
    | cons second loc => exact findIn_inFolder first second (loc ++ name :: rest) es

end Tree

namespace Workspace

namespace Stand

def on (t : Tree) (loc : Location) : Stand := loc.foldl down (root t)

theorem on_concat (t : Tree) (loc : Location) (name : String) :
    on t (loc ++ [name]) = (on t loc).down name := by
  rw [on, List.foldl_append, List.foldl_cons, List.foldl_nil, on]

theorem on_loc (t : Tree) (loc : Location) : (on t loc).loc = loc := by
  induction loc using List.reverseRecOn with
  | nil => rfl
  | append_singleton loc name ih => rw [on_concat, down, ih]

theorem on_view (t : Tree) (loc : Location) : (on t loc).view = Tree.viewFrom loc t.entries := by
  induction loc using List.reverseRecOn with
  | nil => rfl
  | append_singleton loc name ih =>
    rw [on_concat, down, ih, Tree.viewFrom, Tree.viewFrom, List.foldl_append, List.foldl_cons,
      List.foldl_nil]

theorem on_up (t : Tree) (loc : Location) : (on t loc).up = on t loc.dropLast := by
  induction loc using List.reverseRecOn with
  | nil => rfl
  | append_singleton loc name _ =>
    rw [on_concat, List.dropLast_concat, down, up, List.dropLast_concat]

theorem findIn_on (t : Tree) (loc : Location) (name : String) :
    Tree.findIn [name] (on t loc).view = t.find? (loc ++ [name]) := by
  rw [on_view, Tree.findIn_viewFrom, Tree.find?, if_neg (by simp)]

end Stand

/-- A walk by the locations of its tree alone. -/
def follow (t : Tree) (loc : Location) : Entry → List String → Except IoCause Spot
  | entry, [] => .ok (.present loc entry)
  | .file _, _ :: _ => .error .notFolder
  | .folder, segment :: rest =>
    if Path.isIdle segment then follow t loc .folder rest
    else if segment = ".." then follow t loc.dropLast .folder rest
    else if nameLimit < segment.utf8ByteSize then .error .nameTooLong
    else match t.find? (loc ++ [segment]) with
      | some entry => follow t (loc ++ [segment]) entry rest
      | none =>
        if rest.all (· == "") then .ok (.free (loc ++ [segment]) (!rest.isEmpty))
        else .error .missing

theorem walk_on (t : Tree) (loc : Location) (entry : Entry) (segments : List String) :
    walk (.on t loc) entry segments = follow t loc entry segments := by
  induction segments generalizing loc entry with
  | nil => rw [walk, follow, Stand.on_loc]
  | cons segment rest ih =>
    cases entry with
    | file bytes => rw [walk, follow]
    | folder =>
      rw [walk, follow, Stand.on_up, ih, ih, Stand.findIn_on, Stand.on_loc, ← Stand.on_concat]
      cases t.find? (loc ++ [segment]) with
      | none => rfl
      | some entry => simp only [ih]

def start (w : Workspace) (p : Path) : Location := if p.isAbsolute then [] else w.cwd

theorem resolve_eq (w : Workspace) (p : Path) :
    w.resolve p =
      if hasNul p then .error .nulInPath
      else if p.text == "" then .error .missing
      else if pathLimit < p.text.utf8ByteSize then .error .nameTooLong
      else follow w.tree (w.start p) .folder p.segments := by
  have begins : (if p.isAbsolute then Stand.root w.tree
      else w.cwd.foldl Stand.down (Stand.root w.tree)) = Stand.on w.tree (w.start p) := by
    unfold start
    split <;> rfl
  simp only [resolve, begins, walk_on]

structure Named (segment : String) : Prop where
  notIdle : Path.isIdle segment = false
  notUp : segment ≠ ".."
  fits : segment.utf8ByteSize ≤ nameLimit

/-- The ways on which a walk from a folder comes to an end. On its way it meets folders only. -/
inductive Leads (t : Tree) : Location → List String → Spot → Prop
  | stop (loc : Location) : Leads t loc [] (.present loc .folder)
  | idle {loc : Location} {segment : String} {rest : List String} {spot : Spot} :
      Path.isIdle segment = true → Leads t loc rest spot → Leads t loc (segment :: rest) spot
  | up {loc : Location} {rest : List String} {spot : Spot} :
      Leads t loc.dropLast rest spot → Leads t loc (".." :: rest) spot
  | down {loc : Location} {segment : String} {rest : List String} {spot : Spot} :
      Named segment → t.find? (loc ++ [segment]) = some .folder →
      Leads t (loc ++ [segment]) rest spot → Leads t loc (segment :: rest) spot
  | file {loc : Location} {segment : String} {bytes : Bytes} :
      Named segment → t.find? (loc ++ [segment]) = some (.file bytes) →
      Leads t loc [segment] (.present (loc ++ [segment]) (.file bytes))
  | free {loc : Location} {segment : String} {rest : List String} :
      Named segment → t.find? (loc ++ [segment]) = none → rest.all (· == "") = true →
      Leads t loc (segment :: rest) (.free (loc ++ [segment]) (!rest.isEmpty))

theorem follow_of_named {t : Tree} {loc : Location} {segment : String} (named : Named segment)
    (rest : List String) :
    follow t loc .folder (segment :: rest) =
      match t.find? (loc ++ [segment]) with
      | some entry => follow t (loc ++ [segment]) entry rest
      | none =>
        if rest.all (· == "") then .ok (.free (loc ++ [segment]) (!rest.isEmpty))
        else .error .missing := by
  rw [follow, if_neg (by simp [named.notIdle]), if_neg named.notUp,
    if_neg (Nat.not_lt.mpr named.fits)]

theorem leads_of_follow {t : Tree} {loc : Location} {segments : List String} {spot : Spot}
    (ends : follow t loc .folder segments = .ok spot) : Leads t loc segments spot := by
  induction segments generalizing loc with
  | nil => cases ends; exact .stop loc
  | cons segment rest ih =>
    by_cases idle : Path.isIdle segment = true
    · rw [follow, if_pos idle] at ends
      exact .idle idle (ih ends)
    by_cases up : segment = ".."
    · rw [follow, if_neg idle, if_pos up] at ends
      exact up ▸ .up (ih ends)
    by_cases long : nameLimit < segment.utf8ByteSize
    · rw [follow, if_neg idle, if_neg up, if_pos long] at ends
      cases ends
    have named : Named segment := ⟨by simpa using idle, up, Nat.not_lt.mp long⟩
    rw [follow_of_named named] at ends
    cases found : t.find? (loc ++ [segment]) with
    | none =>
      rw [found] at ends
      by_cases closing : rest.all (· == "") = true
      · rw [if_pos closing] at ends
        cases ends
        exact .free named found closing
      · rw [if_neg closing] at ends
        cases ends
    | some entry =>
      rw [found] at ends
      cases entry with
      | folder => exact .down named found (ih ends)
      | file bytes =>
        cases rest with
        | nil => cases ends; exact .file named found
        | cons next rest => cases ends

theorem Leads.follow {t : Tree} {loc : Location} {segments : List String} {spot : Spot}
    (leads : Leads t loc segments spot) : follow t loc .folder segments = .ok spot := by
  induction leads with
  | stop loc => rfl
  | idle idle _ ih => rw [Workspace.follow, if_pos idle, ih]
  | up _ ih => rw [Workspace.follow, if_neg (by decide), if_pos rfl, ih]
  | down named found _ ih => rw [follow_of_named named, found]; exact ih
  | file named found => rw [follow_of_named named, found]; rfl
  | free named found closing => rw [follow_of_named named, found]; exact if_pos closing

structure Askable (p : Path) : Prop where
  noNul : hasNul p = false
  notEmpty : p.text ≠ ""
  fits : p.text.utf8ByteSize ≤ pathLimit

theorem resolve_ok_iff {w : Workspace} {p : Path} {spot : Spot} :
    w.resolve p = .ok spot ↔ Askable p ∧ Leads w.tree (w.start p) p.segments spot := by
  rw [resolve_eq]
  constructor
  · intro ends
    split_ifs at ends with nul empty long
    exact ⟨⟨by simpa using nul, by simpa using empty, Nat.not_lt.mp long⟩, leads_of_follow ends⟩
  · rintro ⟨askable, leads⟩
    rw [if_neg (by simp [askable.noNul]), if_neg (by simp [askable.notEmpty]),
      if_neg (Nat.not_lt.mpr askable.fits), leads.follow]

theorem leads_of_resolve {w : Workspace} {p : Path} {spot : Spot} (ends : w.resolve p = .ok spot) :
    Leads w.tree (w.start p) p.segments spot := (resolve_ok_iff.mp ends).2

theorem resolve_onTree {w : Workspace} {p : Path} {spot spot' : Spot} {t : Tree}
    (ends : w.resolve p = .ok spot) (leads : Leads t (w.start p) p.segments spot') :
    (w.onTree t).resolve p = .ok spot' :=
  resolve_ok_iff.mpr ⟨(resolve_ok_iff.mp ends).1, leads⟩

/-! ### Where a walk ends -/

def enter (loc : Location) (segment : String) : Location :=
  if Path.isIdle segment then loc
  else if segment = ".." then loc.dropLast
  else loc ++ [segment]

theorem enter_of_idle {segment : String} (idle : Path.isIdle segment = true) (loc : Location) :
    enter loc segment = loc := if_pos idle

theorem enter_of_named {segment : String} (named : Named segment) (loc : Location) :
    enter loc segment = loc ++ [segment] := by
  rw [enter, if_neg (by simp [named.notIdle]), if_neg named.notUp]

def location (w : Workspace) (p : Path) : Location := p.segments.foldl enter (w.start p)

end Workspace

namespace Spot

def loc : Spot → Location
  | present loc _ => loc
  | free loc _ => loc

/-- What a spot says of the tree. Of a folder it says nothing, since the root and the folder that a
walk starts in need no entry. -/
def HoldsIn (t : Tree) : Spot → Prop
  | present loc (.file bytes) => t.find? loc = some (.file bytes)
  | present _ .folder => True
  | free loc _ => t.find? loc = none

def takesFile : Spot → Bool
  | present _ (.file _) => true
  | present _ .folder => false
  | free _ slashed => !slashed

end Spot

namespace Workspace

theorem foldl_enter_of_empty {rest : List String} (empty : rest.all (· == "") = true)
    (loc : Location) : rest.foldl enter loc = loc := by
  induction rest with
  | nil => rfl
  | cons segment rest ih =>
    obtain ⟨first, empty⟩ := Bool.and_eq_true_iff.mp (List.all_cons.symm.trans empty)
    have idle : Path.isIdle segment = true := by simp [Path.isIdle, first]
    rw [List.foldl_cons, enter_of_idle idle, ih empty]

theorem Leads.loc_eq {t : Tree} {loc : Location} {segments : List String} {spot : Spot}
    (leads : Leads t loc segments spot) : spot.loc = segments.foldl enter loc := by
  induction leads with
  | stop loc => rfl
  | idle idle _ ih => rw [List.foldl_cons, enter_of_idle idle, ih]
  | up _ ih => exact ih
  | down named _ _ ih => rw [List.foldl_cons, enter_of_named named, ih]
  | file named _ => exact (enter_of_named named _).symm
  | free named _ empty => rw [List.foldl_cons, enter_of_named named, foldl_enter_of_empty empty]; rfl

theorem Leads.holdsIn {t : Tree} {loc : Location} {segments : List String} {spot : Spot}
    (leads : Leads t loc segments spot) : spot.HoldsIn t := by
  induction leads with
  | stop => trivial
  | idle _ _ ih | up _ ih | down _ _ _ ih => exact ih
  | file _ found => exact found
  | free _ absent _ => exact absent

theorem loc_of_resolve {w : Workspace} {p : Path} {spot : Spot} (ends : w.resolve p = .ok spot) :
    spot.loc = w.location p := (leads_of_resolve ends).loc_eq

theorem holdsIn_of_resolve {w : Workspace} {p : Path} {spot : Spot}
    (ends : w.resolve p = .ok spot) : spot.HoldsIn w.tree := (leads_of_resolve ends).holdsIn

theorem Leads.free_concat {t : Tree} {loc free : Location} {slashed : Bool}
    {segments : List String} {name : String} (notEmpty : name ≠ "")
    (leads : Leads t loc (segments ++ [name]) (.free free slashed)) :
    slashed = false ∧ ∃ folder, free = folder ++ [name] := by
  induction segments generalizing loc with
  | nil =>
    cases leads with
    | idle _ later | up later | down _ _ later => cases later
    | free => exact ⟨rfl, loc, rfl⟩
  | cons segment rest ih =>
    rw [List.cons_append] at leads
    generalize more : rest ++ [name] = later at leads ih
    cases leads with
    | idle _ leads | up leads | down _ _ leads => exact ih leads
    -- What follows a free place is empty, and the name that comes last is not.
    | free _ _ empty => simp [← more, notEmpty] at empty

/-! ### Walks in two trees -/

def visits (loc : Location) : List String → List Location
  | [] => []
  | segment :: rest =>
    if Path.isIdle segment then visits loc rest
    else if segment = ".." then visits loc.dropLast rest
    else (loc ++ [segment]) :: visits (loc ++ [segment]) rest

def visited (w : Workspace) (p : Path) : List Location := visits (w.start p) p.segments

theorem follow_congr {t t' : Tree} {loc : Location} {segments : List String}
    (same : ∀ l ∈ visits loc segments, t'.find? l = t.find? l) (entry : Entry) :
    follow t' loc entry segments = follow t loc entry segments := by
  induction segments generalizing loc entry with
  | nil => rw [follow, follow]
  | cons segment rest ih =>
    cases entry with
    | file bytes => rw [follow, follow]
    | folder =>
      rw [follow, follow]
      unfold visits at same
      by_cases idle : Path.isIdle segment = true
      · rw [if_pos idle] at same
        rw [if_pos idle, if_pos idle, ih same]
      by_cases up : segment = ".."
      · rw [if_neg idle, if_pos up] at same
        rw [if_neg idle, if_neg idle, if_pos up, if_pos up, ih same]
      rw [if_neg idle, if_neg up] at same
      have later := fun entry => ih (fun l mem => same l (List.mem_cons_of_mem _ mem)) entry
      rw [if_neg idle, if_neg idle, if_neg up, if_neg up, same _ List.mem_cons_self]
      simp only [later]

theorem mem_of_mem_visits {loc l : Location} {segments : List String} (mem : l ∈ visits loc segments)
    {name : String} (part : name ∈ l) : name ∈ loc ∨ name ∈ segments := by
  induction segments generalizing loc with
  | nil => cases mem
  | cons segment rest ih =>
    unfold visits at mem
    split_ifs at mem
    · exact (ih mem).imp_right (List.mem_cons_of_mem _)
    · exact (ih mem).imp (List.dropLast_subset _ ·) (List.mem_cons_of_mem _)
    · have inside : name ∈ loc ++ [segment] ∨ name ∈ rest := by
        rcases List.mem_cons.mp mem with rfl | later
        · exact .inl part
        · exact ih later
      simpa [or_assoc] using inside

theorem mem_of_mem_foldl_enter {loc : Location} {segments : List String} {name : String}
    (part : name ∈ segments.foldl enter loc) : name ∈ loc ∨ name ∈ segments := by
  induction segments generalizing loc with
  | nil => exact .inl part
  | cons segment rest ih =>
    rcases ih part with inside | later
    · unfold enter at inside
      split_ifs at inside
      · exact .inl inside
      · exact .inl (List.dropLast_subset _ inside)
      · exact (List.mem_append.mp inside).imp_right fun same =>
          List.mem_cons.mpr (.inl (List.mem_singleton.mp same))
    · exact .inr (List.mem_cons_of_mem _ later)

theorem mem_cwd_of_mem_start {w : Workspace} {p : Path} {name : String}
    (part : name ∈ w.start p) : name ∈ w.cwd := by
  unfold start at part
  split_ifs at part
  · cases part
  · exact part

theorem mem_of_mem_location {w : Workspace} {p : Path} {name : String}
    (part : name ∈ w.location p) : name ∈ w.cwd ++ p.segments :=
  List.mem_append.mpr ((mem_of_mem_foldl_enter part).imp_left mem_cwd_of_mem_start)

theorem resolve_congr {w : Workspace} {t : Tree} {p : Path}
    (same : ∀ l ∈ w.visited p, t.find? l = w.tree.find? l) :
    (w.onTree t).resolve p = w.resolve p := by
  have follows := follow_congr same .folder
  rw [resolve_eq, resolve_eq]
  unfold onTree start at *
  rw [follows]

theorem resolve_place_of_notMem {w : Workspace} {p : Path} {folder : Location} {name : String}
    (off : name ∉ w.cwd ++ p.segments) (entry : Entry) :
    (w.onTree (w.tree.place (folder ++ [name]) entry)).resolve p = w.resolve p := by
  refine resolve_congr fun l mem => Tree.find?_place_other _ (fun eq => off ?_) entry
  have part : name ∈ l := by simp [eq]
  exact List.mem_append.mpr ((mem_of_mem_visits mem part).imp_left mem_cwd_of_mem_start)

end Workspace

def Tree.KeepsFolders (t t' : Tree) : Prop :=
  ∀ loc, t.find? loc = some .folder → t'.find? loc = some .folder

namespace Workspace

theorem Leads.of_keepsFolders {t t' : Tree} (keeps : t.KeepsFolders t') {loc : Location}
    {segments : List String} {spot : Spot} (leads : Leads t loc segments spot)
    (held : spot.HoldsIn t') : Leads t' loc segments spot := by
  induction leads with
  | stop loc => exact .stop loc
  | idle idle _ ih => exact .idle idle (ih held)
  | up _ ih => exact .up (ih held)
  | down named found _ ih => exact .down named (keeps _ found) (ih held)
  | file named _ => exact .file named held
  | free named _ empty => exact .free named held empty

theorem resolve_of_keepsFolders {w : Workspace} {t : Tree} (keeps : w.tree.KeepsFolders t)
    {p : Path} {spot : Spot} (ends : w.resolve p = .ok spot) (held : spot.HoldsIn t) :
    (w.onTree t).resolve p = .ok spot :=
  resolve_onTree ends ((leads_of_resolve ends).of_keepsFolders keeps held)

theorem Leads.place {t : Tree} {loc : Location} {segments : List String} {spot : Spot}
    (leads : Leads t loc segments spot) (takes : spot.takesFile) (bytes : Bytes) :
    Leads (t.place spot.loc (.file bytes)) loc segments (.present spot.loc (.file bytes)) := by
  induction leads with
  | stop => cases takes
  | idle idle _ ih => exact .idle idle (ih takes)
  | up _ ih => exact .up (ih takes)
  | @down loc segment rest spot named found later ih =>
    -- The file goes to the end of the walk, where no folder is, so the folders on the way stay.
    have apart : loc ++ [segment] ≠ spot.loc := by
      intro same
      have held := later.holdsIn
      rw [same] at found
      cases spot with
      | present l entry =>
        cases entry with
        | file old => exact absurd (held.symm.trans found) (by simp)
        | folder => cases takes
      | free l slashed => exact absurd (held.symm.trans found) (by simp)
    exact .down named ((Tree.find?_place_other t apart _).trans found) (ih takes)
  | file named _ => exact .file named (Tree.find?_place_self t (by simp [Spot.loc]) _)
  | @free loc segment rest named _ _ =>
    have last : rest = [] := by simpa [Spot.takesFile] using takes
    subst last
    exact .file named (Tree.find?_place_self t (by simp [Spot.loc]) _)

theorem resolve_place {w : Workspace} {p : Path} {spot : Spot} (ends : w.resolve p = .ok spot)
    (takes : spot.takesFile) (bytes : Bytes) :
    (w.onTree (w.tree.place spot.loc (.file bytes))).resolve p =
      .ok (.present spot.loc (.file bytes)) :=
  resolve_onTree ends ((leads_of_resolve ends).place takes bytes)

end Workspace

end ClassDiagram.Files
