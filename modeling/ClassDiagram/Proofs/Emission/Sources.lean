import ClassDiagram.Emission
import ClassDiagram.Proofs.Glob.Growth

/-! What an emission takes from the files: a configuration, a descriptor, and the units that a
manifest lists by path or by pattern. Files may be added to a tree beside all of these, and the plan
stays the same. -/

namespace ClassDiagram

namespace Files.Workspace

variable {w : Workspace} {t : Tree} {p : Path}

/-- Nothing has changed on the way of a path. -/
def Untouched (w : Workspace) (t : Tree) (p : Path) : Prop :=
  ∀ l ∈ w.visited p, t.find? l = w.tree.find? l

theorem Untouched.old (untouched : w.Untouched t p) : w.Old t p := fun l mem none =>
  (untouched l mem).trans none

theorem Untouched.entry (untouched : w.Untouched t p) : (w.onTree t).entry p = w.entry p := by
  rw [Workspace.entry, Workspace.entry, resolve_congr untouched]

theorem Untouched.readText (untouched : w.Untouched t p) :
    (w.onTree t).readText p = w.readText p := by
  rw [Workspace.readText, Workspace.readText, read, read, untouched.entry]

end Files.Workspace

open Files (Tree Workspace)

variable {w : Workspace} {t : Tree}

/-! ### The configuration -/

theorem Places.nearestDocument?_onTree (ext : w.tree.Extends t) (start : Path)
    (untouched : ∀ p, nearestDocument? (w.onTree t) start = some p → w.Untouched t p) :
    nearestDocument? (w.onTree t) start = nearestDocument? w start := by
  unfold nearestDocument? at untouched ⊢
  generalize start.ancestors.map (fun folder => folder.joinName documentName) = places at *
  -- No place loses its document in the larger tree, and the one found there was there before.
  have fewer : ∀ p, (w.onTree t).isFile p = false → w.isFile p = false := by
    intro p
    rw [← Bool.not_eq_true, ← Bool.not_eq_true, Workspace.isFile_onTree ext]
    exact fun absent there => absent there.1
  cases found : places.find? (w.onTree t).isFile with
  | none =>
    rw [List.find?_eq_none] at found
    refine (List.find?_eq_none.mpr fun p mem => ?_).symm
    simpa using fewer p (by simpa using found p mem)
  | some p =>
    obtain ⟨there, before, after, places, earlier⟩ := List.find?_eq_some_iff_append.mp found
    refine (List.find?_eq_some_iff_append.mpr ⟨?_, before, after, places, fun q mem => ?_⟩).symm
    · exact (Workspace.isFile_onTree ext).mpr ⟨there, (untouched p found).old⟩
    · simpa using fewer q (by simpa using earlier q mem)

def LoadedConfig.source? (w : Workspace) (asked : Option Path) (start : Path) : Option Path :=
  asked.or (Places.nearestDocument? w start)

theorem LoadedConfig.load_onTree (ext : w.tree.Extends t) (asked : Option Path) (start : Path)
    (untouched : ∀ p, source? (w.onTree t) asked start = some p → w.Untouched t p) :
    load (w.onTree t) asked start = load w asked start := by
  have reads : ∀ p, w.Untouched t p → loadFrom (w.onTree t) p = loadFrom w p := by
    intro p same
    rw [loadFrom, loadFrom, same.readText]
  cases asked with
  | some path =>
    have same := untouched path rfl
    have file : (w.onTree t).isFile path = w.isFile path := by
      rw [Workspace.isFile, Workspace.isFile, same.entry]
    simp only [load, file, reads path same]
  | none =>
    have nearest := Places.nearestDocument?_onTree ext start untouched
    simp only [load, nearest]
    split
    · rfl
    · next path found => exact reads path (untouched path (nearest.trans found))

/-! ### The units of a manifest -/

namespace Manifest

def matched (w : Workspace) (base : Path) (entry : String) : List Path :=
  (resolve w base entry).toOption.getD []

def listed (w : Workspace) (path : Path) : List Path :=
  (((w.readText path).toOption.bind entries?).getD []).flatMap (matched w path.folder)

def patternMatches (w : Workspace) (path : Path) : List Path :=
  ((((w.readText path).toOption.bind entries?).getD []).filter Glob.isPattern).flatMap
    (matched w path.folder)

theorem patternMatches_subset (w : Workspace) (path : Path) :
    patternMatches w path ⊆ listed w path := by
  intro p mem
  obtain ⟨entry, mem, inside⟩ := List.mem_flatMap.mp mem
  exact List.mem_flatMap.mpr ⟨entry, (List.mem_filter.mp mem).1, inside⟩

theorem resolve_onTree (ext : w.tree.Extends t) (proper : t.Proper) {base : Path} {entry : String}
    (old : Glob.isPattern entry = true → ∀ p ∈ matched (w.onTree t) base entry, w.Old t p) :
    resolve (w.onTree t) base entry = resolve w base entry := by
  unfold matched at old
  unfold resolve at old ⊢
  split
  · next pattern =>
    rw [if_pos pattern] at old
    rw [Glob.matches?_onTree ext proper]
    intro found matches? p mem
    rw [matches?] at old
    exact old pattern p mem
  · rfl

theorem resolveAll_onTree (ext : w.tree.Extends t) (proper : t.Proper) {base : Path}
    {entries : List String}
    (old : ∀ entry ∈ entries, Glob.isPattern entry = true →
      ∀ p ∈ matched (w.onTree t) base entry, w.Old t p)
    (known : List Path) :
    resolveAll (w.onTree t) base known entries = resolveAll w base known entries := by
  induction entries generalizing known with
  | nil => rfl
  | cons entry entries ih =>
    obtain ⟨first, rest⟩ := List.forall_mem_cons.mp old
    rw [resolveAll, resolveAll, resolve_onTree ext proper first]
    simp only [ih rest]

theorem filter_addNew {keep : Path → Bool} (respects : ∀ {p q}, p.same q = true → keep p = keep q)
    (known found : List Path) :
    (addNew known found).filter keep = addNew (known.filter keep) (found.filter keep) := by
  unfold addNew
  induction found generalizing known with
  | nil => rfl
  | cons p found ih =>
    rw [List.foldl_cons, ih]
    cases kept : keep p with
    | false =>
      rw [List.filter_cons_of_neg (by simp [kept])]
      split
      · rfl
      · rw [List.filter_append, List.filter_cons_of_neg (by simp [kept]), List.filter_nil,
          List.append_nil]
    | true =>
      have known' : (known.filter keep).any (·.same p) = known.any (·.same p) := by
        rw [List.any_filter, Bool.eq_iff_iff, List.any_eq_true, List.any_eq_true]
        refine exists_congr fun q => and_congr_right fun _ => ?_
        rw [Bool.and_eq_true, and_iff_right_iff_imp]
        exact fun same => (respects same).trans kept
      rw [List.filter_cons_of_pos kept, List.foldl_cons, known']
      split
      · rfl
      · rw [List.filter_append, List.filter_cons_of_pos kept, List.filter_nil]

theorem filter_resolve (ext : w.tree.Extends t) (proper : t.Proper) {base : Path} {entry : String}
    {found found' : List Path} (before : resolve w base entry = .ok found)
    (after : resolve (w.onTree t) base entry = .ok found') :
    found'.filter (w.Old t) = found.filter (w.Old t) := by
  unfold resolve at before after
  split at before
  · next pattern =>
    rw [if_pos pattern] at after
    rw [Glob.matches?_filter ext proper] at before
    cases all : Glob.matches? (w.onTree t) (base.joinName entry) with
    | none => simp [all] at after
    | some all' =>
      simp only [all, Option.map_some, Except.ok.injEq] at before after
      rw [← before, ← after, List.filter_filter]
      simp
  · next literal =>
    rw [if_neg literal] at after
    cases before
    cases after
    rfl

theorem filter_resolveAll (ext : w.tree.Extends t) (proper : t.Proper) {base : Path}
    {entries : List String} {known known' paths paths' : List Path}
    (same : known'.filter (w.Old t) = known.filter (w.Old t))
    (before : resolveAll w base known entries = .ok paths)
    (after : resolveAll (w.onTree t) base known' entries = .ok paths') :
    paths'.filter (w.Old t) = paths.filter (w.Old t) := by
  induction entries generalizing known known' with
  | nil => cases before; cases after; exact same
  | cons entry entries ih =>
    unfold resolveAll at before after
    split at before
    · cases before
    · next found first =>
      split at after
      · cases after
      · next found' first' =>
        refine ih ?_ before after
        have respects : ∀ {p q : Path}, p.same q = true →
            decide (w.Old t p) = decide (w.Old t q) := fun same =>
          decide_eq_decide.mpr (Workspace.old_of_same same)
        rw [filter_addNew respects, filter_addNew respects, same, filter_resolve ext proper first first']

theorem mem_of_mem_addNew {known found : List Path} {p : Path} (mem : p ∈ addNew known found) :
    p ∈ known ∨ p ∈ found := by
  unfold addNew at mem
  induction found generalizing known with
  | nil => exact .inl mem
  | cons q found ih =>
    rw [List.foldl_cons] at mem
    rcases ih mem with before | later
    · split at before
      · exact .inl before
      · rcases List.mem_append.mp before with before | new
        · exact .inl before
        · exact .inr (List.mem_cons.mpr (.inl (List.mem_singleton.mp new)))
    · exact .inr (List.mem_cons_of_mem q later)

theorem mem_of_mem_resolveAll {base : Path} {entries : List String} {known paths : List Path}
    (found : resolveAll w base known entries = .ok paths) {p : Path} (mem : p ∈ paths) :
    p ∈ known ∨ p ∈ entries.flatMap (matched w base) := by
  induction entries generalizing known with
  | nil => cases found; exact .inl mem
  | cons entry entries ih =>
    unfold resolveAll at found
    split at found
    · cases found
    · next first resolved =>
      rw [List.flatMap_cons, List.mem_append, matched, resolved]
      rcases ih found with before | later
      · rcases mem_of_mem_addNew before with before | new
        · exact .inl before
        · exact .inr (.inl new)
      · exact .inr (.inr later)

theorem units_of_old (ext : w.tree.Extends t) (proper : t.Proper) {path : Path}
    (document : (w.onTree t).readText path = w.readText path)
    (old : ∀ p ∈ patternMatches (w.onTree t) path, w.Old t p) :
    units (w.onTree t) path = units w path := by
  unfold patternMatches at old
  rw [units, units]
  rw [document] at old ⊢
  cases document : w.readText path with
  | error cause => rfl
  | ok text =>
    rw [document] at old
    cases read : entries? text with
    | none => simp [read]
    | some entries =>
      have each : ∀ entry ∈ entries, Glob.isPattern entry = true →
          ∀ p ∈ matched (w.onTree t) path.folder entry, w.Old t p := by
        intro entry inside pattern p mem
        have among : entry ∈ entries.filter Glob.isPattern := List.mem_filter.mpr ⟨inside, pattern⟩
        refine old p (List.mem_flatMap.mpr ⟨entry, ?_, mem⟩)
        simpa [Except.toOption, read] using among
      simp only [read, resolveAll_onTree ext proper each]

theorem units_onTree (ext : w.tree.Extends t) (proper : t.Proper) {path : Path}
    (document : w.Untouched t path)
    (untouched : ∀ p ∈ listed (w.onTree t) path, w.Untouched t p) :
    units (w.onTree t) path = units w path :=
  units_of_old ext proper document.readText fun p mem =>
    (untouched p (patternMatches_subset _ path mem)).old

theorem filter_units (ext : w.tree.Extends t) (proper : t.Proper) {path : Path}
    {paths paths' : List Path} (document : (w.onTree t).readText path = w.readText path)
    (before : units w path = .ok paths) (after : units (w.onTree t) path = .ok paths') :
    paths'.filter (w.Old t) = paths.filter (w.Old t) := by
  unfold units at before after
  rw [document] at after
  split at before
  · cases before
  · next text read =>
    simp only [read] at after
    split at before
    · cases before
    · next entries parsed =>
      simp only [parsed] at after
      exact filter_resolveAll ext proper rfl before after

theorem mem_listed_of_mem_units {path : Path} {paths : List Path}
    (found : units w path = .ok paths) {p : Path} (mem : p ∈ paths) : p ∈ listed w path := by
  unfold units at found
  split at found
  · cases found
  · next text read =>
    split at found
    · cases found
    · next entries parsed =>
      have inside := (mem_of_mem_resolveAll found mem).resolve_left (by simp)
      simpa [listed, read, parsed, Except.toOption] using inside

end Manifest

/-! ### The plan -/

namespace Emission

def unitPaths (w : Workspace) (descriptor : Path) : List Path :=
  match Descriptor.kind? descriptor with
  | some .aggregate => Manifest.listed w descriptor
  | _ => []

/-- The files that an emission reads, and all that its patterns match. -/
def sources (w : Workspace) (r : Request) : List Path :=
  (LoadedConfig.source? w r.config w.cwdPath).toList ++ r.descriptor :: unitPaths w r.descriptor

theorem loadUnit_onTree {path : Path} (untouched : w.Untouched t path) :
    Dump.loadUnit (w.onTree t) path = Dump.loadUnit w path := by
  rw [Dump.loadUnit, Dump.loadUnit, untouched.readText]

theorem find?_builtin (path : Path) :
    Registry.builtin.find? path = (Descriptor.kind? path).map fun kind => (.dump, kind) := by
  show (List.findSome? _ [Provider.dump]) = _
  rw [List.findSome?_singleton]
  rfl

theorem load_onTree (ext : w.tree.Extends t) (proper : t.Proper) {descriptor : Path}
    (document : w.Untouched t descriptor)
    (untouched : ∀ p ∈ unitPaths (w.onTree t) descriptor, w.Untouched t p) :
    Registry.builtin.load (w.onTree t) descriptor = Registry.builtin.load w descriptor := by
  unfold unitPaths at untouched
  rw [Registry.load, Registry.load, find?_builtin]
  cases kind : Descriptor.kind? descriptor with
  | none => rfl
  | some kind' =>
    show Provider.loadDump _ _ = Provider.loadDump _ _
    rw [Provider.loadDump, Provider.loadDump, kind]
    rw [kind] at untouched
    cases kind' with
    | unit => rw [loadUnit_onTree document]
    | aggregate =>
      have units := Manifest.units_onTree ext proper document untouched
      simp only [units]
      cases found : Manifest.units w descriptor with
      | error failure => rfl
      | ok paths =>
        have same : ∀ path ∈ paths, Dump.loadUnit (w.onTree t) path = Dump.loadUnit w path :=
          fun path mem => loadUnit_onTree
            (untouched path (Manifest.mem_listed_of_mem_units (units.trans found) mem))
        exact congrArg Except.ok (List.map_congr_left same)

/-- Files that are added beside all that a plan is made from do not change it. -/
theorem plan_onTree (ext : w.tree.Extends t) (proper : t.Proper) (r : Request)
    (untouched : ∀ p ∈ sources (w.onTree t) r, w.Untouched t p) :
    plan .builtin (w.onTree t) r = plan .builtin w r := by
  unfold sources at untouched
  obtain ⟨document, rest⟩ := List.forall_mem_append.mp untouched
  obtain ⟨descriptor, units⟩ := List.forall_mem_cons.mp rest
  have config : LoadedConfig.load (w.onTree t) r.config (w.onTree t).cwdPath =
      LoadedConfig.load w r.config w.cwdPath :=
    LoadedConfig.load_onTree ext r.config w.cwdPath fun p found =>
      document p (Option.mem_toList.mpr found)
  unfold plan
  rw [config, load_onTree ext proper descriptor units]

end Emission

end ClassDiagram
