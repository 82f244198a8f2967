import ClassDiagram.Proofs.Files.Extension
import ClassDiagram.Proofs.Files.Folders
import ClassDiagram.Writer
import Mathlib.Data.List.Perm.Subperm

/-! The new file beside a target. It is nowhere on the way to the target, it leaves no trace when it
is dropped, and it is made again under the same name as long as the names in the folder are the
same but for the target's own. -/

namespace ClassDiagram.Files.Tree

variable {t : Tree} {loc : Location}

theorem erase_place (absent : t.find? loc = none) (entry : Entry) :
    (t.place loc entry).erase loc = t := by
  have inside : ∀ es : List (Location × Entry), findIn loc es = none →
      (placeIn loc entry es).filter (fun e => e.1 ≠ loc) = es := by
    intro es
    induction es with
    | nil => simp [placeIn]
    | cons e es ih =>
      obtain ⟨l, x⟩ := e
      intro none
      by_cases same : l = loc
      · simp [findIn, same] at none
      · have rest : findIn loc es = Option.none := by simpa [findIn, same] using none
        have := ih rest
        simpa [placeIn, same] using this
  have below : loc ≠ [] := fun root => by simp [find?, root] at absent
  have none : findIn loc t.entries = Option.none := by simpa [find?, below] using absent
  exact congrArg Tree.mk (inside t.entries none)

theorem mem_names_place (t : Tree) (loc folder : Location) (entry : Entry) (name : String) :
    name ∈ (t.place loc entry).names folder ↔ name ∈ t.names folder ∨ loc = folder ++ [name] := by
  rw [mem_names, mem_names, locs_place, List.mem_append]
  split
  · next there =>
    simp only [List.not_mem_nil, or_false]
    exact ⟨.inl, fun either => either.elim id fun same => same ▸ there⟩
  · rw [List.mem_singleton, eq_comm (a := loc)]

theorem keepsFolders_place (notFolder : t.find? loc ≠ some .folder) (entry : Entry) :
    t.KeepsFolders (t.place loc entry) := by
  intro other found
  have apart : other ≠ loc := fun same => notFolder (same ▸ found)
  exact (find?_place_other t apart entry).trans found

end ClassDiagram.Files.Tree

namespace ClassDiagram.Files.Spot

theorem not_folder_of_takesFile {t : Tree} {spot : Spot} (held : spot.HoldsIn t)
    (takes : spot.takesFile) : t.find? spot.loc ≠ some .folder := by
  cases spot with
  | present l entry =>
    cases entry with
    | file bytes => exact fun found => absurd (held.symm.trans found) (by simp)
    | folder => cases takes
  | free l slashed => exact fun found => absurd (held.symm.trans found) (by simp)

end ClassDiagram.Files.Spot

namespace ClassDiagram.Writer

open Files (Bytes Entry IoCause Location Spot Tree Workspace)
open Files.Workspace (location mem_of_mem_location resolve_of_keepsFolders)

/-! ### Its name -/

theorem length_draftName (k : Nat) : (draftName k).length = k + 10 := by
  have opening : ".tmp".length = 4 := by decide
  rw [draftName, String.length_append, String.length_pushn, opening, String.length_empty]
  omega

theorem draftName_inj {j k : Nat} (same : draftName j = draftName k) : j = k := by
  have := congrArg String.length same
  rw [length_draftName, length_draftName] at this
  omega

theorem nodup_draftNames (n : Nat) : ((List.range n).map draftName).Nodup :=
  List.Pairwise.map draftName (fun _ _ ne same => ne (draftName_inj same)) List.nodup_range

theorem exists_fresh (others : List String) :
    ∃ name, ((List.range (others.length + 1)).map draftName).find?
      (fun name => !others.contains name) = some name := by
  refine Option.ne_none_iff_exists'.mp fun none => ?_
  have all : ∀ name ∈ (List.range (others.length + 1)).map draftName, name ∈ others := by
    intro name mem
    simpa using List.find?_eq_none.mp none name mem
  have fewer := ((nodup_draftNames (others.length + 1)).subperm all).length_le
  rw [List.length_map, List.length_range] at fewer
  omega

theorem freshName_least (others : List String) : ∃ k, freshName others = draftName k ∧
    draftName k ∉ others ∧ ∀ j < k, draftName j ∈ others := by
  obtain ⟨name, found⟩ := exists_fresh others
  rw [freshName, found]
  rw [List.find?_map] at found
  obtain ⟨k, first, rfl⟩ := Option.map_eq_some_iff.mp found
  obtain ⟨new, _, taken⟩ := List.find?_range_eq_some.mp first
  exact ⟨k, rfl, by simpa using new, fun j less => by simpa using taken j less⟩

/-- The name depends only on which of its candidates are taken. -/
theorem freshName_congr {others others' : List String}
    (same : ∀ k, draftName k ∈ others' ↔ draftName k ∈ others) :
    freshName others' = freshName others := by
  obtain ⟨k, fresh, new, taken⟩ := freshName_least others
  obtain ⟨k', fresh', new', taken'⟩ := freshName_least others'
  rw [fresh, fresh']
  rcases Nat.lt_trichotomy k k' with less | rfl | more
  · exact absurd ((same k).mp (taken' k less)) new
  · rfl
  · exact absurd ((same k').mpr (taken k' more)) new'

theorem toList_draftName (k : Nat) :
    (draftName k).toList = ".tmp".toList ++ List.replicate (k + 6) 'x' := by
  have letters : ∀ n, ("".pushn 'x' n).toList = List.replicate n 'x' := by
    intro n
    induction n with
    | zero => rfl
    | succ n ih =>
      show (("".pushn 'x' n).push 'x').toList = _
      rw [String.toList_push, ih, List.replicate_succ']
  rw [draftName, String.toList_append, letters]

theorem slash_notMem_draftName (k : Nat) : '/' ∉ (draftName k).toList := by
  simp [toList_draftName]

theorem draftName_ne_empty (k : Nat) : draftName k ≠ "" := by
  intro empty
  have := length_draftName k
  simp [empty] at this

/-! ### The file -/

structure Draft.Fresh (w : Workspace) (target : Path) (d : Draft) : Prop where
  free : w.resolve d.path = .ok (.free d.loc false)
  off : ∃ folder name, d.loc = folder ++ [name] ∧ name ∉ w.cwd ++ target.segments

theorem draft_ok_iff {faults : Faults} {w : Workspace} {folder target : Path} {d : Draft} :
    draft faults w folder target = .ok d ↔
      faults.create = none ∧ ∃ names slashed, w.list folder = .ok names ∧
        d.path = draftPath w folder target names ∧
        (w.cwdPath.join d.path).text.utf8ByteSize ≤ Workspace.pathLimit ∧
        w.resolve d.path = .ok (.free d.loc slashed) := by
  unfold draft
  constructor
  · intro made
    split at made
    · cases made
    · cases made
    · next names create list =>
      split at made
      · cases made
      · next fits =>
        split at made
        · next loc slashed free =>
          cases made
          exact ⟨create, names, slashed, list, rfl, Nat.not_lt.mp fits, free⟩
        · cases made
        · cases made
  · rintro ⟨create, names, slashed, list, path, fits, free⟩
    simp only [create, list, ← path, if_neg (Nat.not_lt.mpr fits), free]

theorem draft_fresh {faults : Faults} {w : Workspace} {folder target : Path} {d : Draft}
    (made : draft faults w folder target = .ok d) : d.Fresh w target := by
  obtain ⟨_, names, slashed, _, path, _, free⟩ := draft_ok_iff.mp made
  obtain ⟨k, named, fresh, _⟩ := freshName_least (w.cwd ++ target.segments ++ names)
  obtain ⟨before, last⟩ := folder.segments_joinName (slash_notMem_draftName k)
  have leads := Workspace.leads_of_resolve free
  rw [path, draftPath, named, last] at leads
  obtain ⟨closed, inside, loc⟩ := leads.free_concat (draftName_ne_empty k)
  refine ⟨closed ▸ free, inside, draftName k, loc, fun mem => fresh ?_⟩
  exact List.mem_append_left names mem

theorem Draft.Fresh.loc_ne {w : Workspace} {target : Path} {d : Draft} (fresh : d.Fresh w target) :
    d.loc ≠ w.location target := by
  obtain ⟨folder, name, loc, off⟩ := fresh.off
  intro same
  exact off (mem_of_mem_location (same ▸ loc ▸ by simp))

theorem draft_place {faults : Faults} {w : Workspace} {folder target : Path} {d : Draft}
    {spot : Spot} (made : draft faults w folder target = .ok d) (ends : w.resolve target = .ok spot)
    (takes : spot.takesFile) (bytes : Bytes) (again : Faults) (create : again.create = none) :
    draft again (w.onTree (w.tree.place spot.loc (.file bytes))) folder target = .ok d := by
  have fresh := draft_fresh made
  obtain ⟨_, names, slashed, list, path, fits, free⟩ := draft_ok_iff.mp made
  have keeps := Tree.keepsFolders_place
    (Spot.not_folder_of_takesFile (Workspace.holdsIn_of_resolve ends) takes) (.file bytes)
  have there : spot.loc = w.location target := Workspace.loc_of_resolve ends
  obtain ⟨loc, folderEnds, rfl⟩ := Workspace.folder_of_list list
  have same : freshName (w.cwd ++ target.segments ++
      (w.tree.place spot.loc (.file bytes)).names loc) =
        freshName (w.cwd ++ target.segments ++ w.tree.names loc) := by
    refine freshName_congr fun k => ?_
    simp only [List.mem_append, Tree.mem_names_place, ← or_assoc]
    refine or_iff_left_of_imp fun below => .inl (List.mem_append.mp ?_)
    -- The one name that the folder may have gained is the target's own, which was avoided before.
    exact mem_of_mem_location (there ▸ below ▸ by simp)
  refine draft_ok_iff.mpr
    ⟨create, (w.tree.place spot.loc (.file bytes)).names loc, slashed, ?_, ?_, fits, ?_⟩
  · rw [Workspace.list, resolve_of_keepsFolders keeps folderEnds trivial]
    rfl
  · rw [path]
    exact congrArg folder.joinName same.symm
  · refine resolve_of_keepsFolders keeps free ?_
    exact (Tree.find?_place_other _ (there ▸ fresh.loc_ne) _).trans
      (Workspace.holdsIn_of_resolve free)

end ClassDiagram.Writer
