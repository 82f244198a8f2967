import ClassDiagram.Proofs.Files.Descent
import ClassDiagram.Proofs.Writer.Atomicity

/-! A write only adds to a tree of files, under names that entries can have. -/

namespace ClassDiagram.Files

/-- Files as a system has them: all names are names. -/
structure Workspace.Sound (w : Workspace) : Prop where
  tree : w.tree.Proper
  cwd : ∀ name ∈ w.cwd, ProperName name

theorem Workspace.sound_iff {w : Workspace} :
    w.Sound ↔ w.tree.Proper ∧ ∀ name ∈ w.cwd, ProperName name :=
  ⟨fun ⟨tree, cwd⟩ => ⟨tree, cwd⟩, fun ⟨tree, cwd⟩ => ⟨tree, cwd⟩⟩

instance (w : Workspace) : Decidable w.Sound := decidable_of_iff' _ Workspace.sound_iff

structure Tree.Enlarges (t t' : Tree) : Prop where
  ext : t.Extends t'
  proper : t.Proper → t'.Proper

theorem Tree.Enlarges.refl (t : Tree) : Enlarges t t := ⟨.refl t, id⟩

theorem Tree.Enlarges.trans {t t' t'' : Tree} (first : Enlarges t t') (second : Enlarges t' t'') :
    Enlarges t t'' :=
  ⟨first.ext.trans second.ext, second.proper ∘ first.proper⟩

namespace Workspace

theorem Leads.proper {t : Tree} {loc : Location} {segments : List String} {spot : Spot}
    (leads : Leads t loc segments spot) (start : ∀ name ∈ loc, ProperName name)
    (single : ∀ segment ∈ segments, '/' ∉ segment.toList) :
    ∀ name ∈ spot.loc, ProperName name := by
  have further : ∀ {loc : Location} {segment : String}, (∀ name ∈ loc, ProperName name) →
      Named segment → '/' ∉ segment.toList → ∀ name ∈ loc ++ [segment], ProperName name := by
    intro loc segment start named noSlash name mem
    rcases List.mem_append.mp mem with mem | mem
    · exact start name mem
    · cases List.mem_singleton.mp mem
      exact ⟨named.notIdle, named.notUp, noSlash⟩
  induction leads with
  | stop => exact start
  | idle _ _ ih => exact ih start (List.forall_mem_cons.mp single).2
  | up _ ih =>
    exact ih (fun name mem => start name (List.dropLast_subset _ mem))
      (List.forall_mem_cons.mp single).2
  | down named _ _ ih =>
    obtain ⟨noSlash, single⟩ := List.forall_mem_cons.mp single
    exact ih (further start named noSlash) single
  | file named _ | free named _ _ =>
    exact further start named (List.forall_mem_cons.mp single).1

theorem proper_of_resolve {w : Workspace} (cwd : ∀ name ∈ w.cwd, ProperName name) {p : Path}
    {spot : Spot} (ends : w.resolve p = .ok spot) : ∀ name ∈ spot.loc, ProperName name :=
  (leads_of_resolve ends).proper (fun name mem => cwd name (mem_cwd_of_mem_start mem))
    fun _ => Path.slash_notMem_segments

theorem enlarges_place {w : Workspace} (cwd : ∀ name ∈ w.cwd, ProperName name) {p : Path}
    {spot : Spot} (ends : w.resolve p = .ok spot) {entry : Entry}
    (kind : ∀ old, w.tree.find? spot.loc = some old → entry.isFolder = old.isFolder)
    (below : spot.loc ≠ []) : w.tree.Enlarges (w.tree.place spot.loc entry) :=
  ⟨Tree.extends_place below kind, fun proper =>
    Tree.proper_place proper (proper_of_resolve cwd ends) entry⟩

theorem makeFolders_enlarges {w : Workspace} (cwd : ∀ name ∈ w.cwd, ProperName name) {p : Path}
    {t : Tree} (made : t ∈ (w.makeFolders p).1) : w.tree.Enlarges t := by
  refine makeFolders_induct (R := Tree.Enlarges) .trans (fun t q _ loc slashed ends => ?_) made
  have absent : t.find? loc = none := holdsIn_of_resolve ends
  refine enlarges_place (w := w.onTree t) cwd ends (fun old found => ?_) (fun root => ?_)
  · exact absurd (absent.symm.trans found) (by simp)
  · rw [show loc = [] from root] at absent
    cases absent

end Workspace

end ClassDiagram.Files

namespace ClassDiagram.Writer

open Files (Bytes Entry IoCause Location ProperName Spot Tree Workspace)

variable {w : Workspace} {target : Path}

theorem Ending.enlarges {bytes : Bytes} {t : Tree} {moved : Bool} {result : Except Failure Outcome}
    (cwd : ∀ name ∈ w.cwd, ProperName name) (ending : Ending w target bytes t moved result) :
    w.tree.Enlarges t := by
  cases ending with
  | dropped | kept => exact .refl _
  | @replaced spot ends takes other =>
    have held := Files.Workspace.holdsIn_of_resolve ends
    have notFolder := Files.Spot.not_folder_of_takesFile held takes
    rw [← Files.Workspace.loc_of_resolve ends]
    refine Files.Workspace.enlarges_place cwd ends (fun old found => ?_) (fun root => ?_)
    · cases old with
      | folder => exact absurd found notFolder
      | file _ => rfl
    · exact notFolder (by rw [root]; rfl)

theorem run_enlarges (cwd : ∀ name ∈ w.cwd, ProperName name) (faults : Faults) (content : String) :
    w.tree.Enlarges (latest w.tree (run faults w target content).trees) := by
  obtain ⟨r, course, whole⟩ := run_course faults w target content
  have first : w.tree.Enlarges (latest w.tree (folders faults w target)) := by
    rcases List.mem_cons.mp (List.getLastD_mem_cons (l := folders faults w target)) with
      same | made
    · rw [latest, same]
      exact .refl _
    · exact Files.Workspace.makeFolders_enlarges cwd (mem_makeFolders made)
  have last : latest w.tree (run faults w target content).trees =
      latest (latest w.tree (folders faults w target)) r.trees :=
    whole ▸ latest_append w.tree _ r.trees
  rw [last]
  exact first.trans (Ending.enlarges (w := w.onTree _) cwd course.ending)

end ClassDiagram.Writer
