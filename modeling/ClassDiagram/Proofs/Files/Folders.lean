import ClassDiagram.Proofs.Files.Walk

/-! What a tree gains when the folders of a path are made: folders where nothing was, at places
that the path leads through. All that was there before stays. -/

namespace ClassDiagram.Files

namespace Tree

/-- The one tree comes from the other by new folders at some of the given places. -/
def Grows (places : Location → Prop) (t t' : Tree) : Prop :=
  ∀ loc, t'.find? loc = t.find? loc ∨
    t.find? loc = none ∧ t'.find? loc = some .folder ∧ places loc

variable {places : Location → Prop} {t t' t'' : Tree}

theorem Grows.refl (places : Location → Prop) (t : Tree) : Grows places t t := fun _ => .inl rfl

theorem Grows.trans (first : Grows places t t') (second : Grows places t' t'') :
    Grows places t t'' := by
  intro loc
  rcases second loc with kept | ⟨absent, made, place⟩
  · exact (first loc).imp kept.trans fun ⟨absent, made, place⟩ => ⟨absent, kept.trans made, place⟩
  · rcases first loc with kept | ⟨_, made, _⟩
    · exact .inr ⟨kept.symm.trans absent, made, place⟩
    · exact absurd (absent.symm.trans made) (by simp)

theorem Grows.find?_file (grows : Grows places t t') (loc : Location) (bytes : Bytes) :
    t'.find? loc = some (.file bytes) ↔ t.find? loc = some (.file bytes) := by
  rcases grows loc with kept | ⟨absent, made, _⟩
  · rw [kept]
  · rw [absent, made]
    simp

theorem grows_place {loc : Location} (absent : t.find? loc = none) (place : places loc) :
    Grows places t (t.place loc .folder) := by
  intro other
  by_cases same : other = loc
  · subst same
    have below : other ≠ [] := fun root => by simp [find?, root] at absent
    exact .inr ⟨absent, find?_place_self t below _, place⟩
  · exact .inl (find?_place_other t same _)

theorem grows_getLastD {trees : List Tree} (grow : ∀ t' ∈ trees, Grows places t t') :
    Grows places t (trees.getLastD t) := by
  rcases List.mem_cons.mp (List.getLastD_mem_cons (l := trees) (a := t)) with same | mem
  · rw [same]
    exact .refl places t
  · exact grow _ mem

end Tree

namespace Workspace

def Along (w : Workspace) (ps : List Path) (loc : Location) : Prop := ∃ p ∈ ps, w.location p = loc

/-- What holds from tree to tree while a chain of folders is made: each step puts a folder where a path
of the chain leads to a free place. -/
theorem makeEach_induct {R : Tree → Tree → Prop} (trans : ∀ {a b c}, R a b → R b c → R a c)
    {w : Workspace} {ps : List Path}
    (step : ∀ t, ∀ p ∈ ps, ∀ loc slashed, (w.onTree t).resolve p = .ok (.free loc slashed) →
      R t (t.place loc .folder))
    {t : Tree} (made : t ∈ (w.makeEach ps).1) : R w.tree t := by
  induction ps generalizing w with
  | nil => cases made
  | cons p ps ih =>
    have rest : ∀ t, ∀ q ∈ ps, ∀ loc slashed, (w.onTree t).resolve q = .ok (.free loc slashed) →
        R t (t.place loc .folder) := fun t q mem => step t q (List.mem_cons_of_mem p mem)
    unfold makeEach at made
    split at made
    · next first makes =>
      have grown : R w.tree first := by
        unfold makeFolder at makes
        split at makes
        · cases makes
        · next ends =>
          cases makes
          exact step w.tree p List.mem_cons_self _ _ ends
        · cases makes
      -- The rest of the chain is made in the tree that has the first folder.
      rcases List.mem_cons.mp made with rfl | later
      · exact grown
      · exact trans grown (ih (w := w.onTree first) rest later)
    · split at made
      · exact ih rest made
      · cases made

theorem mem_of_mem_unmade {w : Workspace} {ps qs : List Path} (found : w.unmade ps = .ok qs)
    {q : Path} (mem : q ∈ qs) : q ∈ ps := by
  induction ps generalizing qs with
  | nil => cases found; cases mem
  | cons p ps ih =>
    unfold unmade at found
    split at found
    · cases found; cases mem
    · split at found
      · cases found
        exact List.mem_cons.mpr (.inl (List.mem_singleton.mp mem))
      · cases later : w.unmade ps with
        | error cause => rw [later] at found; cases found
        | ok rest =>
          rw [later] at found
          cases found
          exact List.mem_cons.mpr ((List.mem_cons.mp mem).imp_right (ih later))
      · split at found
        · cases found; cases mem
        · cases found

theorem makeFolders_induct {R : Tree → Tree → Prop} (trans : ∀ {a b c}, R a b → R b c → R a c)
    {w : Workspace} {p : Path}
    (step : ∀ t, ∀ q ∈ p.ancestors, ∀ loc slashed,
      (w.onTree t).resolve q = .ok (.free loc slashed) → R t (t.place loc .folder))
    {t : Tree} (made : t ∈ (w.makeFolders p).1) : R w.tree t := by
  unfold makeFolders at made
  split at made
  · cases made
  · next qs found =>
    exact makeEach_induct (R := R) trans (fun t q mem =>
      step t q (mem_of_mem_unmade found (List.mem_reverse.mp mem))) made

theorem makeFolders_grows {w : Workspace} {p : Path} {t : Tree} (made : t ∈ (w.makeFolders p).1) :
    Tree.Grows (w.Along p.ancestors) w.tree t :=
  makeFolders_induct (R := Tree.Grows (w.Along p.ancestors)) Tree.Grows.trans
    (fun _ q mem _ _ ends =>
      Tree.grows_place (holdsIn_of_resolve ends) ⟨q, mem, (loc_of_resolve ends).symm⟩) made

theorem folder_of_list {w : Workspace} {p : Path} {names : List String}
    (list : w.list p = .ok names) :
    ∃ loc, w.resolve p = .ok (.present loc .folder) ∧ w.tree.names loc = names := by
  unfold Workspace.list at list
  split at list
  · next loc ends => exact ⟨loc, ends, Except.ok.inj list⟩
  · cases list
  · cases list
  · cases list

theorem makeFolders_of_folder {w : Workspace} {p : Path} {loc : Location}
    (ends : w.resolve p = .ok (.present loc .folder)) : w.makeFolders p = ([], none) := by
  -- The chain ends at its first path, the folder itself, and nothing above it is asked for.
  obtain ⟨rest, chain⟩ := List.head?_eq_some_iff.mp p.ancestors_head
  have notEmpty := (resolve_ok_iff.mp ends).1.notEmpty
  simp [makeFolders, chain, unmade, notEmpty, makeFolder, ends, isFolder, entry, makeEach]

end Workspace

end ClassDiagram.Files
