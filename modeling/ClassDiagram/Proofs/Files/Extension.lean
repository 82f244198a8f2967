import ClassDiagram.Proofs.Files.Walk
import Mathlib.Data.List.Basic

/-! A tree with more entries than another, which holds the same kinds of entries where the other
holds any. A path whose way in the larger tree meets no new entry leads to the same in both. -/

namespace ClassDiagram.Files

structure ProperName (name : String) : Prop where
  notIdle : Path.isIdle name = false
  notUp : name ≠ ".."
  noSlash : '/' ∉ name.toList

theorem properName_iff {name : String} :
    ProperName name ↔ Path.isIdle name = false ∧ name ≠ ".." ∧ '/' ∉ name.toList :=
  ⟨fun ⟨notIdle, notUp, noSlash⟩ => ⟨notIdle, notUp, noSlash⟩,
    fun ⟨notIdle, notUp, noSlash⟩ => ⟨notIdle, notUp, noSlash⟩⟩

instance (name : String) : Decidable (ProperName name) := decidable_of_iff' _ properName_iff

def Entry.isFolder : Entry → Bool
  | folder => true
  | file _ => false

namespace Tree

variable {t t' t'' : Tree}

def locs (t : Tree) : List Location := t.entries.map Prod.fst

def Proper (t : Tree) : Prop := ∀ loc ∈ t.locs, ∀ name ∈ loc, ProperName name

instance (t : Tree) : Decidable t.Proper :=
  inferInstanceAs (Decidable (∀ loc ∈ t.locs, ∀ name ∈ loc, ProperName name))

theorem find?_isSome_iff {loc : Location} (below : loc ≠ []) :
    (t.find? loc).isSome = true ↔ loc ∈ t.locs := by
  have inside : ∀ es : List (Location × Entry),
      (findIn loc es).isSome = true ↔ loc ∈ es.map Prod.fst := by
    intro es
    induction es with
    | nil => simp [findIn]
    | cons e es ih =>
      obtain ⟨l, x⟩ := e
      by_cases same : l = loc
      · simp [findIn, same]
      · simp only [findIn, if_neg same, ih, List.map_cons, List.mem_cons, Ne.symm same, false_or]
  rw [find?, if_neg below]
  exact inside t.entries

theorem nameBelow?_eq_some_iff {folder loc : Location} {name : String} :
    nameBelow? folder loc = some name ↔ loc = folder ++ [name] := by
  unfold nameBelow?
  constructor
  · intro below
    split at below
    · next inside =>
      obtain ⟨rest, rfl⟩ := List.isPrefixOf_iff_prefix.mp inside
      rw [List.drop_left] at below
      split at below
      · cases below; rfl
      · cases below
    · cases below
  · rintro rfl
    simp

theorem names_eq (t : Tree) (folder : Location) :
    t.names folder = t.locs.filterMap (nameBelow? folder) := by
  rw [names, locs, List.filterMap_map]
  rfl

theorem mem_names {folder : Location} {name : String} :
    name ∈ t.names folder ↔ folder ++ [name] ∈ t.locs := by
  rw [names, List.mem_filterMap, locs, List.mem_map]
  simp only [nameBelow?_eq_some_iff]

/-- The entries of the one tree come first in the other and keep their kinds. -/
structure Extends (t t' : Tree) : Prop where
  locs : ∃ added, t'.locs = t.locs ++ added ∧ ∀ loc ∈ added, t.find? loc = none
  kept : ∀ loc entry, t.find? loc = some entry →
    ∃ entry', t'.find? loc = some entry' ∧ entry'.isFolder = entry.isFolder

theorem Extends.refl (t : Tree) : Extends t t :=
  ⟨⟨[], by simp, by simp⟩, fun _ entry found => ⟨entry, found, rfl⟩⟩

theorem Extends.trans (first : Extends t t') (second : Extends t' t'') : Extends t t'' := by
  obtain ⟨added, locs, new⟩ := first.locs
  obtain ⟨later, locs', new'⟩ := second.locs
  refine ⟨⟨added ++ later, by rw [locs', locs, List.append_assoc], ?_⟩, ?_⟩
  · intro loc mem
    rcases List.mem_append.mp mem with mem | mem
    · exact new loc mem
    · by_contra found
      obtain ⟨entry, found⟩ := Option.ne_none_iff_exists'.mp found
      obtain ⟨_, kept, _⟩ := first.kept loc entry found
      rw [new' loc mem] at kept
      cases kept
  · intro loc entry found
    obtain ⟨entry', found', same⟩ := first.kept loc entry found
    obtain ⟨entry'', found'', same'⟩ := second.kept loc entry' found'
    exact ⟨entry'', found'', same'.trans same⟩

theorem Extends.keepsFolders (ext : Extends t t') : t.KeepsFolders t' := by
  intro loc found
  obtain ⟨entry', found', same⟩ := ext.kept loc .folder found
  cases entry' with
  | folder => exact found'
  | file bytes => cases same

theorem Extends.proper (ext : Extends t t') (proper : t'.Proper) : t.Proper := by
  obtain ⟨added, locs, _⟩ := ext.locs
  exact fun loc mem => proper loc (locs ▸ List.mem_append_left added mem)

theorem Extends.names_eq (ext : Extends t t') (folder : Location) :
    t.names folder =
      (t'.names folder).filter fun name => (t.find? (folder ++ [name])).isSome := by
  obtain ⟨added, locs, new⟩ := ext.locs
  -- The filter keeps all of the entries that were there and none of those added.
  have old : ∀ name ∈ t.locs.filterMap (nameBelow? folder),
      (t.find? (folder ++ [name])).isSome = true := by
    intro name mem
    rw [← Tree.names_eq] at mem
    exact (find?_isSome_iff (by simp)).mpr (mem_names.mp mem)
  have gone : ∀ name ∈ added.filterMap (nameBelow? folder),
      ¬(t.find? (folder ++ [name])).isSome = true := by
    intro name mem
    obtain ⟨loc, mem, below⟩ := List.mem_filterMap.mp mem
    rw [← nameBelow?_eq_some_iff.mp below, new loc mem]
    simp
  rw [Tree.names_eq, Tree.names_eq, locs, List.filterMap_append, List.filter_append,
    List.filter_eq_self.mpr old, List.filter_eq_nil_iff.mpr gone, List.append_nil]

theorem locs_place (t : Tree) (loc : Location) (entry : Entry) :
    (t.place loc entry).locs = t.locs ++ if loc ∈ t.locs then [] else [loc] := by
  have inside : ∀ es : List (Location × Entry), (placeIn loc entry es).map Prod.fst =
      es.map Prod.fst ++ if loc ∈ es.map Prod.fst then [] else [loc] := by
    intro es
    induction es with
    | nil => simp [placeIn]
    | cons e es ih =>
      obtain ⟨l, x⟩ := e
      by_cases same : l = loc
      · simp [placeIn, same]
      · simp only [placeIn, if_neg same, List.map_cons, ih, List.cons_append, List.mem_cons,
          Ne.symm same, false_or]
  exact inside t.entries

theorem extends_place {loc : Location} {entry : Entry} (below : loc ≠ [])
    (kind : ∀ old, t.find? loc = some old → entry.isFolder = old.isFolder) :
    Extends t (t.place loc entry) := by
  refine ⟨⟨_, locs_place t loc entry, ?_⟩, ?_⟩
  · intro l mem
    split at mem
    · cases mem
    · next absent =>
      cases List.mem_singleton.mp mem
      rw [← find?_isSome_iff below] at absent
      simpa using absent
  · intro l old found
    by_cases same : l = loc
    · subst same
      exact ⟨entry, find?_place_self t below entry, kind old found⟩
    · exact ⟨old, (find?_place_other t same entry).trans found, rfl⟩

theorem proper_place {loc : Location} (proper : t.Proper)
    (named : ∀ name ∈ loc, ProperName name) (entry : Entry) : (t.place loc entry).Proper := by
  intro l mem
  rw [locs_place] at mem
  rcases List.mem_append.mp mem with mem | mem
  · exact proper l mem
  · split at mem
    · cases mem
    · cases List.mem_singleton.mp mem
      exact named

end Tree

end ClassDiagram.Files
