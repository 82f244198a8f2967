import ClassDiagram.Proofs.BuildDocument.Comments
import ClassDiagram.Proofs.Toml.Plain

/-! What an edit leaves as it was: all comments but those of the entries that it puts anew, and all
other values, in each table in their order. In the text that is written, keys without dots keep
their order throughout. -/

namespace ClassDiagram

open Files (Workspace)
open Toml (Entries Item Key Row Scalar Slot Statement Table comments names rowsOf slotsIn statements?)

namespace Toml

/-- A path that is neither one of some paths nor below one. -/
def Spared (paths : List (List String)) (path : List String) : Prop := ∀ p ∈ paths, ¬ p <+: path

instance (paths : List (List String)) (path : List String) : Decidable (Spared paths path) :=
  inferInstanceAs (Decidable (∀ p ∈ paths, ¬ p <+: path))

section

variable {paths : List (List String)} {path : List String} {name other : String}

theorem spared_cons : Spared (paths.map (name :: ·)) (name :: path) ↔ Spared paths path := by
  simp [Spared, List.cons_prefix_cons]

theorem not_spared (mem : [name] ∈ paths) : ¬ Spared paths (name :: path) :=
  fun spared => spared _ mem (List.cons_prefix_cons.mpr ⟨rfl, List.nil_prefix⟩)

end

namespace Table

variable {t : Table} {paths : List (List String)} {path : List String} {name : String}
  {content : Scalar} {implicit : Bool} {edit : Table → Table × Except Failure Unit}

/-- The values of the table under a path that are not under some paths. -/
def sparedAt (paths : List (List String)) (path : List String) (t : Table) : List Slot :=
  (t.slotsAt path).filter fun s => Spared paths (path ++ [s.name])

theorem sparedAt_own (mem : [name] ∈ paths) (path : List String) (t : Table) :
    t.sparedAt paths (name :: path) = [] := by
  rw [sparedAt, List.filter_eq_nil_iff]
  intro s _ spared
  exact not_spared mem (of_decide_eq_true spared)

theorem sparedAt_set (mem : [name] ∈ paths) (content : Scalar) (path : List String) (t : Table) :
    (t.set name content).sparedAt paths path = t.sparedAt paths path := by
  cases path with
  | nil =>
    have entries : (t.set name content).entries = t.entries.insert name (.value (.new content)) := rfl
    have place : (t.set name content).place = t.place := rfl
    have dropped : ∀ (item : Item) (key : Key), key.name = name → ∀ rest : List Slot,
        ((item.value?.map (Slot.mk t.place key.name)).toList ++ rest).filter
          (fun s => Spared paths ([] ++ [s.name])) =
            rest.filter fun s => Spared paths ([] ++ [s.name]) := by
      rintro item key rfl rest
      have gone : ¬ Spared paths [key.name] := not_spared mem
      cases item.value? <;> simp [gone]
    rw [sparedAt, sparedAt, slotsAt, slotsAt, slots, slots, entries, place,
      List.filterMap_eq_flatMap_toList, List.filterMap_eq_flatMap_toList]
    generalize t.entries = entries
    induction entries with
    | nil => exact dropped (.value (.new content)) (.new name) rfl []
    | cons e rest ih =>
      obtain ⟨key, old⟩ := e
      by_cases here : key.name = name
      · rw [Entries.insert, if_pos here, List.flatMap_cons, List.flatMap_cons, dropped _ _ rfl,
          dropped _ _ here]
      · rw [Entries.insert, if_neg here, List.flatMap_cons, List.flatMap_cons, List.filter_append,
          List.filter_append, ih]
  | cons other path =>
    by_cases own : other = name
    · subst own
      rw [sparedAt_own mem, sparedAt_own mem]
    · have same : (t.set name content).find? other = t.find? other := find?_set_other own content
      rw [sparedAt, sparedAt, slotsAt_congr same]

theorem sparedAt_editChild (done : (t.editChild name implicit edit).2 = .ok ()) 
    (child : ∀ path, (edit ((t.child? name).getD (.empty implicit false))).1.sparedAt paths path =
      ((t.child? name).getD (.empty implicit false)).sparedAt paths path) (path : List String) :
    (t.editChild name implicit edit).1.sparedAt (paths.map (name :: ·)) path =
      t.sparedAt (paths.map (name :: ·)) path := by
  cases path with
  | nil =>
    have same : (t.editChild name implicit edit).1.slots = t.slots := by
      unfold editChild at done ⊢
      split
      · rw [slots_append]
        exact List.append_nil _
      next inner found => exact slots_replace found rfl rfl
      · rfl
    rw [sparedAt, sparedAt, slotsAt, slotsAt, same]
  | cons other path =>
    by_cases own : other = name
    · subst own
      have there := (child?_editChild done).2
      have told : ∀ u : Table, u.sparedAt (paths.map (other :: ·)) (other :: path) =
          (u.slotsAt (other :: path)).filter fun s => Spared paths (path ++ [s.name]) := fun u => by
        simp only [sparedAt, List.cons_append, spared_cons]
      have before : t.slotsAt (other :: path) =
          ((t.child? other).getD (.empty implicit false)).slotsAt path := by
        unfold editChild at done
        split at done
        next missing =>
          rw [slotsAt_of_none missing, child?, missing]
          exact (slotsAt_bare ..).symm
        next inner found =>
          rw [slotsAt_of_table found, child?_eq_some_iff.mpr found, Option.getD_some]
        next => cases done
      rw [told, told, slotsAt_of_table (child?_eq_some_iff.mp there), before]
      exact child path
    · rw [sparedAt, sparedAt, slotsAt_congr (find?_editChild_other own)]

theorem Stacked.of_entries {t' : Table} (stacked : t.Stacked)
    (entries : ∀ e ∈ t'.entries, e ∈ t.entries ∨ e.2.Stacked) : t'.Stacked :=
  stacked_iff.mpr fun e mem => (entries e mem).elim (stacked_iff.mp stacked e) id

theorem Stacked.set (stacked : t.Stacked) (name : String) (content : Scalar) :
    (t.set name content).Stacked := by
  refine stacked.of_entries fun e mem => (mem_insert mem).imp_right ?_
  rintro rfl
  exact Item.stacked_value _

theorem Stacked.child? (stacked : t.Stacked) (name : String) (implicit : Bool) :
    ((t.child? name).getD (.empty implicit false)).Stacked := by
  cases here : t.child? name with
  | none => exact stacked_bare _
  | some child =>
    obtain ⟨e, entry, _, same⟩ := Entries.mem_of_find? (child?_eq_some_iff.mp here)
    exact stacked.inner entry (by simp [same, Item.inner])

theorem Stacked.editChild (stacked : t.Stacked)
    (child : (edit ((t.child? name).getD (.empty implicit false))).1.Stacked) :
    (t.editChild name implicit edit).1.Stacked :=
  stacked.of_entries fun e mem => (mem_editChild mem).imp_right fun same => by
    rw [same]
    exact Item.stacked_table child

end Table

end Toml

namespace BuildDocument

variable {d : BuildDocument} {e : Edit}

theorem sparedAt_edit {change : Table → Table × Except Failure Unit} {paths : List (List String)}
    (done : (d.edit change).2 = .ok ())
    (build : ∀ path, (change (d.build?.getD (.empty false false))).1.sparedAt paths path =
      (d.build?.getD (.empty false false)).sparedAt paths path) (path : List String) :
    (d.edit change).1.document.root.sparedAt (paths.map (ConfigKey.build :: ·)) path =
      d.document.root.sparedAt (paths.map (ConfigKey.build :: ·)) path :=
  Table.sparedAt_editChild done build path

theorem sparedAt_run (puts : ∀ name, e ≠ .removePackage name) (done : (e.run d).2 = .ok ())
    (path : List String) : (e.run d).1.document.root.sparedAt e.puts path =
      d.document.root.sparedAt e.puts path := by
  cases e with
  | setEnabled enabled =>
    have own : [ConfigKey.enabled] ∈ [[ConfigKey.enabled]] := List.mem_cons_self
    exact sparedAt_edit done (fun path => Table.sparedAt_set own _ path _) path
  | upsertPackage name version =>
    let fields := [[ConfigKey.version], [ConfigKey.privateAssets]]
    let paths := (fields.map (name :: ·)).map (ConfigKey.packages :: ·)
    suffices whole : (d.upsertPackage name version).1.document.root.sparedAt
        (paths.map (ConfigKey.build :: ·)) path =
          d.document.root.sparedAt (paths.map (ConfigKey.build :: ·)) path from whole
    refine sparedAt_edit done (fun path => ?_) path
    obtain ⟨done, _⟩ := build?_edit done
    refine Table.sparedAt_editChild done (fun path => ?_) path
    obtain ⟨done, _⟩ := Table.child?_editChild done
    refine Table.sparedAt_editChild done (fun path => ?_) path
    rw [pin, Table.sparedAt_set (List.mem_cons_of_mem _ List.mem_cons_self),
      Table.sparedAt_set List.mem_cons_self]
  | removePackage name => exact absurd rfl (puts name)

theorem stacked_edit {change : Table → Table × Except Failure Unit}
    (stacked : d.document.root.Stacked)
    (build : (change (d.build?.getD (.empty false false))).1.Stacked) :
    (d.edit change).1.document.root.Stacked :=
  stacked.editChild build

theorem stacked_run (stacked : d.document.root.Stacked) (puts : ∀ name, e ≠ .removePackage name) :
    (e.run d).1.document.root.Stacked := by
  have build : (d.build?.getD (.empty false false)).Stacked := stacked.child? _ _
  cases e with
  | setEnabled enabled => exact stacked_edit stacked (build.set _ _)
  | upsertPackage name version =>
    have packages := build.child? ConfigKey.packages true
    have package := packages.child? name false
    exact stacked_edit stacked (build.editChild (packages.editChild ((package.set _ _).set _ _)))
  | removePackage name => exact absurd rfl (puts name)

def Edit.spares (e : Edit) (r : Row) : Bool := decide (Toml.Spared e.puts r.key)

/-- What an edit keeps of the values of a text, in the document that is written after it. -/
structure Keeps (e : Edit) (before after : List Row) : Prop where
  /-- Each table has its other values in their order. -/
  tables : ∀ path, slotsIn path (after.filter e.spares) = slotsIn path (before.filter e.spares)
  /-- Keys without dots are in their order throughout. -/
  plain : (after.filter Row.plain).filter e.spares = (before.filter Row.plain).filter e.spares
  /-- So are all keys where none has dots. -/
  all : (∀ r ∈ before, r.plain) → after.filter e.spares = before.filter e.spares

theorem keeps_of_tables {statements : List Statement} {document : Toml.Document}
    (tables : ∀ path, slotsIn path (document.rows.filter e.spares) =
      slotsIn path ((rowsOf 0 [] statements).filter e.spares)) :
    Keeps e (rowsOf 0 [] statements) document.rows := by
  have sorted : Toml.Sorted (((rowsOf 0 [] statements).filter Row.plain).filter e.spares) :=
    (Toml.sorted_rowsOf 0 [] statements).filter _
  have sorted' : Toml.Sorted ((document.rows.filter Row.plain).filter e.spares) :=
    document.sorted_rows.filter _
  have plain : (document.rows.filter Row.plain).filter e.spares =
      ((rowsOf 0 [] statements).filter Row.plain).filter e.spares := by
    refine (sorted.eq_of_slotsIn sorted' (fun r mem s mem' => ?_) fun path => ?_).symm
    · obtain ⟨mem, plain⟩ := List.mem_filter.mp (List.mem_filter.mp mem).1
      obtain ⟨mem', plain'⟩ := List.mem_filter.mp (List.mem_filter.mp mem').1
      exact Toml.table_of_rowsOf mem mem' plain plain'
    · have comm : ∀ rows : List Row, slotsIn path ((rows.filter Row.plain).filter e.spares) =
          (slotsIn path (rows.filter e.spares)).filter fun s => Row.plain (path, s) := fun rows => by
        rw [List.filter_comm, Toml.slotsIn_filter_rows Row.plain]
      rw [comm, comm, tables]
  refine ⟨tables, plain, fun all => ?_⟩
  have all' : ∀ r ∈ document.rows.filter e.spares, r.plain := by
    intro r mem
    have there := Toml.mem_slotsIn.mpr mem
    rw [tables] at there
    exact all r (List.mem_filter.mp (Toml.mem_slotsIn.mp there)).1
  rw [← List.filter_eq_self.mpr all', List.filter_comm, plain, List.filter_eq_self.mpr all]

theorem keeps_run {text : String} (parsed : Toml.Document.parse text = some d.document)
    (puts : ∀ name, e ≠ .removePackage name) (done : (e.run d).2 = .ok ()) :
    ∃ statements, statements? text = some (statements, d.document.trailing) ∧
      Keeps e (rowsOf 0 [] (statements.map Prod.snd)) (e.run d).1.document.rows := by
  obtain ⟨statements, read, slots, stacked⟩ := Toml.slotsAt_of_parse parsed
  have kept := kept_run (Toml.Document.kept_of_parse parsed) e
  refine ⟨statements, read, keeps_of_tables fun path => ?_⟩
  have written := Toml.Document.slotsIn_rows kept.root (stacked_run stacked puts)
    (congrArg Toml.TableStyle.dotted kept.style) path
  rw [Toml.slotsIn_filter_rows, Toml.slotsIn_filter_rows, written, ← slots]
  exact sparedAt_run puts done path

/-- An edit that is done and saved leaves all comments but those of the entries that it puts anew, so
none is lost exactly where these have none, and it leaves all other values, in each table in their
order. Where the text that is written is read again, it has these values. -/
theorem edit_keeps {text : String} (parsed : Toml.Document.parse text = some d.document)
    (puts : ∀ name, e ≠ .removePackage name) (done : (e.run d).2 = .ok ()) :
    let edited := (e.run d).1
    comments edited.text.toList + d.replaced e = comments text.toList ∧
      (comments text.toList ≤ comments edited.text.toList ↔ d.replaced e = 0) ∧
      (∃ statements trailing, statements? text = some (statements, trailing) ∧
        Keeps e (rowsOf 0 [] (statements.map Prod.snd)) edited.document.rows) ∧
      (∀ statements trailing, statements? edited.text = some (statements, trailing) →
        (rowsOf 0 [] (statements.map Prod.snd)).map Row.told = edited.document.rows.map Row.told) ∧
      ∀ w w' outcome, edited.save w = (w', .ok outcome) →
        w'.read d.path = .ok (Workspace.utf8 edited.text) := by
  have whole := comments_text_run parsed puts done
  have kept := kept_run (Toml.Document.kept_of_parse parsed) e
  obtain ⟨statements, read, keeps⟩ := keeps_run parsed puts done
  refine ⟨whole, ?_, ⟨statements, _, read, keeps⟩, fun _ _ => kept.map_told_text,
    fun w w' outcome saved => ?_⟩
  · rw [← whole, add_le_iff_nonpos_right, Multiset.le_zero]
  · rw [← path_run d e]
    exact read_of_save saved

theorem ok_of_toOption {ε α : Type} {result : Except ε α} {a : α}
    (done : result.toOption = some a) : result = .ok a := by
  cases result with
  | error _ => cases done
  | ok _ => exact congrArg _ (Option.some.inj done)

def noted : String :=
  "# pinned\n[build]\ntypediagram-enabled = true\n\n# by hand\n[emit] # no builds\ndirection = \"LR\"\n"

theorem edit_keeps_noted : ∃ d : BuildDocument, Toml.Document.parse noted = some d.document ∧
    comments (d.setEnabled false).1.text.toList = comments noted.toList ∧
    ∃ statements trailing, statements? noted = some (statements, trailing) ∧
      Keeps (.setEnabled false) (rowsOf 0 [] (statements.map Prod.snd))
        (d.setEnabled false).1.document.rows := by
  have checked : (Toml.Document.parse noted).map (fun document =>
      let d : BuildDocument := ⟨⟨"typediagram.toml"⟩, document⟩
      ((d.setEnabled false).2.toOption, d.replaced (.setEnabled false))) = some (some (), 0) := by
    decide +kernel
  cases parsed : Toml.Document.parse noted with
  | none => simp [parsed] at checked
  | some document =>
    let d : BuildDocument := ⟨⟨"typediagram.toml"⟩, document⟩
    rw [parsed] at checked
    obtain ⟨done, none⟩ : (d.setEnabled false).2.toOption = some () ∧
        d.replaced (.setEnabled false) = 0 := by simpa using checked
    obtain ⟨whole, _, keeps, _⟩ := edit_keeps (d := d) (e := .setEnabled false) parsed
      (by simp) (ok_of_toOption done)
    rw [none, add_zero] at whole
    exact ⟨d, rfl, whole, keeps⟩

/-- A switch with a comment behind it. -/
def remarked : String := "[build]\ntypediagram-enabled = true # for all builds\n"

theorem remark_lost : ∃ d : BuildDocument, Toml.Document.parse remarked = some d.document ∧
    (d.setEnabled false).2 = .ok () ∧
    (d.setEnabled false).1.text = "[build]\ntypediagram-enabled = false\n" ∧
    comments remarked.toList = {"# for all builds"} ∧
    comments (d.setEnabled false).1.text.toList = 0 := by
  have checked : (Toml.Document.parse remarked).map (fun document =>
      let d : BuildDocument := ⟨⟨"typediagram.toml"⟩, document⟩
      ((d.setEnabled false).2.toOption, (d.setEnabled false).1.orderedText?)) =
        some (some (), some "[build]\ntypediagram-enabled = false\n") := by
    decide +kernel
  cases parsed : Toml.Document.parse remarked with
  | none => simp [parsed] at checked
  | some document =>
    let d : BuildDocument := ⟨⟨"typediagram.toml"⟩, document⟩
    rw [parsed] at checked
    obtain ⟨done, ordered⟩ : (d.setEnabled false).2.toOption = some () ∧ _ := by
      simpa using checked
    have text : (d.setEnabled false).1.text = "[build]\ntypediagram-enabled = false\n" :=
      text_of_orderedText? ordered
    refine ⟨d, rfl, ok_of_toOption done, text, ?_, ?_⟩
    · have parts : remarked.toList =
          "[build]\ntypediagram-enabled = true ".toList ++ '#' :: " for all builds\n".toList := by
        decide +kernel
      have plain : ("[build]\ntypediagram-enabled = true ".toList.all Toml.isPlain) = true := by
        decide +kernel
      rw [parts, Toml.comments_append_of_plain (List.all_eq_true.mp plain), Toml.comments_mark]
      have left : " for all builds\n".toList.dropWhile Toml.isTextChar = ['\n'] := by decide +kernel
      have mark : String.ofList ('#' :: " for all builds\n".toList.takeWhile Toml.isTextChar) =
          "# for all builds" := by decide +kernel
      rw [left, mark, Toml.comments_plain (by decide), Toml.comments_nil, add_zero]
    · have plain : ("[build]\ntypediagram-enabled = false\n".toList.all Toml.isPlain) = true := by
        decide +kernel
      have plain := Toml.comments_append_of_plain (List.all_eq_true.mp plain) []
      rwa [List.append_nil, Toml.comments_nil, ← text] at plain

end BuildDocument

end ClassDiagram
