import ClassDiagram.Proofs.BuildDocument.Rereading
import ClassDiagram.Proofs.Toml.Comments.Documents

/-! The comments that an edit leaves in a document. An entry is put anew with a key and a value that
have no layout, so the comments before its key, inside its value and at the end of its line go with
the old entry; all others are written again. -/

namespace ClassDiagram

open Toml (Entries Item Key Scalar Table Value comments)

namespace Toml

namespace Entries

variable {name other : String} {item : Item} {entries : Entries}

def commentsAt (name : String) : Entries → Multiset String
  | [] => 0
  | (key, item) :: rest => if key.name = name then item.comments key else commentsAt name rest

theorem commentsAt_insert_other (ne : other ≠ name) (item : Item) (entries : Entries) :
    (entries.insert name item).commentsAt other = entries.commentsAt other := by
  induction entries with
  | nil => simp [insert, commentsAt, Key.new, Ne.symm ne]
  | cons e rest ih =>
    obtain ⟨key, old⟩ := e
    by_cases here : key.name = name
    · simp [insert, commentsAt, Key.new, here, Ne.symm ne]
    · simp [insert, commentsAt, here, ih]

/-- An item without comments takes the place of one with those that it had. -/
theorem comments_insert (silent : item.comments (.new name) = 0) :
    commentsOf (entries.insert name item) + entries.commentsAt name = commentsOf entries := by
  induction entries with
  | nil => simp [insert, commentsAt, commentsOf, silent]
  | cons e rest ih =>
    obtain ⟨key, old⟩ := e
    by_cases here : key.name = name
    · simp [insert, commentsAt, commentsOf, here, silent, add_comm]
    · simp [insert, commentsAt, commentsOf, here, add_assoc, ih]

end Entries

namespace Table

variable {t : Table} {name other : String} {content : Scalar} {implicit : Bool}
  {edit : Table → Table × Except Failure Unit} {lost : Multiset String}

/-- The comments of what stands under a path: those of a value are around it and inside it. -/
def commentsAt : List String → Table → Multiset String
  | [], _ => 0
  | [name], t => t.entries.commentsAt name
  | name :: next :: path, t => (t.child? name).elim 0 (commentsAt (next :: path))

theorem commentsAt_empty (path : List String) (implicit dotted : Bool) :
    (empty implicit dotted).commentsAt path = 0 := by
  match path with
  | [] => rfl
  | [_] => rfl
  | _ :: _ :: _ => rfl

theorem commentsAt_cons {path : List String} (some : path ≠ []) (name : String) (implicit : Bool)
    (t : Table) :
    t.commentsAt (name :: path) = ((t.child? name).getD (empty implicit false)).commentsAt path := by
  obtain ⟨next, rest, rfl⟩ := List.exists_cons_of_ne_nil some
  rw [commentsAt]
  cases t.child? name with
  | none => exact (commentsAt_empty ..).symm
  | some child => rfl

theorem commentsAt_set_other (ne : other ≠ name) (content : Scalar) (t : Table) :
    (t.set name content).commentsAt [other] = t.commentsAt [other] :=
  Entries.commentsAt_insert_other ne _ t.entries

theorem comments_set (puts : Puts content) (name : String) (t : Table) :
    (t.set name content).comments + t.commentsAt [name] = t.comments := by
  have item : (Item.value (.new content)).comments (.new name) = 0 := by
    rw [Item.comments, puts.comments, Key.new, Decor.comments_none, add_zero]
  rw [comments_eq, comments_eq t, add_assoc]
  exact congrArg _ (Entries.comments_insert item)

theorem comments_editChild (done : (t.editChild name implicit edit).2 = .ok ())
    (child : (edit ((t.child? name).getD (.empty implicit false))).1.comments + lost =
      ((t.child? name).getD (.empty implicit false)).comments) :
    (t.editChild name implicit edit).1.comments + lost = t.comments := by
  rw [child?] at child
  unfold editChild at done ⊢
  cases found : t.find? name with
  | none =>
    rw [found] at child
    have none : (edit (empty implicit false)).1.comments + lost = 0 :=
      child.trans (comments_empty ..)
    simp only
    rw [comments_append, Item.comments, add_assoc, none, add_zero]
  | some item =>
    cases item with
    | table inner =>
      rw [found] at child
      have whole := comments_replace found fun _ =>
        show (Item.table (edit inner).1).comments _ + lost = _ + 0 from child.trans (add_zero _).symm
      rwa [add_zero] at whole
    | value _ => rw [found] at done; cases done
    | tables _ => rw [found] at done; cases done

end Table

end Toml

namespace BuildDocument

variable {d : BuildDocument}

namespace Edit

/-- The entries that an edit puts anew, by their paths. -/
def puts : Edit → List (List String)
  | setEnabled _ => [[ConfigKey.build, ConfigKey.enabled]]
  | upsertPackage name _ =>
    [[ConfigKey.build, ConfigKey.packages, name, ConfigKey.version],
      [ConfigKey.build, ConfigKey.packages, name, ConfigKey.privateAssets]]
  | removePackage _ => []

end Edit

/-- The comments of the entries that an edit puts anew. -/
def replaced (d : BuildDocument) (e : Edit) : Multiset String :=
  (e.puts.map fun path => d.document.root.commentsAt path).sum

theorem comments_pin (version : String) (package : Table) :
    (pin version package).comments +
      (package.commentsAt [ConfigKey.version] + package.commentsAt [ConfigKey.privateAssets]) =
        package.comments := by
  have first := Table.comments_set (Table.puts_text version) ConfigKey.version package
  have second := Table.comments_set (Table.puts_text "all") ConfigKey.privateAssets
    (package.set ConfigKey.version (.text version))
  rw [Table.commentsAt_set_other (by decide)] at second
  rw [pin, ← first, ← second]
  ac_rfl

theorem comments_edit {change : Table → Table × Except Failure Unit} {lost : Multiset String}
    (done : (d.edit change).2 = .ok ())
    (build : (change (d.build?.getD (.empty false false))).1.comments + lost =
      (d.build?.getD (.empty false false)).comments) :
    (d.edit change).1.document.root.comments + lost = d.document.root.comments :=
  Table.comments_editChild done build

theorem comments_run {e : Edit} (puts : ∀ name, e ≠ .removePackage name)
    (done : (e.run d).2 = .ok ()) :
    (e.run d).1.document.root.comments + d.replaced e = d.document.root.comments := by
  cases e with
  | setEnabled enabled =>
    refine comments_edit done ?_
    have whole := Table.comments_set (Table.puts_bool enabled) ConfigKey.enabled
      (d.build?.getD (.empty false false))
    simp only [replaced, Edit.puts, List.map_cons, List.map_nil, List.sum_cons, List.sum_nil, add_zero]
    rwa [Table.commentsAt_cons (by simp) _ false]
  | upsertPackage name version =>
    refine comments_edit done ?_
    obtain ⟨done, _⟩ := build?_edit done
    refine Table.comments_editChild done ?_
    obtain ⟨done, _⟩ := Table.child?_editChild done
    refine Table.comments_editChild done ?_
    have field := fun field : String => calc
      d.document.root.commentsAt [ConfigKey.build, ConfigKey.packages, name, field]
      _ = (d.build?.getD (.empty false false)).commentsAt [ConfigKey.packages, name, field] :=
        Table.commentsAt_cons (by simp) _ false _
      _ = _ := Table.commentsAt_cons (by simp) _ true _
      _ = _ := Table.commentsAt_cons (by simp) name false _
    simp only [replaced, Edit.puts, List.map_cons, List.map_nil, List.sum_cons, List.sum_nil, add_zero,
      field]
    exact comments_pin version _
  | removePackage name => exact absurd rfl (puts name)

theorem trailing_run (d : BuildDocument) (e : Edit) :
    (e.run d).1.document.trailing = d.document.trailing := by
  cases e with
  | setEnabled enabled => rfl
  | upsertPackage name version => rfl
  | removePackage name =>
    simp only [Edit.run, removePackage]
    grind [withRoot]

/-- Of the comments of a text, those of the entries that an edit puts anew are left out when the
document is written, and no others. -/
theorem comments_text_run {text : String} (parsed : Toml.Document.parse text = some d.document)
    {e : Edit} (puts : ∀ name, e ≠ .removePackage name) (done : (e.run d).2 = .ok ()) :
    comments (e.run d).1.text.toList + d.replaced e = comments text.toList := by
  have kept := kept_run (Toml.Document.kept_of_parse parsed) e
  rw [BuildDocument.text, kept.comments_text, trailing_run, Toml.comments_of_parse parsed,
    add_right_comm, comments_run puts done]

end BuildDocument

end ClassDiagram
