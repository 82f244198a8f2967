import ClassDiagram.Proofs.BuildDocument.Configuration
import ClassDiagram.Proofs.BuildDocument.Echo
import ClassDiagram.Proofs.Files.Utf8
import ClassDiagram.Proofs.Toml.Reprint
import ClassDiagram.Proofs.Writer.Atomicity

/-! A document that is read, edited and written says, when it is read again, what it said before it
was written. Edits keep what a document keeps from when it is read on. -/

namespace ClassDiagram

open Files (Workspace)
open Toml (Entries Item Key Scalar Table Value)

namespace Toml

/-! ### Edits of one table -/

namespace Table

structure Upheld (t : Table) : Prop where
  kept : t.Kept
  sound : t.Sound

theorem upheld_empty (implicit dotted : Bool) : (empty implicit dotted).Upheld :=
  ⟨kept_empty implicit dotted, trivial⟩

theorem Upheld.child {t child : Table} {name : String} (upheld : t.Upheld)
    (here : t.child? name = some child) : child.Upheld :=
  ⟨upheld.kept.child here, (full_of_find? upheld.sound (child?_eq_some_iff.mp here)).2⟩

/-- A value that is put into a table. -/
structure Puts (content : Scalar) : Prop where
  rereads : (Value.new content).Rereads
  silent : Silent (Value.new content).body.toList

theorem puts_text (content : String) : Puts (.text content) :=
  ⟨rereads_text content .none, silent_text content .none⟩

theorem puts_bool (b : Bool) : Puts (.bool b) := ⟨rereads_bool b .none, silent_bool b .none⟩

theorem Puts.comments {content : Scalar} (puts : Puts content) : (Value.new content).comments = 0 := by
  rw [Value.comments, puts.silent.comments, zero_add]
  exact Decor.comments_none

theorem Puts.kept {content : Scalar} (puts : Puts content) (name : String) :
    (Item.value (.new content)).Kept (Key.new name) := by
  refine ⟨Key.kept_new name, ?_, puts.rereads, Value.apart_of_silent puts.silent,
    ?_⟩
  · constructor <;> simp [Key.new, Decor.none]
  · constructor <;> simp [Value.new, Value.decor, Decor.none]

theorem mem_insert {name : String} {item : Item} {entries : Entries} {e : Key × Item}
    (listed : e ∈ entries.insert name item) : e ∈ entries ∨ e = (Key.new name, item) := by
  induction entries with
  | nil => exact .inr (List.mem_singleton.mp listed)
  | cons first rest ih =>
    obtain ⟨key, old⟩ := first
    rw [Entries.insert] at listed
    split at listed
    · exact (List.mem_cons.mp listed).symm.imp_left (List.mem_cons_of_mem _)
    · rcases List.mem_cons.mp listed with same | later
      · exact .inl (same ▸ List.mem_cons_self)
      · exact (ih later).imp_left (List.mem_cons_of_mem _)

theorem nodup_insert {name : String} (item : Item) {entries : Entries}
    (distinct : (entries.map (·.1.name)).Nodup) :
    ((entries.insert name item).map (·.1.name)).Nodup := by
  induction entries with
  | nil => simp [Entries.insert]
  | cons first rest ih =>
    obtain ⟨key, old⟩ := first
    obtain ⟨fresh, distinct⟩ := List.nodup_cons.mp distinct
    rw [Entries.insert]
    split
    next same =>
      rw [List.map_cons, List.nodup_cons]
      exact ⟨by simpa [Key.new, ← same] using fresh, distinct⟩
    next other =>
      rw [List.map_cons, List.nodup_cons]
      refine ⟨fun mem => ?_, ih distinct⟩
      obtain ⟨e, listed, named⟩ := List.mem_map.mp mem
      rcases mem_insert listed with old | rfl
      · exact fresh (List.mem_map.mpr ⟨e, old, named⟩)
      · exact other named.symm

theorem Upheld.set {t : Table} (upheld : t.Upheld) {content : Scalar} (puts : Puts content)
    (name : String) : (t.set name content).Upheld := by
  obtain ⟨sides, distinct, all⟩ := kept_iff.mp upheld.kept
  refine ⟨kept_iff.mpr ⟨sides, nodup_insert _ distinct, fun e mem => ?_⟩,
    sound_iff.mpr fun e mem => ?_⟩
  · rcases mem_insert mem with old | rfl
    · exact all e old
    · exact puts.kept name
  · rcases mem_insert mem with old | rfl
    · exact sound_iff.mp upheld.sound e old
    · trivial

theorem entries_ne_nil_of_find? {t : Table} {name : String} {item : Item}
    (found : t.find? name = some item) : t.entries ≠ [] := by
  intro empty
  rw [find?, empty] at found
  cases found

theorem Upheld.remove {t : Table} (upheld : t.Upheld) (name : String) : (t.remove name).Upheld := by
  refine ⟨upheld.kept.remove name, sound_iff.mpr fun e mem => ?_⟩
  exact sound_iff.mp upheld.sound e (List.mem_filter.mp mem).1

theorem Upheld.full {t : Table} (upheld : t.Upheld) (some : t.entries ≠ []) : (Item.table t).Full :=
  ⟨fun _ => some, upheld.sound⟩

section

variable {t : Table} {name : String} {implicit : Bool} {edit : Table → Table × Except Failure Unit}

theorem style_editChild : (t.editChild name implicit edit).1.style = t.style := by
  unfold editChild
  split <;> rfl

theorem Kept.editChild (kept : t.Kept)
    (own : (edit ((t.child? name).getD (.empty implicit false))).1.Kept) :
    (t.editChild name implicit edit).1.Kept := by
  rw [child?] at own
  unfold Table.editChild
  split
  next missing =>
    rw [missing] at own
    have missing : t.find? (Key.new name).name = none := missing
    exact kept.append missing ⟨⟨Key.kept_new name, Decor.blank_none⟩, own⟩
  next found =>
    rw [found] at own
    exact kept.replace_table found own
  next => exact kept

theorem Upheld.getD (upheld : ∀ child, t.child? name = some child → child.Upheld) :
    ((t.child? name).getD (.empty implicit false)).Upheld := by
  cases here : t.child? name with
  | none => exact upheld_empty implicit false
  | some child => exact upheld child here

theorem Upheld.editChild (upheld : t.Upheld) (done : (t.editChild name implicit edit).2 = .ok ())
    (below : ∀ child, child.Upheld → (edit child).2 = .ok () →
      (edit child).1.Upheld ∧ (edit child).1.entries ≠ []) :
    (t.editChild name implicit edit).1.Upheld ∧ (t.editChild name implicit edit).1.entries ≠ [] := by
  obtain ⟨done', here⟩ := child?_editChild done
  obtain ⟨own, some⟩ := below _ (Upheld.getD fun _ => upheld.child) done'
  refine ⟨⟨upheld.kept.editChild own.kept, sound_iff.mpr fun e mem => ?_⟩,
    entries_ne_nil_of_find? (child?_eq_some_iff.mp here)⟩
  rcases mem_editChild mem with old | new
  · exact sound_iff.mp upheld.sound e old
  · exact new ▸ own.full some

end

end Table

namespace Document.Kept

variable {d : Document} {name : String} {inner : Table}

theorem child (kept : d.Kept) (here : d.root.child? name = some inner) : inner.Upheld := by
  refine ⟨kept.root.child here, ?_⟩
  obtain ⟨e, mem, _, item⟩ := Entries.mem_of_find? (Table.child?_eq_some_iff.mp here)
  rcases kept.full e mem with full | ⟨bare, same, empty⟩
  · rw [item] at full
    exact full.2
  · obtain rfl : inner = bare := Item.table.inj (item.symm.trans same)
    exact Table.sound_iff.mpr (by simp [empty])

theorem full_or_bare (upheld : inner.Upheld) :
    (Item.table inner).Full ∨ ∃ bare, Item.table inner = .table bare ∧ bare.entries = [] := by
  by_cases empty : inner.entries = []
  · exact .inr ⟨inner, rfl, empty⟩
  · exact .inl (upheld.full empty)

end Document.Kept

end Toml

namespace BuildDocument

variable {d : BuildDocument}

theorem kept_edit {change : Table → Table × Except Failure Unit} (kept : d.document.Kept)
    (done : (d.edit change).2 = .ok ())
    (below : ∀ build, build.Upheld → (change build).2 = .ok () → (change build).1.Upheld) :
    (d.edit change).1.document.Kept := by
  obtain ⟨done', here⟩ := build?_edit done
  have own := below _ (Table.Upheld.getD fun _ => kept.child) done'
  refine ⟨kept.root.editChild own.kept, fun e mem => ?_, Table.style_editChild.trans kept.style,
    kept.trailing⟩
  rcases Table.mem_editChild mem with old | new
  · exact kept.full e old
  · exact new ▸ Toml.Document.Kept.full_or_bare own

theorem upheld_pin {package : Table} (upheld : package.Upheld) (version : String) :
    (pin version package).Upheld :=
  (upheld.set (Table.puts_text version) _).set (Table.puts_text "all") _

theorem kept_removePackage (kept : d.document.Kept) (name : String) :
    (d.removePackage name).1.document.Kept := by
  unfold removePackage
  split
  · exact kept
  next build here =>
    split
    · exact kept
    next packages found =>
      have build' := kept.child here
      have own := (build'.child found).remove name
      have upheld : (if (packages.remove name).entries.isEmpty then build.remove ConfigKey.packages
          else build.replace ConfigKey.packages (.table (packages.remove name))).Upheld := by
        split
        next => exact build'.remove _
        next some =>
          refine ⟨build'.kept.replace_table (Table.child?_eq_some_iff.mp found) own.kept,
            Table.sound_replace build'.sound (own.full ?_)⟩
          simpa using some
      refine ⟨kept.root.replace_table (Table.child?_eq_some_iff.mp here) upheld.kept, ?_, kept.style,
        kept.trailing⟩
      intro e mem
      rcases Entries.mem_replace mem with old | new
      · exact kept.full e old
      · exact new ▸ Toml.Document.Kept.full_or_bare upheld

theorem kept_run (kept : d.document.Kept) (e : Edit) : (e.run d).1.document.Kept := by
  cases done : (e.run d).2 with
  | error failure => rwa [run_refused done]
  | ok _ =>
    cases e with
    | setEnabled enabled =>
      refine kept_edit kept done fun build upheld _ => ?_
      exact upheld.set (Table.puts_bool enabled) _
    | upsertPackage name version =>
      refine kept_edit kept done fun build upheld done => ?_
      refine (upheld.editChild done fun packages upheld done => ?_).1
      refine upheld.editChild done fun package upheld _ => ?_
      exact ⟨upheld_pin upheld version, Table.entries_ne_nil_of_find? (find?_pin package)⟩
    | removePackage name => exact kept_removePackage kept name

theorem kept_after (kept : d.document.Kept) (edits : List Edit) :
    (d.after edits).document.Kept := by
  induction edits generalizing d with
  | nil => exact kept
  | cons e edits ih => exact ih (kept_run kept e)

theorem parsed_of_load {w : Workspace} {path : Path} (opened : load w path = .ok d) :
    ∃ text, Toml.Document.parse text = some d.document := by
  unfold load at opened
  dsimp only at opened
  split at opened
  · split at opened
    next parsed =>
      cases opened
      exact ⟨_, parsed⟩
    next => cases opened
  · split at opened
    next parsed =>
      cases opened
      exact ⟨_, parsed⟩
    next => cases opened
  · cases opened

theorem kept_load {w : Workspace} {path : Path} (opened : load w path = .ok d) :
    d.document.Kept :=
  (parsed_of_load opened).elim fun _ parsed => Toml.Document.kept_of_parse parsed

theorem read_of_save {w w' : Workspace} {outcome : Writer.Outcome}
    (saved : d.save w = (w', .ok outcome)) : w'.read d.path = .ok (Workspace.utf8 d.text) := by
  obtain ⟨rfl, result⟩ := Prod.mk.inj saved
  exact Writer.read_of_run result

/-- The text of a document whose tables stand in the order of their headers. -/
def orderedText? (d : BuildDocument) : Option String :=
  let sections := d.document.root.sections [] false
  if (Toml.numbered 0 sections).Pairwise fun a b => a.1 ≤ b.1 then
    some (Toml.Section.write true sections ++ Toml.withoutReturns d.document.trailing)
  else none

theorem text_of_orderedText? {text : String} (ordered : d.orderedText? = some text) :
    d.text = text := by
  unfold orderedText? at ordered
  dsimp only at ordered
  split at ordered
  next sorted =>
    rw [BuildDocument.text, Toml.Document.text_of_sorted sorted]
    exact Option.some.inj ordered
  next => cases ordered

theorem isSome_parse_text (parses : (d.orderedText?.bind Toml.Document.parse).isSome) :
    (Toml.Document.parse d.text).isSome := by
  obtain ⟨document, parses⟩ := Option.isSome_iff_exists.mp parses
  obtain ⟨text, ordered, parsed⟩ := Option.bind_eq_some_iff.mp parses
  rw [text_of_orderedText? ordered, parsed]
  rfl

theorem switches_reread {d' : BuildDocument} (kept : d.document.Kept)
    (parsed : Toml.Document.parse d.text = some d'.document) : d'.switches = d.switches :=
  switches_echo (kept.echoes parsed)

theorem switches_of_load {w : Workspace} {path : Path} {e : BuildDocument}
    (kept : d.document.Kept) (text : w.readText path = .ok d.text) (opened : load w path = .ok e) :
    e.switches = d.switches :=
  switches_reread kept ((load_eq_ok_iff text).mp opened).1

theorem gives_reread {s : Choices} {document : Toml.Document} (kept : d.document.Kept)
    (gives : Config.Gives d.document.root s) (parsed : Toml.Document.parse d.text = some document) :
    Config.Gives document.root s := by
  refine gives.echo (kept.echoes parsed) fun build here packages found => ?_
  have all := ((Toml.kept_of_parse parsed).1.child here).child found
  exact (Table.kept_iff.mp all).2.1

end BuildDocument

end ClassDiagram
