import ClassDiagram.Proofs.BuildDocument.Agreement
import ClassDiagram.Proofs.BuildDocument.Frame
import ClassDiagram.Proofs.Toml.Neat

/-! An edit that is made a second time, after the document was saved and opened again. It finds the
tables that it has made and the values that it has put, and puts values that are written alike. -/

namespace ClassDiagram

open Files (Workspace)
open Toml (Decor Document Entries Item Key LooksLike Scalar Table Usual Value)

namespace Toml

namespace Entries

variable {name : String} {item : Item} {entries : Entries} {e : Key × Item}

theorem mem_insert_self (name : String) (item : Item) (entries : Entries) :
    (Key.new name, item) ∈ entries.insert name item := by
  induction entries with
  | nil => exact List.mem_singleton_self _
  | cons first rest ih =>
    rw [insert]
    split
    · exact List.mem_cons_self
    · exact List.mem_cons_of_mem _ ih

theorem mem_insert_other (other : e.1.name ≠ name) (listed : e ∈ entries) :
    e ∈ entries.insert name item := by
  induction entries with
  | nil => cases listed
  | cons first rest ih =>
    obtain ⟨key, old⟩ := first
    rw [insert]
    split
    next here =>
      rcases List.mem_cons.mp listed with rfl | later
      · exact absurd here other
      · exact List.mem_cons_of_mem _ later
    next =>
      rcases List.mem_cons.mp listed with rfl | later
      · exact List.mem_cons_self
      · exact List.mem_cons_of_mem _ (ih later)

end Entries

namespace Table

variable {t t' c : Table} {name other : String} {path p : List String} {k : Key} {v? : Option Value}
  {content : Scalar} {implicit : Bool} {edit : Table → Table × Except Failure Unit}

/-! ### The table at the end of a path -/

def descend : List String → Table → Option Table
  | [], t => some t
  | name :: path, t => (t.child? name).bind (descend path)

theorem descend_cons_iff : t.descend (name :: path) = some c ↔
    ∃ child, t.child? name = some child ∧ child.descend path = some c :=
  Option.bind_eq_some_iff

theorem Has.path_ne_nil (has : t.Has p k v?) : p ≠ [] := by
  cases has <;> simp

theorem has_child (kept : t.Kept) (here : t.child? name = some c) (below : p ≠ []) :
    t.Has (name :: p) k v? ↔ c.Has p k v? := by
  have found := child?_eq_some_iff.mp here
  constructor
  · intro has
    obtain ⟨e, entry, ⟨same, _⟩ | ⟨inner, mem, rest, same, has⟩⟩ := has_iff.mp has
    · exact absurd (List.cons.inj same).2 below
    · obtain ⟨rfl, rfl⟩ := List.cons.inj same
      have item : e.2 = .table c :=
        Option.some.inj ((Entries.find?_of_mem (kept_iff.mp kept).2.1 entry).symm.trans found)
      rw [item, Item.inner, List.mem_singleton] at mem
      exact mem ▸ has
  · intro has
    obtain ⟨e, entry, rfl, item⟩ := Entries.mem_of_find? found
    exact .inner entry (by simp [item, Item.inner]) has

theorem Kept.descend (kept : t.Kept) (there : t.descend path = some c) : c.Kept := by
  induction path generalizing t with
  | nil => exact Option.some.inj there ▸ kept
  | cons name path ih =>
    obtain ⟨child, here, there⟩ := descend_cons_iff.mp there
    exact ih (kept.child here) there

theorem has_descend (kept : t.Kept) (there : t.descend path = some c) (below : p ≠ []) :
    t.Has (path ++ p) k v? ↔ c.Has p k v? := by
  induction path generalizing t with
  | nil => rw [← Option.some.inj there, List.nil_append]
  | cons name path ih =>
    obtain ⟨child, here, there⟩ := descend_cons_iff.mp there
    rw [List.cons_append, has_child kept here (by simp [below]), ih (kept.child here) there]

theorem opening_of_descend (there : t.descend path = some c) : t.opening path = .ok () := by
  induction path generalizing t with
  | nil => rfl
  | cons name path ih =>
    obtain ⟨child, here, there⟩ := descend_cons_iff.mp there
    rw [opening, child?_eq_some_iff.mp here]
    exact ih there

theorem Alike.descend (same : t.Alike t') (there : t.descend path = some c) :
    ∃ c', t'.descend path = some c' ∧ c.Alike c' := by
  induction path generalizing t t' with
  | nil => exact ⟨t', rfl, Option.some.inj there ▸ same⟩
  | cons name path ih =>
    obtain ⟨child, here, there⟩ := descend_cons_iff.mp there
    obtain ⟨child', here', same⟩ := (same.find? name).child? here
    obtain ⟨c', there', same⟩ := ih same there
    exact ⟨c', descend_cons_iff.mpr ⟨child', here', there'⟩, same⟩

theorem Echoes.descend (echo : t.Echoes t') (there : t.descend (name :: path) = some c)
    (filled : c.entries ≠ []) : ∃ c', t'.descend (name :: path) = some c' ∧ c.Alike c' := by
  obtain ⟨child, here, there⟩ := descend_cons_iff.mp there
  rcases echo.child? name with ⟨_, child', here', there', same⟩ | ⟨_, none | ⟨bare, here', empty⟩⟩
  · cases here'.symm.trans here
    obtain ⟨c', below, same⟩ := same.descend there
    exact ⟨c', descend_cons_iff.mpr ⟨child', there', below⟩, same⟩
  · cases none.symm.trans here
  · cases here'.symm.trans here
    cases path with
    | nil => exact absurd (Option.some.inj there ▸ empty) filled
    | cons next path =>
      obtain ⟨_, below, _⟩ := descend_cons_iff.mp there
      rw [Table.child?, Table.find?, empty] at below
      cases below

/-! ### Values that are put where they are -/

/-- A value stands under a name and is written as one that is put there would be. -/
def Settled (t : Table) (name : String) (content : Scalar) : Prop :=
  ∃ v, t.find? name = some (.value v) ∧ ∀ k, (k, .value v) ∈ t.entries → k.name = name →
    Toml.LooksLike (k, .value v) (.new name, .value (.new content))

theorem Settled.set (settled : t.Settled name content) : t.LooksLike (t.set name content) := by
  obtain ⟨v, found, alike⟩ := settled
  exact looksLike_set found alike

theorem Settled.set_other (settled : t.Settled name content) (ne : name ≠ other)
    (content' : Scalar) : (t.set other content').Settled name content := by
  obtain ⟨v, found, alike⟩ := settled
  refine ⟨v, (find?_set_other ne content').trans found, fun k mem named => alike k ?_ named⟩
  rcases mem_insert mem with old | new
  · exact old
  · obtain ⟨rfl, _⟩ := Prod.mk.inj new
    exact absurd named.symm ne

theorem looksLike_editChild (here : t.child? name = some c) (looks : c.LooksLike (edit c).1) :
    t.LooksLike (t.editChild name implicit edit).1 := by
  have found := child?_eq_some_iff.mp here
  rw [editChild, found]
  exact looksLike_replace found looks

/-! ### Neat tables that are edited -/

theorem Neat.set {spelled : String → String} (neat : t.Neat spelled) (name : String)
    (content : Scalar) : (t.set name content).Neat spelled := by
  refine neat_iff.mpr fun e mem => ?_
  rcases mem_insert mem with old | rfl
  · exact neat_iff.mp neat e old
  · exact ⟨nofun, by simp [Item.inner]⟩

theorem Neat.child? {spelled : String → String} (neat : t.Neat spelled) (name : String)
    (implicit : Bool) : ((t.child? name).getD (.empty implicit false)).Neat spelled ∧
      ((t.child? name).getD (.empty implicit false)).style.dotted = false := by
  cases here : t.child? name with
  | none => exact ⟨.intro nofun nofun nofun, rfl⟩
  | some child =>
    obtain ⟨e, entry, _, same⟩ := Entries.mem_of_find? (child?_eq_some_iff.mp here)
    have both := (neat_iff.mp neat e entry).2 child (by simp [same, Item.inner])
    exact both.symm

theorem Neat.editChild {spelled : String → String} (neat : t.Neat spelled)
    (key : (Key.new name).Neat spelled)
    (child : (edit ((t.child? name).getD (.empty implicit false))).1.Neat spelled)
    (plain : (edit ((t.child? name).getD (.empty implicit false))).1.style.dotted = false) :
    (t.editChild name implicit edit).1.Neat spelled := by
  refine neat_iff.mpr fun e mem => ?_
  unfold Table.editChild at mem
  split at mem
  next missing =>
    have none : t.child? name = none := by rw [Table.child?, missing]; rfl
    rw [none] at child plain
    rcases List.mem_append.mp mem with old | last
    · exact neat_iff.mp neat e old
    · rw [List.mem_singleton.mp last]
      exact ⟨fun _ => key, by simpa [Item.inner] using And.intro plain child⟩
  next inner found =>
    rw [child?_eq_some_iff.mpr found] at child plain
    rcases Entries.entry_of_replace mem with old | ⟨old, entry, found', _, item⟩
    · exact neat_iff.mp neat e old
    · obtain rfl : old = .table inner := Option.some.inj (found'.symm.trans found)
      rw [item]
      exact ⟨fun _ => (neat_iff.mp neat _ entry).1 rfl, by simpa [Item.inner] using And.intro plain child⟩
  next => exact neat_iff.mp neat e mem

end Table

/-! ### Documents that look alike -/

namespace Document

variable {d d' : Document} {path : List String} {c c' : Table} {name : String} {content : Scalar}

theorem text_of_looksLike (looks : d.root.LooksLike d'.root) (trailing : d'.trailing = d.trailing) :
    d'.text = d.text := by
  have blocks := Block.ordered_of_look (looks.blocks [] false)
  rw [text, text, Table.ordered_sections, Table.ordered_sections, Block.write_of_look blocks, trailing]

theorem Kept.settled (kept : d.Kept) (parsed : parse d.text = some d')
    (there : d.root.descend path = some c) (there' : d'.root.descend path = some c')
    (alike : c.Alike c') (new : (Key.new name, Item.value (.new content)) ∈ c.entries) :
    c'.Settled name content := by
  obtain ⟨_, distinct, all⟩ := Table.kept_iff.mp (kept.root.descend there)
  have here : c.find? name = some (.value (.new content)) := Entries.find?_of_mem distinct new
  have both := alike.find? name
  rw [here] at both
  generalize found : c'.find? name = found' at both
  cases both with
  | @value _ v _ =>
  refine ⟨v, found, fun k listed named => ?_⟩
  have own : c'.Has [name] k (some v) := named ▸ Table.Has.own listed
  have kept' := (kept_of_parse parsed).root
  obtain ⟨k₀, v₀, w, has, key, value, rfl⟩ :=
    kept.has_again parsed ((Table.has_descend kept' there' (by simp)).mpr own)
  have before := (Table.has_descend kept.root there (by simp)).mp has
  obtain ⟨rfl, rfl⟩ : k₀ = Key.new name ∧ v₀ = Value.new content := by
    obtain ⟨old, entry, ⟨same, rfl, told⟩ | ⟨_, _, _, same, has⟩⟩ := Table.has_iff.mp before
    · have whole := List.inj_on_of_nodup_map distinct entry new (List.cons.inj same).1.symm
      rw [whole] at told ⊢
      exact ⟨rfl, Option.some.inj told⟩
    · rw [← (List.cons.inj same).2] at has
      exact absurd rfl has.path_ne_nil
  obtain ⟨_, leaf, body⟩ := value.again (all _ new).2.2.rereads
  have blank : withoutReturns " " = " " := by simp [withoutReturns]
  have none : withoutReturns "" = "" := rfl
  refine LooksLike.of_value (by simpa using leaf) rfl key.text.symm ?_ (fun name => ?_) ?_
  · obtain ⟨text, dotted, rfl | rfl⟩ := key.dotted <;>
      simp [dotted, Key.new, Decor.left, Decor.around, Decor.none, Usual.tight, none]
  · simp [key.leaf, Key.new, Decor.wrap, Decor.left, Decor.right, Decor.around, Decor.none,
      Usual.spaceAfter, none, blank]
  · have bare : (Value.new content).decor = .none := rfl
    rw [Value.text_eq, Value.text_eq, Value.decor_withDecor, Value.body_withDecor, body, bare]
    simp [Decor.wrap, Decor.left, Decor.right, Decor.around, Decor.none, Usual.spaceBefore, none,
      blank]

end Document

end Toml

namespace BuildDocument

variable {d d₁ : BuildDocument} {e : Edit}

def Edit.values : Edit → List (String × Scalar)
  | setEnabled enabled => [(ConfigKey.enabled, .bool enabled)]
  | upsertPackage _ version =>
    [(ConfigKey.version, .text version), (ConfigKey.privateAssets, .text "all")]
  | removePackage _ => []

theorem descend_run (puts : ∀ name, e ≠ .removePackage name) (done : (e.run d).2 = .ok ()) :
    ∃ c, (e.run d).1.document.root.descend e.path = some c ∧
      ∀ f ∈ e.values, (Key.new f.1, Item.value (.new f.2)) ∈ c.entries := by
  cases e with
  | setEnabled enabled =>
    obtain ⟨_, build⟩ := build?_edit done
    refine ⟨_, Table.descend_cons_iff.mpr ⟨_, build, rfl⟩, ?_⟩
    simp only [Edit.values, List.mem_singleton, forall_eq]
    exact Entries.mem_insert_self ..
  | upsertPackage name version =>
    obtain ⟨done, build⟩ := build?_edit done
    obtain ⟨done, packages⟩ := Table.child?_editChild done
    obtain ⟨_, package⟩ := Table.child?_editChild done
    refine ⟨_, Table.descend_cons_iff.mpr ⟨_, build, Table.descend_cons_iff.mpr ⟨_, packages,
      Table.descend_cons_iff.mpr ⟨_, package, rfl⟩⟩⟩, ?_⟩
    simp only [Edit.values, List.mem_cons, List.not_mem_nil, or_false, forall_eq_or_imp, forall_eq]
    have other : ConfigKey.version ≠ ConfigKey.privateAssets := by decide
    exact ⟨Entries.mem_insert_other other (Entries.mem_insert_self ..), Entries.mem_insert_self ..⟩
  | removePackage name => exact absurd rfl (puts name)

theorem neat_edit {spelled : String → String} {change : Table → Table × Except Failure Unit}
    (neat : d.document.root.Neat spelled) (key : (Key.new ConfigKey.build).Neat spelled)
    (build : (change (d.build?.getD (.empty false false))).1.Neat spelled)
    (plain : (change (d.build?.getD (.empty false false))).1.style.dotted = false) :
    (d.edit change).1.document.root.Neat spelled :=
  neat.editChild key build plain

/-- Edits keep a document neat whose headers spell the names on their paths as new ones. -/
theorem neat_run {spelled : String → String} (neat : d.document.root.Neat spelled)
    (puts : ∀ name, e ≠ .removePackage name) (keys : ∀ name ∈ e.path, (Key.new name).Neat spelled) :
    (e.run d).1.document.root.Neat spelled := by
  obtain ⟨build, plain⟩ := neat.child? ConfigKey.build false
  cases e with
  | setEnabled enabled =>
    exact neat_edit neat (keys _ List.mem_cons_self) (build.set _ _) plain
  | upsertPackage name version =>
    obtain ⟨first, keys⟩ := List.forall_mem_cons.mp keys
    obtain ⟨second, keys⟩ := List.forall_mem_cons.mp keys
    obtain ⟨packages, plain'⟩ := build.child? ConfigKey.packages true
    obtain ⟨package, plain''⟩ := packages.child? name false
    have same : ∀ {t : Table} {name : String} {implicit : Bool}
        {edit : Table → Table × Except Failure Unit}, t.style.dotted = false →
          (t.editChild name implicit edit).1.style.dotted = false :=
      fun plain => (congrArg Toml.TableStyle.dotted Table.style_editChild).trans plain
    refine neat_edit neat first ?_ (same plain)
    refine build.editChild second ?_ (same plain')
    exact packages.editChild (keys name List.mem_cons_self) ((package.set _ _).set _ _) plain''
  | removePackage name => exact absurd rfl (puts name)

theorem looksLike_edit {change : Table → Table × Except Failure Unit} {build : Table}
    (here : d.build? = some build) (looks : build.LooksLike (change build).1) :
    d.document.root.LooksLike (d.edit change).1.document.root :=
  Table.looksLike_editChild here looks

theorem looksLike_run {c : Table} (puts : ∀ name, e ≠ .removePackage name)
    (there : d.document.root.descend e.path = some c)
    (settled : ∀ f ∈ e.values, c.Settled f.1 f.2) :
    d.document.root.LooksLike (e.run d).1.document.root := by
  cases e with
  | setEnabled enabled =>
    obtain ⟨build, here, there⟩ := Table.descend_cons_iff.mp there
    obtain rfl := Option.some.inj there
    simp only [Edit.values, List.mem_singleton, forall_eq] at settled
    refine looksLike_edit here ?_
    exact settled.set
  | upsertPackage name version =>
    obtain ⟨build, here, there⟩ := Table.descend_cons_iff.mp there
    obtain ⟨packages, found, there⟩ := Table.descend_cons_iff.mp there
    obtain ⟨package, own, there⟩ := Table.descend_cons_iff.mp there
    obtain rfl := Option.some.inj there
    simp only [Edit.values, List.mem_cons, List.not_mem_nil, or_false, forall_eq_or_imp,
      forall_eq] at settled
    have pin : package.LooksLike (pin version package) :=
      settled.1.set.trans (settled.2.set_other (by decide) _).set
    refine looksLike_edit here (Table.looksLike_editChild found (Table.looksLike_editChild own ?_))
    exact pin
  | removePackage name => exact absurd rfl (puts name)

/-- An edit of a document that was edited in the same way, written and read again. -/
theorem run_again (kept : d.document.Kept) (puts : ∀ name, e ≠ .removePackage name)
    (done : (e.run d).2 = .ok ())
    (parsed : Document.parse (e.run d).1.text = some d₁.document) :
    (e.run d₁).2 = .ok () ∧ (e.run d₁).1.text = d₁.text := by
  have kept := kept_run kept e
  obtain ⟨c, there, new⟩ := descend_run puts done
  have filled : c.entries ≠ [] := by
    cases e with
    | setEnabled enabled => exact List.ne_nil_of_mem (new _ List.mem_cons_self)
    | upsertPackage name version => exact List.ne_nil_of_mem (new _ List.mem_cons_self)
    | removePackage name => exact absurd rfl (puts name)
  obtain ⟨first, rest, path⟩ : ∃ first rest, e.path = first :: rest := by
    cases e with
    | setEnabled enabled => exact ⟨_, _, rfl⟩
    | upsertPackage name version => exact ⟨_, _, rfl⟩
    | removePackage name => exact absurd rfl (puts name)
  have echo := kept.echoes parsed
  rw [path] at there
  obtain ⟨c', there', alike⟩ := echo.descend there filled
  have settled : ∀ f ∈ e.values, c'.Settled f.1 f.2 :=
    fun f mem => kept.settled parsed there there' alike (new f mem)
  rw [← path] at there'
  refine ⟨result_run.trans (Table.opening_of_descend there'), ?_⟩
  exact Document.text_of_looksLike (looksLike_run puts there' settled) (trailing_run d₁ e)

theorem readText_of_saved {w v w' : Workspace} {path : Path} {outcome : Writer.Outcome}
    (opened : load w path = .ok d) (saved : (e.run d).1.save v = (w', .ok outcome)) :
    w'.readText path = .ok (e.run d).1.text := by
  have read := Workspace.readText_of_utf8 (read_of_save saved)
  rwa [path_run, path_of_load opened] at read

theorem save_of_text {w w' : Workspace} {path : Path} {outcome : Writer.Outcome}
    (opened : load w path = .ok d) (opened' : load w' path = .ok d₁)
    (saved : (e.run d).1.save w = (w', .ok outcome))
    (same : (e.run d₁).1.text = (e.run d).1.text) :
    (e.run d₁).1.save w' = (w', .ok .unchanged) := by
  have second : (e.run d₁).1.save w' = (e.run d).1.save w' := by
    rw [save, save, path_run, path_run, path_of_load opened, path_of_load opened', same]
  exact second.trans (Writer.write_again saved)

/-- An edit that is made and saved, and then made again in the file that it left: the second edit is
done, and it prints what was read as it would be printed without the edit. So the file is left as it
is exactly when its text is one that is printed again. -/
theorem edit_again {w w' : Workspace} {path : Path} {outcome : Writer.Outcome}
    (opened : load w path = .ok d) (puts : ∀ name, e ≠ .removePackage name)
    (done : (e.run d).2 = .ok ()) (saved : (e.run d).1.save w = (w', .ok outcome)) :
    let text := (e.run d).1.text
    w'.readText path = .ok text ∧
      (∀ d₁, load w' path = .ok d₁ → (e.run d₁).2 = .ok () ∧ (e.run d₁).1.text = d₁.text) ∧
      ((∃ d₁, load w' path = .ok d₁ ∧ (e.run d₁).2 = .ok () ∧
        (e.run d₁).1.save w' = (w', .ok .unchanged)) ↔
          ∃ document, Document.parse text = some document ∧ document.text = text) := by
  intro text
  have read := readText_of_saved opened saved
  have again : ∀ {d₁ : BuildDocument}, load w' path = .ok d₁ →
      (e.run d₁).2 = .ok () ∧ (e.run d₁).1.text = d₁.text :=
    fun opened' => run_again (kept_load opened) puts done ((load_eq_ok_iff read).mp opened').1
  refine ⟨read, fun d₁ => again, ?_, ?_⟩
  · rintro ⟨d₁, opened', _, unchanged⟩
    have read' := readText_of_saved opened' unchanged
    rw [read] at read'
    exact ⟨d₁.document, ((load_eq_ok_iff read).mp opened').1,
      (again opened').2.symm.trans (Except.ok.inj read').symm⟩
  · rintro ⟨document, parsed, same⟩
    have opened' : load w' path = .ok ⟨path, document⟩ := (load_eq_ok_iff read).mpr ⟨parsed, rfl⟩
    obtain ⟨done', same'⟩ := again opened'
    exact ⟨_, opened', done', save_of_text opened opened' saved (same'.trans same)⟩

/-- Where no header has blanks and all spell their names in one way, and no table comes from dotted
keys, an edit that is made again in the file that it left, if that can be opened, changes nothing. -/
theorem save_again_of_neat {w w' : Workspace} {path : Path} {outcome : Writer.Outcome}
    {spelled : String → String} (opened : load w path = .ok d)
    (neat : d.document.root.Neat spelled) (keys : ∀ name ∈ e.path, (Key.new name).Neat spelled)
    (puts : ∀ name, e ≠ .removePackage name) (done : (e.run d).2 = .ok ())
    (saved : (e.run d).1.save w = (w', .ok outcome)) (opened' : load w' path = .ok d₁) :
    (e.run d₁).2 = .ok () ∧ (e.run d₁).1.save w' = (w', .ok .unchanged) := by
  have kept := kept_load opened
  have parsed := ((load_eq_ok_iff (readText_of_saved opened saved)).mp opened').1
  obtain ⟨done', same⟩ := run_again kept puts done parsed
  have printed : d₁.text = (e.run d).1.text :=
    (kept_run kept e).text_again (neat_run neat puts keys) parsed
  exact ⟨done', save_of_text opened opened' saved (same.trans printed)⟩

/-- A table with a comment of its own. -/
def annotated : Workspace := holding "[build]\n# by hand\ntypediagram-enabled = false\n"

def annotatedText : String :=
  "[build]\n# by hand\ntypediagram-enabled = false\n\n[build.packages.typediagram-build]\n" ++
    "version = \"1.1.0\"\nprivate-assets = \"all\"\n"

theorem edit_again_annotated :
    let install := Edit.upsertPackage "typediagram-build" "1.1.0"
    let once := (Writer.write annotated ⟨"typediagram.toml"⟩ annotatedText).1
    ∃ d, load annotated ⟨"typediagram.toml"⟩ = .ok d ∧ (install.run d).2 = .ok () ∧
      (install.run d).1.save annotated = (once, .ok .written) ∧
      once.readText ⟨"typediagram.toml"⟩ = .ok annotatedText ∧
      ∃ d₁, load once ⟨"typediagram.toml"⟩ = .ok d₁ ∧ (install.run d₁).2 = .ok () ∧
        (install.run d₁).1.save once = (once, .ok .unchanged) := by
  intro install once
  let path : Path := ⟨"typediagram.toml"⟩
  have first : (load annotated path).toOption.map (fun d =>
      (d.path, (install.run d).2.toOption, (install.run d).1.orderedText?)) =
        some (path, some (), some annotatedText) := by decide +kernel
  have second : (Document.parse annotatedText).map
      (fun document => (mk path document).orderedText?) = some (some annotatedText) := by
    decide +kernel
  have written : (Writer.write annotated path annotatedText).2.toOption = some .written := by
    decide +kernel
  obtain ⟨d, opened, same⟩ := Option.map_eq_some_iff.mp first
  obtain ⟨document, parsed, printed⟩ := Option.map_eq_some_iff.mp second
  simp only [Prod.mk.injEq] at same
  obtain ⟨here, done, text⟩ := same
  have opened := ok_of_toOption opened
  have done := ok_of_toOption done
  have text := text_of_orderedText? text
  have saved : (install.run d).1.save annotated = (once, .ok .written) := by
    rw [save, path_run, here, text]
    exact Prod.ext rfl (ok_of_toOption written)
  obtain ⟨read, _, again⟩ := edit_again opened (by simp [install]) done saved
  rw [text] at read again
  exact ⟨d, opened, done, saved, read, again.mpr ⟨document, parsed, text_of_orderedText? printed⟩⟩

/-- A table that is there only as a parent, with a blank behind its key. -/
def spaced : Workspace := holding "[build .x]\n"

/-- What an edit leaves of it. The blank is written once more, but not after the table has got a
header of its own. -/
def spacedOnce : Workspace :=
  (Writer.write spaced ⟨"typediagram.toml"⟩ "[build]\ntypediagram-enabled = true\n[build .x]\n").1

theorem spaced_again : ∃ d d₁, load spaced ⟨"typediagram.toml"⟩ = .ok d ∧
    (d.setEnabled true).2 = .ok () ∧
    (d.setEnabled true).1.save spaced = (spacedOnce, .ok .written) ∧
    spacedOnce.readText ⟨"typediagram.toml"⟩ =
      .ok "[build]\ntypediagram-enabled = true\n[build .x]\n" ∧
    load spacedOnce ⟨"typediagram.toml"⟩ = .ok d₁ ∧ (d₁.setEnabled true).2 = .ok () ∧
    (d₁.setEnabled true).1.text = "[build]\ntypediagram-enabled = true\n[build.x]\n" ∧
    ((d₁.setEnabled true).1.save spacedOnce).2 = .ok .written := by
  let path : Path := ⟨"typediagram.toml"⟩
  have first : (load spaced path).toOption.map (fun d =>
      (d.path, (d.setEnabled true).2.toOption, (d.setEnabled true).1.orderedText?)) =
        some (path, some (), some "[build]\ntypediagram-enabled = true\n[build .x]\n") := by
    decide +kernel
  have second : (load spacedOnce path).toOption.map (fun d =>
      (d.path, (d.setEnabled true).2.toOption, (d.setEnabled true).1.orderedText?)) =
        some (path, some (), some "[build]\ntypediagram-enabled = true\n[build.x]\n") := by
    decide +kernel
  have saved : (Writer.write spaced path
      "[build]\ntypediagram-enabled = true\n[build .x]\n").2.toOption = some .written := by
    decide +kernel
  have saved' : (Writer.write spacedOnce path
      "[build]\ntypediagram-enabled = true\n[build.x]\n").2.toOption = some .written := by
    decide +kernel
  have read : (spacedOnce.readText path).toOption =
      some "[build]\ntypediagram-enabled = true\n[build .x]\n" := by decide +kernel
  obtain ⟨d, opened, same⟩ := Option.map_eq_some_iff.mp first
  obtain ⟨d₁, opened', same'⟩ := Option.map_eq_some_iff.mp second
  simp only [Prod.mk.injEq] at same same'
  obtain ⟨here, done, text⟩ := same
  obtain ⟨here', done', text'⟩ := same'
  refine ⟨d, d₁, ok_of_toOption opened, ok_of_toOption done, ?_, ok_of_toOption read,
    ok_of_toOption opened', ok_of_toOption done', text_of_orderedText? text', ?_⟩
  · have target : (d.setEnabled true).1.path = path := here
    rw [save, target, text_of_orderedText? text]
    exact Prod.ext rfl (ok_of_toOption saved)
  · have target : (d₁.setEnabled true).1.path = path := here'
    rw [save, target, text_of_orderedText? text']
    exact ok_of_toOption saved'

end BuildDocument

end ClassDiagram
