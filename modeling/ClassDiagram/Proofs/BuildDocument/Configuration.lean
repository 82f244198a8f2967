import ClassDiagram.Proofs.BuildDocument.Agreement
import ClassDiagram.Proofs.BuildDocument.Session

/-! The configuration of a document under edits. It is read from a table by what stands under each
name, so an edit changes it at one name, and a document that says the same gives the same one. -/

namespace ClassDiagram

open Toml (Data Entries Item Table)

/-- A configuration, with its packages by name. -/
structure Choices where
  emit : EmitConfig
  enabled : Option Bool
  package? : String → Option PackageConfig

def Config.choices (c : Config) : Choices := ⟨c.emit, c.build.enabled, c.build.package?⟩

namespace Toml

def Table.field? (name : String) (t : Table) : Option Data := (t.find? name).map Item.data

section

variable {t t' : Table} {name other : String}

theorem Table.field?_congr (same : t'.find? name = t.find? name) : t'.field? name = t.field? name :=
  congrArg (Option.map Item.data) same

theorem Table.field?_child {child : Table} (here : t.child? name = some child) :
    t.field? name = some child.data := by
  rw [Table.field?, Table.child?_eq_some_iff.mp here]
  rfl

theorem Table.field?_replace_other (ne : other ≠ name) (item : Item) :
    (t.replace name item).field? other = t.field? other :=
  field?_congr (Entries.find?_replace_other ne item t.entries)

theorem Table.field?_remove_other (ne : other ≠ name) :
    (t.remove name).field? other = t.field? other :=
  field?_congr (Entries.find?_remove_other ne t.entries)

theorem Table.field?_remove_self (t : Table) (name : String) :
    (t.remove name).field? name = none := by
  have gone : (t.remove name).find? name = none := Entries.find?_remove_self name t.entries
  rw [field?, gone]
  rfl

end

end Toml

namespace PackageConfig

theorem read_table_iff {t : Table} {config : PackageConfig} :
    read t.data = some config ↔
      Data.optional Data.text? (t.field? ConfigKey.version) = some config.version ∧
      Data.optional Data.text? (t.field? ConfigKey.privateAssets) = some config.privateAssets := by
  obtain ⟨version, privateAssets⟩ := config
  rw [read, t.fields?_data]
  simp only [List.map_cons, List.map_nil, Option.bind_eq_bind, Option.bind_eq_some_iff,
    Option.pure_def, Option.some.injEq, mk.injEq]
  grind [Table.field?]

/-- A table of packages and what is read from it. -/
structure Listed (t : Table) (package? : String → Option PackageConfig) : Prop where
  each : ∀ e ∈ t.entries, ∃ config, read e.2.data = some config
  named : ∀ name, (t.field? name).map read = (package? name).map some

theorem listed_iff {t : Table} {package? : String → Option PackageConfig} :
    (∃ packages, readAll t.data = some packages ∧ (packages.lookup ·) = package?) ↔
      Listed t package? := by
  have each : (∃ packages, readAll t.data = some packages) ↔
      ∀ e ∈ t.entries, ∃ config, read e.2.data = some config := by
    rw [t.data_eq, readAll]
    induction t.entries with
    | nil => simp [Toml.dataOf]
    | cons e rest ih =>
      simp only [Toml.dataOf, List.mapM_cons, List.forall_mem_cons, ← ih, Option.bind_eq_bind,
        Option.bind_eq_some_iff, Option.map_eq_some_iff, Option.pure_def, Option.some.injEq]
      grind
  have named : ∀ packages, readAll t.data = some packages → ∀ name,
      (t.field? name).map read = (packages.lookup name).map some := by
    intro packages done name
    rw [t.data_eq] at done
    rw [← lookup_readAll done name, Toml.lookup_dataOf]
    rfl
  constructor
  · rintro ⟨packages, done, rfl⟩
    exact ⟨each.mp ⟨packages, done⟩, named packages done⟩
  · rintro ⟨all, same⟩
    obtain ⟨packages, done⟩ := each.mpr all
    refine ⟨packages, done, funext fun name => ?_⟩
    have equal := (named packages done name).symm.trans (same name)
    exact Option.map_injective (fun _ _ => Option.some.inj) equal

end PackageConfig

/-! What is under a name and missing says as much as an empty table. -/

def PackageConfig.Give (data? : Option Data) (package? : String → Option PackageConfig) : Prop :=
  ∃ packages, Data.fieldOr [] readAll data? = some packages ∧ (packages.lookup ·) = package?

def BuildConfig.Gives (data? : Option Data) (enabled : Option Bool)
    (package? : String → Option PackageConfig) : Prop :=
  ∃ config, Data.fieldOr .empty read data? = some config ∧ config.enabled = enabled ∧
    config.package? = package?

def Config.Gives (t : Table) (s : Choices) : Prop :=
  ∃ config, read t.data = some config ∧ config.choices = s

section

variable {t child : Table} {enabled : Option Bool} {package? : String → Option PackageConfig}
  {s : Choices}

theorem PackageConfig.give_table : Give (some t.data) package? ↔ Listed t package? := listed_iff

theorem BuildConfig.gives_table :
    Gives (some t.data) enabled package? ↔
      Data.optional Data.bool? (t.field? ConfigKey.enabled) = some enabled ∧
        PackageConfig.Give (t.field? ConfigKey.packages) package? := by
  rw [Gives, Data.fieldOr, read, t.fields?_data]
  simp only [List.map_cons, List.map_nil, Option.bind_eq_bind, Option.bind_eq_some_iff,
    Option.pure_def, Option.some.injEq]
  constructor
  · rintro ⟨_, ⟨enabled, switch, packages, all, rfl⟩, rfl, rfl⟩
    exact ⟨switch, packages, all, rfl⟩
  · rintro ⟨switch, packages, all, rfl⟩
    exact ⟨_, ⟨enabled, switch, packages, all, rfl⟩, rfl, rfl⟩

theorem Config.gives_iff :
    Gives t s ↔ Data.fieldOr .empty EmitConfig.read (t.field? ConfigKey.emit) = some s.emit ∧
      BuildConfig.Gives (t.field? ConfigKey.build) s.enabled s.package? := by
  rw [Gives, read, t.fields?_data]
  simp only [List.map_cons, List.map_nil, Option.bind_eq_bind, Option.bind_eq_some_iff,
    Option.pure_def, Option.some.injEq]
  constructor
  · rintro ⟨_, ⟨emit, drawn, build, built, rfl⟩, rfl⟩
    exact ⟨drawn, build, built, rfl, rfl⟩
  · rintro ⟨drawn, build, built, enabled, packages⟩
    refine ⟨_, ⟨s.emit, drawn, build, built, rfl⟩, ?_⟩
    rw [choices, enabled, packages]

end

section Edits

variable {t : Table} {name : String} {implicit : Bool} {edit : Table → Table × Except Failure Unit}

theorem Toml.Table.field?_of_editChild (done : (t.editChild name implicit edit).2 = .ok ()) :
    t.field? name = (t.child? name).map Table.data := by
  rw [Table.field?, Table.child?]
  unfold Table.editChild at done
  cases found : t.find? name with
  | none => rfl
  | some item =>
    cases item with
    | table child => rfl
    | value v => rw [found] at done; cases done
    | tables ts => rw [found] at done; cases done

theorem Toml.Table.mem_editChild {e : Key × Item}
    (listed : e ∈ (t.editChild name implicit edit).1.entries) :
    e ∈ t.entries ∨
      e.2 = .table (edit ((t.child? name).getD (.empty implicit false))).1 := by
  rw [Table.child?]
  unfold Table.editChild at listed
  cases found : t.find? name with
  | none =>
    rw [found] at listed
    rcases List.mem_append.mp listed with old | new
    · exact .inl old
    · rw [List.mem_singleton.mp new]
      exact .inr rfl
  | some item =>
    rw [found] at listed
    cases item with
    | table child => exact Entries.mem_replace listed
    | value v => exact .inl listed
    | tables ts => exact .inl listed

variable {s : Choices} {enabled enabled' : Option Bool}
  {package? package?' : String → Option PackageConfig}

theorem BuildDocument.gives_edit {d : BuildDocument} (gives : Config.Gives d.document.root s)
    (done : (d.edit edit).2 = .ok ())
    (below : ∀ build, BuildConfig.Gives (some build.data) s.enabled s.package? →
      (edit build).2 = .ok () → BuildConfig.Gives (some (edit build).1.data) enabled' package?') :
    Config.Gives (d.edit edit).1.document.root ⟨s.emit, enabled', package?'⟩ := by
  obtain ⟨drawn, built⟩ := Config.gives_iff.mp gives
  obtain ⟨done', here⟩ := build?_edit done
  refine Config.gives_iff.mpr ⟨?_, ?_⟩
  · have kept : (d.edit edit).1.document.root.field? ConfigKey.emit =
        d.document.root.field? ConfigKey.emit :=
      Table.field?_congr (Table.find?_editChild_other (by decide))
    rwa [kept]
  · rw [Table.field?_child here]
    refine below _ ?_ done'
    rw [Table.field?_of_editChild done] at built
    rw [← build?] at built
    cases known : d.build? <;> rw [known] at built <;> exact built

theorem BuildConfig.gives_editChild {build : Table}
    (gives : Gives (some build.data) enabled package?)
    (done : (build.editChild ConfigKey.packages true edit).2 = .ok ())
    (below : ∀ packages, PackageConfig.Listed packages package? → (edit packages).2 = .ok () →
      PackageConfig.Listed (edit packages).1 package?') :
    Gives (some (build.editChild ConfigKey.packages true edit).1.data) enabled package?' := by
  obtain ⟨switch, all⟩ := gives_table.mp gives
  obtain ⟨done', here⟩ := Table.child?_editChild done
  refine gives_table.mpr ⟨?_, ?_⟩
  · rw [Table.field?_congr (Table.find?_editChild_other (by decide))]
    exact switch
  · rw [Table.field?_child here]
    refine PackageConfig.give_table.mpr (below _ (PackageConfig.give_table.mp ?_) done')
    rw [Table.field?_of_editChild done] at all
    cases known : build.child? ConfigKey.packages <;> rw [known] at all <;> exact all

theorem PackageConfig.listed_editChild {packages : Table} (listed : Listed packages package?)
    {config : PackageConfig} (done : (packages.editChild name false edit).2 = .ok ())
    (below : ∀ package, read (edit package).1.data = some config) :
    Listed (packages.editChild name false edit).1
      (Function.update package? name (some config)) := by
  obtain ⟨done', here⟩ := Table.child?_editChild done
  constructor
  · intro e mem
    rcases Table.mem_editChild mem with old | new
    · exact listed.each e old
    · rw [new]
      exact ⟨config, below _⟩
  · intro other
    by_cases same : other = name
    · rw [same, Table.field?_child here, Function.update_self]
      exact congrArg some (below _)
    · rw [Table.field?_congr (Table.find?_editChild_other same),
        Function.update_of_ne same]
      exact listed.named other

theorem PackageConfig.read_pin (version : String) (package : Table) :
    read (BuildDocument.pin version package).data = some ⟨some version, some "all"⟩ := by
  refine read_table_iff.mpr ⟨?_, ?_⟩
  · rw [Table.field?, BuildDocument.find?_pin]
    rfl
  · rw [Table.field?, BuildDocument.pin, Table.find?_set_self]
    rfl

theorem PackageConfig.Listed.remove {packages : Table} (listed : Listed packages package?)
    (name : String) : Listed (packages.remove name) (Function.update package? name none) := by
  constructor
  · intro e mem
    exact listed.each e (List.mem_filter.mp mem).1
  · intro other
    by_cases same : other = name
    · rw [same, Table.field?_remove_self, Function.update_self]
      rfl
    · rw [Table.field?_remove_other same, Function.update_of_ne same]
      exact listed.named other

theorem PackageConfig.Listed.update_of_missing {packages : Table}
    (listed : Listed packages package?) (missing : packages.find? name = none) :
    Function.update package? name none = package? := by
  have named := listed.named name
  rw [Table.field?, missing] at named
  have none : package? name = Option.none := Option.map_eq_none_iff.mp named.symm
  rw [← none, Function.update_eq_self]

theorem BuildConfig.gives_keep {build packages kept : Table}
    (gives : Gives (some build.data) enabled package?)
    (found : build.child? ConfigKey.packages = some packages)
    (listed : PackageConfig.Listed kept package?') :
    Gives (some (if kept.entries.isEmpty then build.remove ConfigKey.packages
      else build.replace ConfigKey.packages (.table kept)).data) enabled package?' := by
  obtain ⟨switch, _⟩ := gives_table.mp gives
  have all := PackageConfig.give_table.mpr listed
  split
  next empty =>
    refine gives_table.mpr ⟨?_, ?_⟩
    · rw [Table.field?_remove_other (by decide)]
      exact switch
    · rw [Table.data_eq, List.isEmpty_iff.mp empty] at all
      rw [Table.field?_remove_self]
      exact all
  next =>
    refine gives_table.mpr ⟨?_, ?_⟩
    · rw [Table.field?_replace_other (by decide)]
      exact switch
    · rw [Table.field?_child (Table.child?_replace found _)]
      exact all

end Edits

namespace BuildDocument

variable {d : BuildDocument} {s : Choices}

theorem gives_setEnabled (gives : Config.Gives d.document.root s) {enabled : Bool}
    (done : (d.setEnabled enabled).2 = .ok ()) :
    Config.Gives (d.setEnabled enabled).1.document.root { s with enabled := some enabled } := by
  refine gives_edit gives done fun build built _ => ?_
  obtain ⟨_, all⟩ := BuildConfig.gives_table.mp built
  refine BuildConfig.gives_table.mpr ⟨?_, ?_⟩
  · rw [Table.field?, Table.find?_set_self]
    rfl
  · rw [Table.field?_congr (Table.find?_set_other (by decide) _)]
    exact all

theorem gives_upsertPackage (gives : Config.Gives d.document.root s) {name version : String}
    (done : (d.upsertPackage name version).2 = .ok ()) :
    Config.Gives (d.upsertPackage name version).1.document.root
      { s with package? := Function.update s.package? name (some ⟨some version, some "all"⟩) } := by
  refine gives_edit gives done fun build built done => ?_
  refine BuildConfig.gives_editChild built done fun packages listed done => ?_
  exact PackageConfig.listed_editChild listed done (PackageConfig.read_pin version)

theorem gives_removePackage (gives : Config.Gives d.document.root s) (name : String) :
    Config.Gives (d.removePackage name).1.document.root
      (if (d.removePackage name).2 then
        { s with package? := Function.update s.package? name none } else s) := by
  cases known : d.build? with
  | none => simpa [removePackage, known] using gives
  | some build =>
    cases found : build.child? ConfigKey.packages with
    | none => simpa [removePackage, known, found] using gives
    | some packages =>
      obtain ⟨drawn, built⟩ := Config.gives_iff.mp gives
      rw [Table.field?_child known] at built
      obtain ⟨_, all⟩ := BuildConfig.gives_table.mp built
      rw [Table.field?_child found] at all
      have listed := PackageConfig.give_table.mp all
      have settled : (if (d.removePackage name).2 then
          { s with package? := Function.update s.package? name none } else s) =
          { s with package? := Function.update s.package? name none } := by
        split
        next => rfl
        next missing =>
          rw [listed.update_of_missing]
          simpa [removePackage, known, found] using missing
      rw [settled]
      simp only [removePackage, known, found]
      have kept := BuildConfig.gives_keep built found (listed.remove name)
      refine Config.gives_iff.mpr ⟨?_, ?_⟩
      · rw [withRoot, Table.field?_replace_other (by decide)]
        exact drawn
      · rw [withRoot, Table.field?_child (Table.child?_replace known _)]
        exact kept

namespace Edit

/-- Whether an edit is done. A removal is where something was there. -/
def succeeds (d : BuildDocument) : Edit → Bool
  | setEnabled enabled => (d.setEnabled enabled).2.isOk
  | upsertPackage name version => (d.upsertPackage name version).2.isOk
  | removePackage name => (d.removePackage name).2

def switch? : Edit → Option Bool
  | setEnabled enabled => some enabled
  | _ => none

/-- What an edit leaves under the name of a package; none where it is of another one. -/
def entry? (name : String) : Edit → Option (Option PackageConfig)
  | setEnabled _ => none
  | upsertPackage other version =>
    if name = other then some (some ⟨some version, some "all"⟩) else none
  | removePackage other => if name = other then some none else none

def settle (s : Choices) (e : Edit) : Choices where
  emit := s.emit
  enabled := e.switch?.or s.enabled
  package? name := (e.entry? name).getD (s.package? name)

end Edit

def successes (d : BuildDocument) : List Edit → List Edit
  | [] => []
  | e :: edits =>
    if e.succeeds d then e :: successes (e.run d).1 edits else successes (e.run d).1 edits

theorem gives_run (gives : Config.Gives d.document.root s) (e : Edit) :
    Config.Gives (e.run d).1.document.root (if e.succeeds d then e.settle s else s) := by
  have same : ∀ {failure}, (e.run d).2 = .error failure →
      Config.Gives (e.run d).1.document.root s := by
    intro failure refused
    rwa [run_refused refused]
  cases e with
  | setEnabled enabled =>
    cases done : (d.setEnabled enabled).2 with
    | ok _ =>
      rw [if_pos (by rw [Edit.succeeds, done]; rfl)]
      exact gives_setEnabled gives done
    | error failure =>
      rw [if_neg (by rw [Edit.succeeds, done]; exact Bool.false_ne_true)]
      exact same done
  | upsertPackage name version =>
    cases done : (d.upsertPackage name version).2 with
    | ok _ =>
      rw [if_pos (by rw [Edit.succeeds, done]; rfl)]
      have settled : (Edit.upsertPackage name version).settle s = { s with
          package? := Function.update s.package? name (some ⟨some version, some "all"⟩) } := by
        rw [Edit.settle]
        congr 1
        funext other
        by_cases same : other = name <;> simp [Edit.entry?, same]
      rw [settled]
      exact gives_upsertPackage gives done
    | error failure =>
      rw [if_neg (by rw [Edit.succeeds, done]; exact Bool.false_ne_true)]
      exact same done
  | removePackage name =>
    have settled : (Edit.removePackage name).settle s =
        { s with package? := Function.update s.package? name none } := by
      rw [Edit.settle]
      congr 1
      funext other
      by_cases same : other = name <;> simp [Edit.entry?, same]
    rw [settled]
    exact gives_removePackage gives name

theorem gives_after (gives : Config.Gives d.document.root s) (edits : List Edit) :
    Config.Gives (d.after edits).document.root
      ((d.successes edits).foldl (fun s e => e.settle s) s) := by
  induction edits generalizing d s with
  | nil => exact gives
  | cons e edits ih =>
    have next := gives_run gives e
    rw [successes]
    split
    next done => exact ih (by rwa [if_pos done] at next)
    next undone => exact ih (by rwa [if_neg undone] at next)

theorem foldl_settle (s : Choices) (edits : List Edit) :
    edits.foldl (fun s e => e.settle s) s =
      ⟨s.emit, (edits.filterMap Edit.switch?).getLast?.or s.enabled,
        fun name => (edits.filterMap (Edit.entry? name)).getLast?.getD (s.package? name)⟩ := by
  induction edits generalizing s with
  | nil => rfl
  | cons e edits ih =>
    rw [List.foldl_cons, ih, Edit.settle]
    congr 1
    · cases switch : e.switch? with
      | none => rw [List.filterMap_cons_none switch, Option.none_or]
      | some enabled =>
        rw [List.filterMap_cons_some switch, List.getLast?_cons]
        cases (edits.filterMap Edit.switch?).getLast? <;> rfl
    · funext name
      simp only
      cases entry : e.entry? name with
      | none => rw [List.filterMap_cons_none entry, Option.getD_none]
      | some config =>
        rw [List.filterMap_cons_some entry, List.getLast?_cons]
        cases (edits.filterMap (Edit.entry? name)).getLast? <;> rfl

end BuildDocument

end ClassDiagram
