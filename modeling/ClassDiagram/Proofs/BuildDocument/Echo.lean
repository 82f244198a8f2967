import ClassDiagram.Proofs.BuildDocument.Configuration

/-! What is read from documents of the same shapes. A configuration is read alike from both, and
so are the switch and the packages. Of an array of tables no reader here takes anything. -/

namespace ClassDiagram

open Toml (Data Entries Item Table)

namespace Toml

variable {α : Type} {read : Data → Option α} {here there : Option Item}

structure Data.SeesShapes (read : Data → Option α) : Prop where
  table : ∀ {t t' : Table}, t.Alike t' → read t'.data = read t.data
  tables : ∀ ts, read (Item.tables ts).data = none

theorem Data.seesShapes_text? : SeesShapes Data.text? where
  table _ := by rw [Table.data_eq, Table.data_eq]; rfl
  tables _ := rfl

theorem Data.seesShapes_bool? : SeesShapes Data.bool? where
  table _ := by rw [Table.data_eq, Table.data_eq]; rfl
  tables _ := rfl

theorem Item.Alike.map_read (same : Item.Alike here there) (sees : Data.SeesShapes read) :
    (there.map Item.data).map read = (here.map Item.data).map read := by
  cases same with
  | missing => rfl
  | value same => simp only [Option.map_some, Item.data, same]
  | table same => simp only [Option.map_some, Item.data, sees.table same]
  | tables ts ts' => simp only [Option.map_some, sees.tables]

theorem Item.Alike.optional (same : Item.Alike here there) (sees : Data.SeesShapes read) :
    Data.optional read (there.map Item.data) = Data.optional read (here.map Item.data) := by
  have equal := same.map_read sees
  cases here <;> cases there <;> simp_all [Data.optional]

theorem Item.Alike.fieldOr (same : Item.Alike here there) (sees : Data.SeesShapes read)
    (default : α) :
    Data.fieldOr default read (there.map Item.data) =
      Data.fieldOr default read (here.map Item.data) := by
  have equal := same.map_read sees
  cases here <;> cases there <;> simp_all [Data.fieldOr]

theorem Data.fields?_tables {names : List String} {required : Nat} {ts : List Table}
    {fields : List (Option Data)} (positive : 0 < required)
    (given : (Item.tables ts).data.fields? names required = some fields) :
    fields = [] ∨ ∃ record rest, fields = some (.record record) :: rest := by
  cases ts with
  | nil => simp [Item.data, dataOfAll, fields?, Nat.not_le.mpr positive] at given
  | cons t ts =>
    simp only [Item.data, dataOfAll, fields?] at given
    split at given
    · cases given
      rw [t.data_eq]
      cases names with
      | nil => exact .inl (by simp)
      | cons name names => exact .inr ⟨_, _, rfl⟩
    · cases given

end Toml

open Toml.Data (SeesShapes)

theorem EmitConfig.seesShapes_read : SeesShapes EmitConfig.read where
  table {t t'} same := by
    have texts := fun name => (same.find? name).optional Data.seesShapes_text?
    simp only [read, Table.fields?_data, List.map_cons, List.map_nil, texts]
  tables ts := by
    rw [read]
    split
    next direction minAccess outDir given =>
      rcases Data.fields?_tables (by decide) given with none | ⟨record, rest, some⟩
      · cases none
      · cases some
        rfl
    next => rfl

theorem PackageConfig.seesShapes_read : SeesShapes PackageConfig.read where
  table {t t'} same := by
    have texts := fun name => (same.find? name).optional Data.seesShapes_text?
    simp only [read, Table.fields?_data, List.map_cons, List.map_nil, texts]
  tables ts := by
    rw [read]
    split
    next version privateAssets given =>
      rcases Data.fields?_tables (by decide) given with none | ⟨record, rest, some⟩
      · cases none
      · cases some
        rfl
    next => rfl

theorem BuildConfig.read_tables (ts : List Table) : read (Item.tables ts).data = none := by
  rw [read]
  split
  next enabled packages given =>
    rcases Data.fields?_tables (by decide) given with none | ⟨record, rest, some⟩
    · cases none
    · cases some
      rfl
  next => rfl

section Echo

variable {t t' : Table} {enabled : Option Bool} {package? : String → Option PackageConfig}
  {s : Choices}

def BuildConfig.Distinct (build : Table) : Prop :=
  ∀ packages, build.child? ConfigKey.packages = some packages →
    (packages.entries.map (·.1.name)).Nodup

theorem PackageConfig.Listed.alike (listed : Listed t package?) (same : t.Alike t')
    (distinct : (t'.entries.map (·.1.name)).Nodup) : Listed t' package? := by
  have equal : ∀ name, (t'.field? name).map read = (t.field? name).map read :=
    fun name => (same.find? name).map_read seesShapes_read
  constructor
  · intro e mem
    have found : t'.find? e.1.name = some e.2 := Entries.find?_of_mem distinct mem
    have named := (equal e.1.name).trans (listed.named e.1.name)
    rw [Table.field?, found] at named
    obtain ⟨config, _, read⟩ := Option.map_eq_some_iff.mp named.symm
    exact ⟨config, read.symm⟩
  · intro name
    rw [equal]
    exact listed.named name

theorem BuildConfig.Gives.alike (gives : Gives (some t.data) enabled package?) (same : t.Alike t')
    (distinct : Distinct t') : Gives (some t'.data) enabled package? := by
  obtain ⟨switch, all⟩ := gives_table.mp gives
  refine gives_table.mpr ⟨?_, ?_⟩
  · exact ((same.find? _).optional Data.seesShapes_bool?).trans switch
  · have both := same.find? ConfigKey.packages
    rw [Table.field?] at all ⊢
    generalize t.find? ConfigKey.packages = here at both all
    generalize found : t'.find? ConfigKey.packages = there at both
    cases both with
    | missing => exact all
    | value equal =>
      rw [Option.map_some, Item.data] at all ⊢
      rwa [equal]
    | table same =>
      have listed := (PackageConfig.give_table.mp all).alike same
        (distinct _ (Table.child?_eq_some_iff.mpr found))
      exact PackageConfig.give_table.mpr listed
    | tables ts ts' => obtain ⟨packages, read, _⟩ := all; cases read

theorem Config.Gives.echo (gives : Gives t s) (echo : t.Echoes t')
    (distinct : ∀ build, t'.child? ConfigKey.build = some build → BuildConfig.Distinct build) :
    Gives t' s := by
  obtain ⟨drawn, built⟩ := gives_iff.mp gives
  refine gives_iff.mpr ⟨?_, ?_⟩
  · rcases echo.find? ConfigKey.emit with same | ⟨gone, bare, here, empty⟩
    · exact (same.fieldOr EmitConfig.seesShapes_read _).trans drawn
    · rw [Table.field?_child here, Table.data_eq, empty] at drawn
      rw [Table.field?, gone]
      exact drawn
  · rcases echo.find? ConfigKey.build with same | ⟨gone, bare, here, empty⟩
    · rw [Table.field?] at built ⊢
      generalize t.find? ConfigKey.build = here at same built
      generalize found : t'.find? ConfigKey.build = there at same
      cases same with
      | missing => exact built
      | value equal =>
        rw [Option.map_some, Item.data] at built ⊢
        rwa [equal]
      | table same => exact built.alike same (distinct _ (Table.child?_eq_some_iff.mpr found))
      | tables ts ts' =>
        obtain ⟨config, read, _⟩ := built
        rw [Option.map_some, Data.fieldOr, BuildConfig.read_tables] at read
        cases read
    · rw [Table.field?_child here, Table.data_eq, empty] at built
      rw [Table.field?, gone]
      exact built

end Echo

namespace Toml

variable {here there : Option Item} {t t' : Table}

theorem Item.Alike.bind_scalar (same : Item.Alike here there) :
    there.bind Item.text? = here.bind Item.text? ∧ there.bind Item.bool? = here.bind Item.bool? := by
  have plain : ∀ item? : Option Item, item?.bind Item.text? = (item?.map Item.data).bind Data.text? ∧
      item?.bind Item.bool? = (item?.map Item.data).bind Data.bool? := by
    intro item?
    cases item? with
    | none => exact ⟨rfl, rfl⟩
    | some item => exact ⟨item.scalar_data.1.symm, item.scalar_data.2.symm⟩
  have join : ∀ {α : Type} (data? : Option Data) (read : Data → Option α),
      data?.bind read = (data?.map read).join := by
    intro α data? read
    cases data? <;> rfl
  constructor
  · rw [(plain there).1, (plain here).1, join, join, same.map_read Data.seesShapes_text?]
  · rw [(plain there).2, (plain here).2, join, join, same.map_read Data.seesShapes_bool?]

theorem Table.Echoes.child? (echo : t.Echoes t') (name : String) :
    (∃ child child', t.child? name = some child ∧ t'.child? name = some child' ∧
      child.Alike child') ∨
    t'.child? name = none ∧
      (t.child? name = none ∨ ∃ bare, t.child? name = some bare ∧ bare.entries = []) := by
  rcases echo.find? name with same | ⟨gone, bare⟩
  · cases known : t.child? name with
    | none => exact .inr ⟨same.child?_eq_none known, .inl rfl⟩
    | some child =>
      obtain ⟨child', here, alike⟩ := same.child? known
      exact .inl ⟨child, child', rfl, here, alike⟩
  · exact .inr ⟨by rw [Table.child?, gone]; rfl, .inr bare⟩

end Toml

namespace BuildDocument

variable {d d' : BuildDocument}

theorem enabled?_eq_or (d : BuildDocument) :
    d.enabled? = ((d.build?.bind (Table.find? ConfigKey.enabled)).bind Item.bool?).or
      (((d.build?.bind (Table.find? ConfigKey.enabled)).bind Item.text?).bind readSwitch) := by
  rw [enabled?]
  cases d.build?.bind (Table.find? ConfigKey.enabled) <;> rfl

theorem switches_echo (echo : d.document.root.Echoes d'.document.root) :
    d'.switches = d.switches := by
  have built := echo.child? ConfigKey.build
  rw [← build?, ← build?] at built
  have bare : ∀ {build : Table}, build.entries = [] → ∀ name, build.find? name = none := by
    intro build empty name
    rw [Table.find?, empty]
    rfl
  rcases built with ⟨build, build', here, here', same⟩ | ⟨gone, none | ⟨build, here, empty⟩⟩
  · have switch := (same.find? ConfigKey.enabled).bind_scalar
    simp only [switches, enabled?_eq_or, here, here', Option.bind_some, switch.1, switch.2,
      Switches.mk.injEq, true_and]
    funext name
    simp only [package?, here, here', Option.bind_some]
    cases all : build.child? ConfigKey.packages with
    | none => rw [(same.find? _).child?_eq_none all]
    | some packages =>
      obtain ⟨packages', found, same⟩ := (same.find? _).child? all
      rw [found, Option.bind_some, Option.bind_some]
      cases one : packages.child? name with
      | none => rw [(same.find? _).child?_eq_none one]
      | some package =>
        obtain ⟨package', found, same⟩ := (same.find? _).child? one
        rw [found, Option.map_some, Option.map_some,
          (same.find? ConfigKey.version).bind_scalar.1]
  · simp only [switches, enabled?, package?, gone, none]
  · have absent : ∀ name, build.child? name = none := fun name => by
      rw [Table.child?, bare empty]
      rfl
    simp only [switches, enabled?, package?, gone, here, Option.bind_some, Option.bind_none,
      bare empty, absent]

end BuildDocument

end ClassDiagram
