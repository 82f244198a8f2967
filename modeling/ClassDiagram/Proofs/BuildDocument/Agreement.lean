import ClassDiagram.Proofs.BuildDocument.Tables
import ClassDiagram.Proofs.Toml.Shapes

/-! The two readers of a document. The configuration is read from what the document says, however
it is written; the build document looks for tables that a header or a dotted key opens. Where such
a table is, both read the same from it. Of a table that is written as a value in one line, or as an
array, the build document sees nothing. -/

namespace ClassDiagram

open Files (Workspace)
open Toml (Data Entries Item Table)

theorem Toml.Data.optional_item {α : Type} {read : Data → Option α} {item? : Option Item}
    {content : Option α} (done : optional read (item?.map Item.data) = some content) :
    item?.map (fun item => read item.data) = content.map some := by
  cases item? with
  | none =>
    obtain rfl : none = content := by simpa [optional] using done
    rfl
  | some item =>
    obtain ⟨a, here, rfl⟩ := Option.map_eq_some_iff.mp done
    simp [here]

theorem PackageConfig.read_table {t : Table} {config : PackageConfig}
    (done : PackageConfig.read t.data = some config) :
    (t.find? ConfigKey.version).map Item.text? = config.version.map some := by
  rw [PackageConfig.read, t.fields?_data] at done
  simp only [List.map_cons, List.map_nil, Option.bind_eq_bind, Option.bind_eq_some_iff] at done
  obtain ⟨version, found, privateAssets, _, same⟩ := done
  cases same
  simpa only [Item.scalar_data] using Data.optional_item found

theorem PackageConfig.lookup_readAll {fields : List (String × Data)}
    {packages : List (String × PackageConfig)}
    (done : PackageConfig.readAll (.record fields) = some packages) (name : String) :
    (fields.lookup name).map PackageConfig.read = (packages.lookup name).map some := by
  rw [readAll] at done
  induction fields generalizing packages with
  | nil =>
    cases done
    rfl
  | cons field fields ih =>
    obtain ⟨first, data⟩ := field
    simp only [List.mapM_cons, Option.bind_eq_bind, Option.bind_eq_some_iff,
      Option.map_eq_some_iff] at done
    obtain ⟨_, ⟨config, here, rfl⟩, rest, later, same⟩ := done
    cases same
    by_cases equal : name = first
    · simp [equal, here]
    · have other : (name == first) = false := by simpa using equal
      simpa [List.lookup_cons, other] using ih later

theorem PackageConfig.version_of_readAll {t package : Table}
    {packages : List (String × PackageConfig)}
    (done : PackageConfig.readAll t.data = some packages) {name : String}
    (here : t.child? name = some package) :
    ∃ config, packages.lookup name = some config ∧
      (package.find? ConfigKey.version).map Item.text? = config.version.map some := by
  rw [t.data_eq] at done
  have read := lookup_readAll done name
  have found : t.entries.find? name = some (.table package) := Table.child?_eq_some_iff.mp here
  rw [Toml.lookup_dataOf, found, Option.map_some, Option.map_some] at read
  obtain ⟨config, listed, same⟩ := Option.map_eq_some_iff.mp read.symm
  exact ⟨config, listed, read_table same.symm⟩

theorem BuildConfig.read_table {t : Table} {config : BuildConfig}
    (done : BuildConfig.read t.data = some config) :
    (t.find? ConfigKey.enabled).map Item.bool? = config.enabled.map some ∧
      ∀ packages, t.child? ConfigKey.packages = some packages →
        PackageConfig.readAll packages.data = some config.packages := by
  rw [BuildConfig.read, t.fields?_data] at done
  simp only [List.map_cons, List.map_nil, Option.bind_eq_bind, Option.bind_eq_some_iff] at done
  obtain ⟨enabled, found, all, read, same⟩ := done
  cases same
  refine ⟨by simpa only [Item.scalar_data] using Data.optional_item found, ?_⟩
  intro packages here
  rw [Table.child?_eq_some_iff.mp here] at read
  exact read

theorem Config.read_table {t build : Table} {config : Config}
    (done : Config.read t.data = some config) (here : t.child? ConfigKey.build = some build) :
    BuildConfig.read build.data = some config.build := by
  rw [Config.read, t.fields?_data] at done
  simp only [List.map_cons, List.map_nil, Option.bind_eq_bind, Option.bind_eq_some_iff] at done
  obtain ⟨emit, _, built, read, same⟩ := done
  cases same
  rw [Table.child?_eq_some_iff.mp here] at read
  exact read

theorem LoadedConfig.loadFrom_of_load {w : Workspace} {asked : Option Path} {start path : Path}
    {loaded : LoadedConfig} (done : load w asked start = .ok loaded)
    (here : loaded.path = some path) : loadFrom w path = .ok loaded := by
  have own : ∀ p, loadFrom w p = .ok loaded → loadFrom w path = .ok loaded := by
    intro p done
    have same : loaded.path = some p := by
      unfold loadFrom at done
      split at done
      · cases done
      · split at done <;> cases done
        rfl
    rw [here, Option.some.injEq] at same
    rwa [same]
  unfold load at done
  split at done
  · split at done
    · exact own _ done
    · cases done
  · split at done
    · cases done
      cases here
    · exact own _ done

namespace BuildDocument

section

variable {d : BuildDocument} {config : Config}

theorem enabled?_eq (done : Config.read d.document.root.data = some config) :
    d.enabled? = if d.build?.isSome then config.build.enabled else none := by
  cases known : d.build? with
  | none => simp [enabled?, known]
  | some build =>
    obtain ⟨switch, _⟩ := BuildConfig.read_table (Config.read_table done known)
    rw [enabled?, known, Option.isSome_some, if_pos rfl, Option.bind_some]
    cases found : build.find? ConfigKey.enabled <;> cases told : config.build.enabled <;>
      simp_all

theorem packageVersion?_eq_ite (done : Config.read d.document.root.data = some config)
    (name : String) :
    d.packageVersion? name =
      if d.hasPackage name then (config.build.package? name).bind PackageConfig.version
      else none := by
  cases known : d.package? name with
  | none => simp [packageVersion?, hasPackage, known]
  | some package =>
    obtain ⟨packages, found, here⟩ := Option.bind_eq_some_iff.mp known
    obtain ⟨build, built, found⟩ := Option.bind_eq_some_iff.mp found
    obtain ⟨_, all⟩ := BuildConfig.read_table (Config.read_table done built)
    obtain ⟨package', listed, version⟩ := PackageConfig.version_of_readAll (all packages found) here
    rw [packageVersion?, hasPackage, known, Option.isSome_some, if_pos rfl, Option.bind_some,
      BuildConfig.package?, listed, Option.bind_some]
    cases written : package.find? ConfigKey.version <;> cases told : package'.version <;> simp_all

end

theorem load_of_loadFrom {w : Workspace} {path : Path} {loaded : LoadedConfig}
    (done : LoadedConfig.loadFrom w path = .ok loaded) :
    ∃ d, BuildDocument.load w path = .ok d ∧
      Config.read d.document.root.data = some loaded.config := by
  unfold LoadedConfig.loadFrom at done
  cases text : w.readText path with
  | error cause =>
    rw [text] at done
    cases done
  | ok content =>
    simp only [text] at done
    cases parsed : Config.parse content with
    | none =>
      rw [parsed] at done
      cases done
    | some config =>
      rw [parsed] at done
      cases done
      obtain ⟨data, said, read⟩ := Option.bind_eq_some_iff.mp parsed
      obtain ⟨document, written, rfl⟩ := Option.map_eq_some_iff.mp said
      exact ⟨⟨path, document⟩, by simp only [BuildDocument.load, text, written], read⟩

/-- The build document answers as the configuration does where it finds a table, and else not at
all. So the two agree exactly where the configuration has nothing from outside of these tables. -/
theorem readers_agree_iff {w : Workspace} {asked : Option Path} {start path : Path}
    {loaded : LoadedConfig} (done : LoadedConfig.load w asked start = .ok loaded)
    (here : loaded.path = some path) :
    ∃ d, BuildDocument.load w path = .ok d ∧
      (let switch := loaded.config.build.enabled
       d.enabled? = (if d.build?.isSome then switch else none) ∧
        (d.enabled? = switch ↔ (switch.isSome → d.build?.isSome))) ∧
      ∀ name,
        let version := (loaded.config.build.package? name).bind PackageConfig.version
        d.packageVersion? name = (if d.hasPackage name then version else none) ∧
          (d.packageVersion? name = version ↔ (version.isSome → d.hasPackage name)) := by
  have same : ∀ {α : Type} (known : Bool) (told : Option α),
      (if known then told else none) = told ↔ (told.isSome → known) := by
    intro α known told
    cases known <;> cases told <;> simp
  obtain ⟨d, opened, read⟩ := load_of_loadFrom (LoadedConfig.loadFrom_of_load done here)
  refine ⟨d, opened, ⟨enabled?_eq read, ?_⟩, fun name => ⟨packageVersion?_eq_ite read name, ?_⟩⟩
  · rw [enabled?_eq read]
    exact same _ _
  · rw [packageVersion?_eq_ite read]
    exact same _ _

def holding (text : String) : Workspace :=
  ⟨⟨[(["typediagram.toml"], .file (Workspace.utf8 text))]⟩, []⟩

/-- Tables under a header and under dotted keys. -/
def headed : Workspace :=
  holding ("[build]\ntypediagram-enabled = true\n" ++
    "packages.typediagram-build.version = \"1.1.0\"\n")

theorem readers_agree_headed :
    ∃ loaded, LoadedConfig.load headed (some ⟨"typediagram.toml"⟩) ⟨""⟩ = .ok loaded ∧
      loaded.path = some ⟨"typediagram.toml"⟩ ∧
      ∃ d, BuildDocument.load headed ⟨"typediagram.toml"⟩ = .ok d ∧
        d.enabled? = loaded.config.build.enabled ∧
        d.packageVersion? "typediagram-build" =
          (loaded.config.build.package? "typediagram-build").bind PackageConfig.version := by
  have path : (LoadedConfig.load headed (some ⟨"typediagram.toml"⟩) ⟨""⟩).toOption.map
      LoadedConfig.path = some (some ⟨"typediagram.toml"⟩) := by decide +kernel
  have tables : (BuildDocument.load headed ⟨"typediagram.toml"⟩).toOption.map
      (fun d => (d.build?.isSome, d.hasPackage "typediagram-build")) = some (true, true) := by
    decide +kernel
  cases done : LoadedConfig.load headed (some ⟨"typediagram.toml"⟩) ⟨""⟩ with
  | error failure => simp [done, Except.toOption] at path
  | ok loaded =>
    have here : loaded.path = some ⟨"typediagram.toml"⟩ := by
      simpa [done, Except.toOption] using path
    obtain ⟨d, opened, ⟨_, switch⟩, versions⟩ := readers_agree_iff done here
    obtain ⟨build, package⟩ : d.build?.isSome ∧ d.hasPackage "typediagram-build" := by
      simpa [opened, Except.toOption] using tables
    exact ⟨loaded, rfl, here, d, opened, switch.mpr fun _ => build,
      (versions _).2.mpr fun _ => package⟩

/-- The same tables in one line. -/
def inlined : Workspace :=
  holding ("build = \x7btypediagram-enabled = true, " ++
    "packages.typediagram-build.version = \"1.1.0\"\x7d\n")

theorem readers_disagree_inlined :
    (LoadedConfig.load inlined (some ⟨"typediagram.toml"⟩) ⟨""⟩).toOption.map (fun loaded =>
      (loaded.config.build.enabled,
        (loaded.config.build.package? "typediagram-build").bind PackageConfig.version)) =
        some (some true, some "1.1.0") ∧
      (BuildDocument.load inlined ⟨"typediagram.toml"⟩).toOption.map (fun d =>
        (d.enabled?, d.packageVersion? "typediagram-build")) = some (none, none) := by
  decide +kernel

end BuildDocument

end ClassDiagram
