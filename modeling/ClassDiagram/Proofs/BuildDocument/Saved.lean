import ClassDiagram.Proofs.BuildDocument.Rereading
import ClassDiagram.Proofs.Files.Inside

/-! The configuration that is read from a document after it was edited and saved. What edits are not
about is read as before; of the edits of one switch or one package the last one that is done
counts. -/

namespace ClassDiagram

open Files (Workspace)

namespace BuildDocument

/-- What a configuration becomes by edits that are done. -/
structure Edited (before after : Config) (edits : List Edit) : Prop where
  emit : after.emit = before.emit
  enabled : after.build.enabled =
    (edits.filterMap Edit.switch?).getLast?.or before.build.enabled
  packages : ∀ name, after.build.package? name =
    (edits.filterMap (Edit.entry? name)).getLast?.getD (before.build.package? name)

theorem read_after {w : Workspace} {path : Path} {d : BuildDocument} {config : Config}
    (opened : load w path = .ok d) (read : Config.read d.document.root.data = some config)
    {edits : List Edit} {document : Toml.Document}
    (parsed : Toml.Document.parse (d.after edits).text = some document) :
    ∃ config', Config.parse (d.after edits).text = some config' ∧
      Edited config config' (d.successes edits) := by
  have gives : Config.Gives d.document.root config.choices := ⟨config, read, rfl⟩
  obtain ⟨config', read', same⟩ :=
    gives_reread (kept_after (kept_load opened) edits) (gives_after gives edits) parsed
  rw [foldl_settle] at same
  refine ⟨config', ?_, ?_, ?_, ?_⟩
  · rw [Config.parse, Toml.Document.dataOf?, parsed]
    exact read'
  · exact congrArg Choices.emit same
  · exact congrArg Choices.enabled same
  · exact congrFun (congrArg Choices.package? same)

/-- Edits of a document, saved, leave a configuration that is changed in what they are about, if the
text that is written is a document. -/
theorem configuration_after {w : Workspace} {asked : Option Path} {start path : Path}
    {loaded : LoadedConfig} (done : LoadedConfig.load w asked start = .ok loaded)
    (here : loaded.path = some path) :
    ∃ d, load w path = .ok d ∧ ∀ edits, (Toml.Document.parse (d.after edits).text).isSome →
      ∃ config, Config.parse (d.after edits).text = some config ∧
        Edited loaded.config config (d.successes edits) ∧
        ∀ w' outcome, (d.after edits).save w = (w', .ok outcome) →
          LoadedConfig.load w' (some path) start = .ok ⟨some path, config⟩ := by
  obtain ⟨d, opened, read⟩ := load_of_loadFrom (LoadedConfig.loadFrom_of_load done here)
  refine ⟨d, opened, fun edits written => ?_⟩
  obtain ⟨document, parsed⟩ := Option.isSome_iff_exists.mp written
  obtain ⟨config, parse, edited⟩ := read_after opened read parsed
  refine ⟨config, parse, edited, fun w' outcome saved => ?_⟩
  have target : (d.after edits).path = path := (path_after d edits).trans (path_of_load opened)
  have bytes := read_of_save saved
  rw [target] at bytes
  rw [LoadedConfig.load, if_pos (Files.Workspace.isFile_of_read bytes), LoadedConfig.loadFrom,
    Files.Workspace.readText_of_utf8 bytes]
  simp only [parse]

deriving instance DecidableEq for PackageConfig

def drawn : Workspace := holding "[emit]\ndirection = \"TB\"\n"

def switchings : List Edit :=
  [.setEnabled false, .upsertPackage "typediagram-build" "1.1.0", .setEnabled true]

theorem configuration_after_switchings :
    ∃ loaded d config, LoadedConfig.load drawn (some ⟨"typediagram.toml"⟩) ⟨""⟩ = .ok loaded ∧
      load drawn ⟨"typediagram.toml"⟩ = .ok d ∧
      Config.parse (d.after switchings).text = some config ∧ config.emit = loaded.config.emit ∧
      config.build.enabled = some true ∧
      config.build.package? "typediagram-build" = some ⟨some "1.1.0", some "all"⟩ := by
  have path : (LoadedConfig.load drawn (some ⟨"typediagram.toml"⟩) ⟨""⟩).toOption.map
      LoadedConfig.path = some (some ⟨"typediagram.toml"⟩) := by decide +kernel
  have read : ∀ d ∈ (load drawn ⟨"typediagram.toml"⟩).toOption,
      ((d.after switchings).orderedText?.bind Toml.Document.parse).isSome := by decide +kernel
  have done : ∀ d ∈ (load drawn ⟨"typediagram.toml"⟩).toOption,
      (d.successes switchings).filterMap Edit.switch? = [false, true] ∧
        (d.successes switchings).filterMap (Edit.entry? "typediagram-build") =
          [some ⟨some "1.1.0", some "all"⟩] := by decide +kernel
  cases opened : LoadedConfig.load drawn (some ⟨"typediagram.toml"⟩) ⟨""⟩ with
  | error failure => simp [opened, Except.toOption] at path
  | ok loaded =>
    obtain ⟨d, here, saved⟩ :=
      configuration_after opened (by simpa [opened, Except.toOption] using path)
    rw [here] at read done
    obtain ⟨config, parsed, edited, _⟩ := saved switchings (isSome_parse_text (read d rfl))
    refine ⟨loaded, d, config, rfl, here, parsed, edited.emit, ?_, ?_⟩
    · rw [edited.enabled, (done d rfl).1]
      rfl
    · rw [edited.packages, (done d rfl).2]
      rfl

end BuildDocument

end ClassDiagram
