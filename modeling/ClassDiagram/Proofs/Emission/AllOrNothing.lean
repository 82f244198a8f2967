import ClassDiagram.Proofs.CommandLine.Session
import ClassDiagram.Proofs.Emission.Sources
import ClassDiagram.Proofs.Writer.Extension

/-! Drawing a diagram into a file is done as a whole or not at all, and doing it again changes
nothing. A plan is made from the files before anything is written; the write is atomic; and in the
files that it leaves the same plan is made again, unless the output stands in its own way. -/

namespace ClassDiagram

open Files (Location ProperName Tree Workspace)
open Writer (latest parents)

namespace Emission

theorem plan_ok {w : Workspace} {r : Request} {p : Plan} (planned : plan .builtin w r = .ok p) :
    ∃ config units, LoadedConfig.load w r.config w.cwdPath = .ok config ∧
      Registry.builtin.load w r.descriptor = .ok units ∧
      p.settings = .resolve config r.descriptor (Descriptor.unitName r.descriptor) r.flags ∧
      Solution.ofUnits p.settings.floor units = .ok p.solution := by
  unfold plan at planned
  rw [find?_builtin] at planned
  cases kind : Descriptor.kind? r.descriptor with
  | none => rw [kind] at planned; cases planned
  | some kind' =>
    rw [kind] at planned
    obtain ⟨config, loaded, planned⟩ := Failure.bind_ok planned
    obtain ⟨units, read, planned⟩ := Failure.bind_ok planned
    obtain ⟨solution, built, planned⟩ := Failure.bind_ok planned
    cases planned
    exact ⟨config, units, loaded, read, rfl, built⟩

theorem emit_of_error {faults : Writer.Faults} {w : Workspace} {r : Request} {failure : Failure}
    (refused : plan .builtin w r = .error failure) :
    emit faults .builtin w r = (w, .error failure) := by
  rw [emit, refused]

theorem emit_of_plan (faults : Writer.Faults) {w : Workspace} {r : Request} {p : Plan}
    (planned : plan .builtin w r = .ok p) :
    emit faults .builtin w r =
      (w.onTree (latest w.tree (Writer.run faults w p.settings.out p.text).trees),
        (Writer.run faults w p.settings.out p.text).result.map fun outcome => (p, outcome)) := by
  rw [emit, planned]
  rfl

end Emission

namespace CommandLine.Emit

open Emission (Plan Request plan)

variable {faults : Writer.Faults} {w : Workspace} {r : Request}

/-- What a run owes the files that it finds. -/
structure AllOrNothing (r : Request) (w w' : Workspace) (code : ExitCode) : Prop where
  codes : code = .ok ∨ code = .emitFailed
  /-- A run that fails leaves all there is, and adds no more than folders for its output. -/
  failed : code = .emitFailed → ∀ loc, w'.tree.find? loc = w.tree.find? loc ∨
    w.tree.find? loc = none ∧ w'.tree.find? loc = some .folder ∧
      ∃ p, plan .builtin w r = .ok p ∧ parents w p.settings.out loc
  /-- A run that goes well leaves the diagram of its units in its output, and all else as it is but
  for the folders of the output. -/
  done : code = .ok → ∃ config units solution settings,
    LoadedConfig.load w r.config w.cwdPath = .ok config ∧
      Registry.builtin.load w r.descriptor = .ok units ∧
      settings = Settings.resolve config r.descriptor (Descriptor.unitName r.descriptor)
        r.flags ∧
      Solution.ofUnits settings.floor units = .ok solution ∧
      w'.read settings.out = .ok (Workspace.utf8 (Diagram.text solution settings.direction)) ∧
      ∀ loc ≠ w.location settings.out, w'.tree.find? loc = w.tree.find? loc ∨
        w.tree.find? loc = none ∧ w'.tree.find? loc = some .folder ∧ parents w settings.out loc
  /-- Where the run that went well has changed nothing on the way of a file that the same run now
  reads or matches, the same run finds its diagram, says so and changes nothing. -/
  again : code = .ok → w.Sound → (∀ q ∈ Emission.sources w' r, w.Untouched w'.tree q) →
    ∃ p, plan .builtin w r = .ok p ∧ ∀ oldReads newReads theme mode out err,
      (run (.reads oldReads newReads) theme mode r).run ⟨w', out, err⟩ =
        .ok .ok (Session.printLine ⟨w', out, err⟩ (told theme r p .unchanged mode))

theorem plan_after (sound : w.Sound) (target : Path) (content : String)
    (untouched : ∀ q ∈ Emission.sources
        (w.onTree (latest w.tree (Writer.run faults w target content).trees)) r,
      w.Untouched (latest w.tree (Writer.run faults w target content).trees) q) :
    plan .builtin (w.onTree (latest w.tree (Writer.run faults w target content).trees)) r =
      plan .builtin w r := by
  have enlarges : w.tree.Enlarges (latest w.tree (Writer.run faults w target content).trees) :=
    Writer.run_enlarges sound.cwd faults content
  exact Emission.plan_onTree enlarges.ext (enlarges.proper sound.tree) r untouched

theorem run_allOrNothing (faults : Writer.Faults) (theme : Theme) (mode : OutputMode) (r : Request)
    (s : Session) :
    ∃ code s', (run faults theme mode r).run s = .ok code s' ∧
      AllOrNothing r s.files s'.files code := by
  cases planned : plan .builtin s.files r with
  | error failure =>
    obtain ⟨s', ran, files, _⟩ := run_of_emit_error theme mode (Emission.emit_of_error planned)
    refine ⟨_, s', ran, .inr rfl, fun _ _ => .inl ?_, (fun done => nomatch done),
      (fun done => nomatch done)⟩
    rw [files]
  | ok p =>
    obtain ⟨course, taken, whole⟩ := Writer.run_course faults s.files p.settings.out p.text
    have atomic := taken.atomic (Writer.folders_grow faults s.files p.settings.out)
    rw [← whole] at atomic
    have drawn := Emission.emit_of_plan faults planned
    cases written : (Writer.run faults s.files p.settings.out p.text).result with
    | error failure =>
      rw [written] at drawn
      obtain ⟨s', ran, files, _⟩ := run_of_emit_error theme mode drawn
      -- The output itself may have become a folder, being one of its own parents.
      refine ⟨_, s', ran, .inr rfl, fun _ loc => ?_, (fun done => nomatch done),
        (fun done => nomatch done)⟩
      rw [files]
      by_cases target : loc = s.files.location p.settings.out
      · subst target
        exact (atomic.failed failure written).imp_right fun opened =>
          ⟨opened.absent, opened.made, p, planned, opened.inside⟩
      · exact (atomic.others loc target).imp_right fun ⟨absent, made, inside⟩ =>
          ⟨absent, made, p, planned, inside⟩
    | ok outcome =>
      rw [written] at drawn
      refine ⟨_, _, run_of_emit_ok drawn, .inl rfl, (fun failed => nomatch failed), fun _ => ?_,
        fun _ sound untouched => ?_⟩
      · obtain ⟨config, units, loaded, read, settings, built⟩ := Emission.plan_ok planned
        exact ⟨config, units, p.solution, p.settings, loaded, read, settings, built,
          (atomic.succeeded outcome written).1, atomic.others⟩
      · refine ⟨p, planned, fun oldReads newReads theme mode out err => ?_⟩
        obtain ⟨unchanged, stays⟩ := atomic.again outcome oldReads newReads written
        refine run_of_emit_ok ?_
        simp only [Session.files_printLine]
        rw [Emission.emit_of_plan _ ((plan_after sound _ _ untouched).trans planned), unchanged, stays]
        rfl

/-- The diagram of a manifest, drawn into folders that may not be there yet. -/
def intoDocs : Request := ⟨⟨"S.solution.toml"⟩, none, ⟨some ⟨"docs/x/S.mmd"⟩, none, none⟩⟩

def emitIntoDocs : Invocation := ⟨false, none, .human, .emit intoDocs.descriptor intoDocs.flags⟩

def listedUnit : Workspace :=
  ⟨⟨[(["S.solution.toml"], .file (Workspace.utf8 "units = [\"A.symbols.json\"]")),
    (["A.symbols.json"], .file (Workspace.utf8
      "\x7b\"types\":[\x7b\"name\":\"A\",\"accessibility\":\"public\",\"base\":\"T:B\"\x7d]\x7d"))]⟩,
    []⟩

theorem listedUnit_again : listedUnit.Sound ∧ ∃ p s', plan .builtin listedUnit intoDocs = .ok p ∧
    p.solution.types.map DeclaredType.id = ["T:A"] ∧
    (run .none .plain .human intoDocs).run ⟨listedUnit, "", ""⟩ = .ok .ok s' ∧
    (run .none .plain .human intoDocs).run s' =
      .ok .ok (s'.printLine (told .plain intoDocs p .unchanged .human)) := by
  have sound : listedUnit.Sound := by decide +kernel
  have drawn : (plan .builtin listedUnit intoDocs).toOption.map (fun p =>
      p.solution.types.map DeclaredType.id) = some ["T:A"] := by decide +kernel
  have untouched : (execute .plain listedUnit emitIntoDocs).2.code = .ok ∧
      ∀ q ∈ Emission.sources (execute .plain listedUnit emitIntoDocs).1 intoDocs,
        ∀ l ∈ listedUnit.visited q,
          (execute .plain listedUnit emitIntoDocs).1.tree.find? l = listedUnit.tree.find? l := by
    decide +kernel
  obtain ⟨code, s', ran, owes⟩ :=
    run_allOrNothing .none .plain .human intoDocs ⟨listedUnit, "", ""⟩
  have performed : (perform .plain emitIntoDocs).run ⟨listedUnit, "", ""⟩ = .ok code s' := ran
  rw [execute, performed] at untouched
  obtain ⟨rfl, untouched⟩ := untouched
  obtain ⟨p, planned, again⟩ := owes.again rfl sound untouched
  rw [planned] at drawn
  exact ⟨sound, p, s', planned, Option.some.inj drawn, ran, again [] [] .plain .human s'.out s'.err⟩

/-- A manifest whose pattern leads through the folders of `docs`, of which there are none yet, to a
dump that is not well formed. -/
def roundabout : Workspace :=
  ⟨⟨[(["S.solution.toml"], .file (Workspace.utf8 "units = [\"docs/*/../../A.symbols.json\"]")),
    (["A.symbols.json"], .file [])]⟩, []⟩

set_option maxRecDepth 10000 in
/-- It is not enough that the output and its new folders are no sources: here they are neither read
nor matched, but one of the folders opens the way to a unit that the first run could not find, and
the second run fails. -/
theorem own_folder_opens_way :
    (execute .plain roundabout emitIntoDocs).2.code = .ok ∧
      (execute .plain roundabout emitIntoDocs).1.tree.entries.map Prod.fst =
        [["S.solution.toml"], ["A.symbols.json"], ["docs"], ["docs", "x"],
          ["docs", "x", "S.mmd"]] ∧
      (Emission.sources (execute .plain roundabout emitIntoDocs).1 intoDocs).map
          (execute .plain roundabout emitIntoDocs).1.location =
        [["S.solution.toml"], ["A.symbols.json"]] ∧
      (execute .plain (execute .plain roundabout emitIntoDocs).1 emitIntoDocs).2.code =
        .emitFailed := by
  decide +kernel

end CommandLine.Emit

end ClassDiagram
