import ClassDiagram.CommandLine.Args
import ClassDiagram.CommandLine.Session
import ClassDiagram.Emission
import ClassDiagram.Grid
import ClassDiagram.Status
import ClassDiagram.Theme

/-! The commands of the program. Each one changes the files as its job asks and tells of it: in
human mode line by line, in JSON mode with one envelope at its end. A failure that a command does
not report itself is reported where the command was called. -/

namespace ClassDiagram.CommandLine

open Files (Workspace)

def checkMark : String := "✔"

def crossMark : String := "✘"

def packageMark : String := "📦"

def successLine (theme : Theme) (text : String) : String :=
  theme.written.apply checkMark ++ " " ++ text

def failureLine (theme : Theme) (text : String) : String :=
  theme.failure.apply crossMark ++ " " ++ theme.failure.apply text

def labelled (theme : Theme) (label text : String) : String :=
  theme.label.apply label ++ ": " ++ text

def summaryLine (theme : Theme) (label text : String) : String :=
  "  " ++ theme.label.apply label ++ " " ++ text

def errorData (message : String) : Json.Value := .object [("error", .string message)]

def pathData (path : Path) : Json.Value := .string path.text

namespace Emit

def line (theme : Theme) (out : Path) : Writer.Outcome → String
  | .written => theme.written.apply "wrote:" ++ " " ++ out.text
  | .unchanged => theme.unchanged.apply "unchanged:" ++ " " ++ out.text

def data (descriptor : Path) (p : Emission.Plan) (outcome : Writer.Outcome) : Json.Value :=
  .object
    [("descriptor", pathData descriptor), ("kind", .string p.kind.label),
      ("out", pathData p.settings.out), ("outcome", .string outcome.label),
      ("projects", .number p.solution.projects.length),
      ("relations", .number p.solution.relationCount),
      ("types", .number p.solution.types.length)]

def draw (faults : Writer.Faults) (theme : Theme) (mode : OutputMode) (r : Emission.Request) :
    Task Unit := do
  let (p, outcome) ← change fun w => Emission.emit faults .builtin w r
  if mode.isHuman then
    printLine (line theme p.settings.out outcome)
  else
    emitSuccess mode "emit" (data r.descriptor p outcome)

/-- A failure is reported here, whatever its cause. -/
def run (faults : Writer.Faults) (theme : Theme) (mode : OutputMode) (r : Emission.Request) :
    Task ExitCode :=
  tryCatch (do draw faults theme mode r; return .ok) fun failure => do
    if mode.isHuman then
      printError (theme.failure.apply "[emit] error:" ++ " " ++ failure.fullMessage)
    else
      emitFailure mode "emit" (errorData failure.fullMessage)
    return .emitFailed

end Emit

namespace Diff

def data (r : Drift.Report) : Json.Value :=
  let digests := match r.digests with
    | some (old, new) => [("old_digest", .string old), ("new_digest", .string new)]
    | none => []
  .object <|
    [("old", pathData r.old), ("new", pathData r.new), ("identical", .bool r.isIdentical)] ++
      digests

def printReport (theme : Theme) (r : Drift.Report) : Task Unit := do
  match r.digests with
  | none => printLine (theme.clean.apply "No drift.")
  | some (old, new) =>
    printLine (theme.drift.apply "Drift detected.")
    printLine (summaryLine theme "old:" (old ++ "  " ++ r.old.text))
    printLine (summaryLine theme "new:" (new ++ "  " ++ r.new.text))

def run (theme : Theme) (mode : OutputMode) (old new : Path) : Task ExitCode := do
  match Drift.compare (← get).files old new with
  | .ok r =>
    if mode.isHuman then
      printReport theme r
    else
      emitSuccess mode "diff" (data r)
    return if r.isIdentical then .ok else .drift
  | .error (.notFound path) =>
    if mode.isHuman then
      printError (failureLine theme "Both files must exist.")
    else
      emitFailure mode "diff" (.object [("missing", pathData path)])
    return .failure
  | .error failure => throw failure

end Diff

def runInstall (theme : Theme) (mode : OutputMode) (version : String) : Task ExitCode := do
  let document ← change fun w => Toggle.install w w.cwdPath version
  if mode.isHuman then
    printLine (packageMark ++ " Installed " ++ theme.package.apply Toggle.packageName ++ " " ++
      version ++ " in " ++ document.path.text)
  else
    emitSuccess mode "install" (.object
      [("package", .string Toggle.packageName), ("path", pathData document.path),
        ("version", .string version)])
  return .ok

namespace Switch

def name : Bool → String
  | true => "enable"
  | false => "disable"

def verb : Bool → String
  | true => "Enabled"
  | false => "Disabled"

def state : Bool → String
  | true => "ENABLED"
  | false => "DISABLED"

def shown (w : Workspace) (path : Path) : String := (path.absolute w.cwdPath).text

def unitLine (theme : Theme) (enabled : Bool) (unit : String) : String :=
  successLine theme (verb enabled ++ " in " ++ unit)

def unitsData (enabled : Bool) (scope : String) (units : List String) : Json.Value :=
  .object
    [("enabled", .bool enabled), ("scope", .string scope), ("units", .array (units.map .string))]

def runProject (theme : Theme) (mode : OutputMode) (enabled : Bool) (unit : Path) :
    Task ExitCode := do
  let _ ← change fun w => Toggle.setUnit w unit enabled
  let shown := shown (← get).files unit
  if mode.isHuman then
    printLine (unitLine theme enabled shown)
  else
    emitSuccess mode (name enabled) (unitsData enabled "project" [shown])
  return .ok

/-- Switches units one after the other, up to the first one that fails. Gives what is shown of
them. -/
def units (theme : Theme) (mode : OutputMode) (enabled : Bool) : List Path → Task (List String)
  | [] => return []
  | unit :: rest => do
    let _ ← change fun w => Toggle.setUnit w unit enabled
    let shown := shown (← get).files unit
    if mode.isHuman then
      printLine (unitLine theme enabled shown)
    return shown :: (← units theme mode enabled rest)

def runSolution (theme : Theme) (mode : OutputMode) (enabled : Bool) : Task ExitCode := do
  match ← look fun w => Places.manifest? w w.cwdPath with
  | none =>
    if mode.isHuman then
      printError (failureLine theme "No solution manifest found in current directory.")
    else
      emitFailure mode (name enabled) (errorData "no solution manifest")
    return .failure
  | some manifest =>
    let paths ← look fun w => Manifest.units w manifest
    let shown ← units theme mode enabled paths
    if !mode.isHuman then
      emitSuccess mode (name enabled) (unitsData enabled "solution" shown)
    return .ok

def runDefault (theme : Theme) (mode : OutputMode) (enabled : Bool) : Task ExitCode := do
  let document ← change fun w => Toggle.setDefault w w.cwdPath enabled
  if mode.isHuman then
    printLine (successLine theme
      ("Repo default set to " ++ state enabled ++ " in " ++ document.path.text))
  else
    emitSuccess mode (name enabled) (.object
      [("enabled", .bool enabled), ("path", pathData document.path), ("scope", .string "repo")])
  return .ok

def run (theme : Theme) (mode : OutputMode) (enabled solution : Bool) :
    Option Path → Task ExitCode
  | some unit => runProject theme mode enabled unit
  | none =>
    if solution then runSolution theme mode enabled else runDefault theme mode enabled

end Switch

namespace Overview

def packageText (theme : Theme) : Option String → String
  | some version => Toggle.packageName ++ " " ++ version
  | none => theme.unchanged.apply "(not installed)"

def defaultText (theme : Theme) : Option Bool → String
  | some true => "true"
  | some false => "false"
  | none => theme.unchanged.apply "(unset)"

def documentLines (theme : Theme) (s : Status) : List String :=
  match s.document with
  | some path =>
    [labelled theme "Build config" path.text,
      labelled theme "Package" (packageText theme s.packageVersion),
      labelled theme "Repo default" (defaultText theme s.default)]
  | none => [labelled theme "Build config" (theme.unchanged.apply "(none)")]

def table? (rows : List (String × String)) : Option String :=
  if rows.isEmpty then none
  else some (Grid.draw ["Unit", "Enabled"] (rows.map fun (unit, state) => [unit, state]))

def unitRows (w : Workspace) (s : Status) : List (String × String) :=
  s.units.map fun unit => (Switch.shown w unit.path, unit.state.text)

def manifestLines (theme : Theme) (w : Workspace) (s : Status) : List String :=
  match s.manifest with
  | none => []
  | some path => labelled theme "Solution" path.text :: (table? (unitRows w s)).toList

def data (s : Status) : Json.Value :=
  let units := s.units.map fun unit =>
    Json.Value.object [("path", pathData unit.path), ("state", .string unit.state.label)]
  .object
    [("build_config", .opt (s.document.map Path.text)),
      ("package_version", .opt s.packageVersion),
      ("repo_default", s.default.elim .null .bool),
      ("solution", .opt (s.manifest.map Path.text)), ("units", .array units)]

def run (theme : Theme) (mode : OutputMode) : Task ExitCode := do
  let s ← look fun w => Status.gather w w.cwdPath
  if mode.isHuman then
    (documentLines theme s ++ manifestLines theme (← get).files s).forM printLine
  else
    emitSuccess mode "status" (data s)
  return .ok

end Overview

def runUninstall (theme : Theme) (mode : OutputMode) : Task ExitCode := do
  let document ← change fun w => Toggle.uninstall w w.cwdPath
  if mode.isHuman then
    match document with
    | some document =>
      printLine (successLine theme
        ("Removed " ++ Toggle.packageName ++ " from " ++ document.path.text))
    | none => printLine "Nothing to uninstall."
  else
    emitSuccess mode "uninstall" (.object
      [("package", .string Toggle.packageName),
        ("path", .opt (document.map fun document => document.path.text))])
  return .ok

def perform (theme : Theme) (i : Invocation) : Task ExitCode :=
  match i.command with
  | .emit descriptor flags => Emit.run .none theme i.mode ⟨descriptor, i.config, flags⟩
  | .diff old new => Diff.run theme i.mode old new
  | .install version => runInstall theme i.mode version
  | .toggle enabled solution project => Switch.run theme i.mode enabled solution project
  | .status => Overview.run theme i.mode
  | .uninstall => runUninstall theme i.mode

def report (theme : Theme) (mode : OutputMode) (command : String) (failure : Failure)
    (s : Session) : Session :=
  if mode.isHuman then s.printError (failureLine theme failure.fullMessage)
  else s.printEnvelope command false (errorData failure.fullMessage)

structure Reply where
  code : ExitCode
  out : String
  err : String

/-- Runs a command, and reports the failure that it ends with. -/
def execute (theme : Theme) (w : Workspace) (i : Invocation) : Workspace × Reply :=
  match (perform theme i).run ⟨w, "", ""⟩ with
  | .ok code s => (s.files, ⟨code, s.out, s.err⟩)
  | .error failure s =>
    let s := report theme i.mode i.command.name failure s
    (s.files, ⟨.failure, s.out, s.err⟩)

def versionText : String := "typediagram 0.1.0\n"

def usageText : String :=
  "Deterministic Mermaid class diagrams from a codebase's type graph\n\n" ++
  "Usage: typediagram [OPTIONS] <COMMAND>\n\n" ++
  "Commands:\n" ++
  "  emit <PATH> [-o|--out <OUT>] [-d|--direction <DIRECTION>] [--min-access <ACCESS>]\n" ++
  "  diff <OLD> <NEW>\n" ++
  "  install [--version <VERSION>]\n" ++
  "  enable [--solution] [--project <PROJECT>]\n" ++
  "  disable [--solution] [--project <PROJECT>]\n" ++
  "  status\n" ++
  "  uninstall\n\n" ++
  "Options:\n" ++
  "  -v, --verbose          Enable verbose logging\n" ++
  "      --config <CONFIG>  Config file (defaults to the nearest typediagram.toml)\n" ++
  "      --format <FORMAT>  Output format (human, json)\n" ++
  "  -h, --help             Print help\n" ++
  "  -V, --version          Print version\n"

def respond (theme : Theme) (w : Workspace) (args : List String) : Workspace × Reply :=
  match parse args with
  | .ok invocation => execute theme w invocation
  | .error .help => (w, ⟨.ok, usageText, ""⟩)
  | .error .version => (w, ⟨.ok, versionText, ""⟩)
  | .error .misuse => (w, ⟨.misuse, "", usageText⟩)

end ClassDiagram.CommandLine
