import ClassDiagram.Output
import ClassDiagram.Settings
import ClassDiagram.Text.Split
import ClassDiagram.Toggle

/-! The arguments of the program. They are read from left to right: options, the name of a
command, its options and its operands. Each option may be given once for the program and once
for the command; the latter counts. -/

namespace ClassDiagram.CommandLine

inductive Command where
  | emit (descriptor : Path) (flags : Overrides)
  | diff (old new : Path)
  | install (version : String)
  /-- Turns generation on or off: for one unit, for a solution, or as the default. -/
  | toggle (enabled : Bool) (solution : Bool) (project : Option Path)
  | status
  | uninstall

def Command.name : Command → String
  | emit _ _ => "emit"
  | diff _ _ => "diff"
  | install _ => "install"
  | toggle true _ _ => "enable"
  | toggle false _ _ => "disable"
  | status => "status"
  | uninstall => "uninstall"

structure Invocation where
  verbose : Bool
  config : Option Path
  mode : OutputMode
  command : Command

/-- Why no command is run. -/
inductive Stop where
  | help
  | version
  | misuse
  deriving DecidableEq

inductive ValueKind where
  | flag
  | text
  | path
  | mode
  deriving DecidableEq

structure Opt where
  long : String
  short : Option Char
  kind : ValueKind

inductive CommandForm where
  | emit
  | diff
  | install
  | enable
  | disable
  | status
  | uninstall
  deriving DecidableEq

namespace CommandForm

def ofName? : String → Option CommandForm
  | "emit" => some emit
  | "diff" => some diff
  | "install" => some install
  | "enable" => some enable
  | "disable" => some disable
  | "status" => some status
  | "uninstall" => some uninstall
  | _ => none

def opts : CommandForm → List Opt
  | emit =>
    [⟨"out", some 'o', .path⟩, ⟨"direction", some 'd', .text⟩, ⟨"min-access", none, .text⟩]
  | install => [⟨"version", none, .text⟩]
  | enable | disable => [⟨"solution", none, .flag⟩, ⟨"project", none, .path⟩]
  | diff | status | uninstall => []

def operands : CommandForm → Nat
  | emit => 1
  | diff => 2
  | _ => 0

end CommandForm

def sharedOpts : List Opt :=
  [⟨"verbose", some 'v', .flag⟩, ⟨"config", none, .path⟩, ⟨"format", none, .mode⟩]

def helpName : String := "help"

/-- Options by their names, with their values; a flag has the empty value. -/
abbrev Given := List (String × String)

structure Scan where
  /-- The options before the name of the command. -/
  outer : Given
  form : Option CommandForm
  /-- The options of the command, or those of the program while there is no command. -/
  given : Given
  operands : List String
  /-- The option that waits for its value. -/
  pending : Option Opt
  /-- Whether all that follows is an operand. -/
  literal : Bool
  /-- Once help is asked for: whether the command that it is asked for is named. -/
  topic : Option Bool

namespace Scan

def start : Scan := ⟨[], none, [], [], none, false, none⟩

def opts (s : Scan) : List Opt := (s.form.elim [] CommandForm.opts) ++ sharedOpts

def accepts : ValueKind → String → Bool
  | .flag, _ => false
  | .text, _ => true
  | .path, value => value != ""
  | .mode, value => (OutputMode.parse value).toBool

def record (s : Scan) (o : Opt) (value : String) : Except Stop Scan :=
  if (s.given.lookup o.long).isSome then .error .misuse
  else .ok { s with given := s.given ++ [(o.long, value)], pending := none }

def supply (s : Scan) (o : Opt) (value : String) : Except Stop Scan :=
  if accepts o.kind value then s.record o value else .error .misuse

/-- An option without a value attached: a flag is complete, another option waits. -/
def meet (s : Scan) (o : Opt) : Except Stop Scan :=
  if o.kind = .flag then s.record o "" else .ok { s with pending := some o }

def long (s : Scan) (name : String) (value : Option String) : Except Stop Scan :=
  match s.opts.find? (·.long == name), value with
  | some o, some value => s.supply o value
  | some o, none => s.meet o
  | none, some _ => .error .misuse
  | none, none =>
    if name = "help" then .error .help
    else if name = "version" && s.form.isNone then .error .version
    else .error .misuse

/-- Options of one letter after a single dash. What follows an option with a value is its
value, with or without an equals sign. -/
def letters (s : Scan) : List Char → Except Stop Scan
  | [] => .ok s
  | c :: rest =>
    match s.opts.find? (·.short == some c) with
    | some o =>
      if o.kind = .flag then (s.record o "").bind fun s => letters s rest
      else match rest with
        | [] => s.meet o
        | '=' :: value => s.supply o (String.ofList value)
        | value => s.supply o (String.ofList value)
    | none =>
      if c = 'h' then .error .help
      else if c = 'V' && s.form.isNone then .error .version
      else .error .misuse

def operand (s : Scan) (text : String) : Except Stop Scan :=
  match s.form with
  | some form =>
    if s.operands.length < form.operands && text != "" then
      .ok { s with operands := s.operands ++ [text] }
    else .error .misuse
  | none =>
    if s.literal then .error .misuse
    else match CommandForm.ofName? text with
      | some form => .ok { s with outer := s.given, form := some form, given := [] }
      | none => if text = helpName then .ok { s with topic := some false } else .error .misuse

def name (s : Scan) (named : Bool) (text : String) : Except Stop Scan :=
  if !named && (text = helpName || (CommandForm.ofName? text).isSome) then
    .ok { s with topic := some true }
  else .error .misuse

def splitLong (text : List Char) : String × Option String :=
  let name := text.takeWhile (· ≠ '=')
  match text.drop name.length with
  | [] => (String.ofList name, none)
  | _ :: value => (String.ofList name, some (String.ofList value))

def option (s : Scan) (arg : String) : Except Stop Scan :=
  match arg.toList, s.pending with
  | '-' :: _ :: _, some _ => .error .misuse
  | ['-', '-'], none => .ok { s with literal := true }
  | '-' :: '-' :: text, none =>
    let (name, value) := splitLong text
    s.long name value
  | '-' :: c :: cs, none => s.letters (c :: cs)
  | _, some o => s.supply o arg
  | _, none => s.operand arg

def step (s : Scan) (arg : String) : Except Stop Scan :=
  match s.topic with
  | some named => s.name named arg
  | none => if s.literal then s.operand arg else s.option arg

def overrides (given : Given) : Overrides where
  out := (given.lookup "out").map Path.mk
  direction := given.lookup "direction"
  minAccess := given.lookup "min-access"

def command (form : CommandForm) (given : Given) (operands : List String) : Option Command :=
  let toggle := fun enabled =>
    .toggle enabled (given.lookup "solution").isSome ((given.lookup "project").map Path.mk)
  match form, operands with
  | .emit, [descriptor] => some (.emit ⟨descriptor⟩ (overrides given))
  | .diff, [old, new] => some (.diff ⟨old⟩ ⟨new⟩)
  | .install, [] => some (.install ((given.lookup "version").getD Toggle.defaultVersion))
  | .enable, [] => some (toggle true)
  | .disable, [] => some (toggle false)
  | .status, [] => some .status
  | .uninstall, [] => some .uninstall
  | _, _ => none

def invocation (s : Scan) : Except Stop Invocation :=
  let shared := fun name => (s.given.lookup name).or (s.outer.lookup name)
  let mode := (OutputMode.parse ((shared "format").getD OutputMode.human.label)).toOption
  match s.pending, s.form.bind (fun form => command form s.given s.operands), mode with
  | none, some command, some mode =>
    .ok ⟨(shared "verbose").isSome, (shared "config").map Path.mk, mode, command⟩
  | _, _, _ => .error .misuse

def finish (s : Scan) : Except Stop Invocation :=
  if s.topic.isSome then .error .help else s.invocation

end Scan

def parse (args : List String) : Except Stop Invocation :=
  (args.foldlM Scan.step Scan.start).bind Scan.finish

end ClassDiagram.CommandLine
