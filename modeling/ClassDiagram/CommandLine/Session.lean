import ClassDiagram.Failure
import ClassDiagram.Output

/-! What a command is made of. It looks at the files and changes them, prints as it goes, and ends
with an exit code or with a failure; what it has changed and printed until then stays. -/

namespace ClassDiagram.CommandLine

open Files (Workspace)

inductive ExitCode where
  | ok
  | failure
  | emitFailed
  | drift
  | misuse
  deriving DecidableEq

@[simp] def ExitCode.number : ExitCode → Nat
  | ok => 0
  | failure => 1
  | misuse => 2
  | emitFailed => 3
  | drift => 5

/-- The files, and what has been printed so far. -/
structure Session where
  files : Workspace
  out : String
  err : String

namespace Session

def printLine (s : Session) (text : String) : Session := { s with out := s.out ++ (text ++ "\n") }

def printError (s : Session) (text : String) : Session := { s with err := s.err ++ (text ++ "\n") }

def printEnvelope (s : Session) (command : String) (ok : Bool) (data : Json.Value) : Session :=
  s.printLine (Envelope.mk command ok data).text

end Session

abbrev Task := EStateM Failure Session

variable {α : Type}

def look (f : Workspace → Except Failure α) : Task α := fun s =>
  match f s.files with
  | .ok a => .ok a s
  | .error failure => .error failure s

def change (f : Workspace → Workspace × Except Failure α) : Task α := fun s =>
  match f s.files with
  | (files, .ok a) => .ok a { s with files }
  | (files, .error failure) => .error failure { s with files }

def printLine (text : String) : Task Unit := modify (·.printLine text)

def printError (text : String) : Task Unit := modify (·.printError text)

/-- Prints a result that went well; in human mode, nothing. -/
def emitSuccess (mode : OutputMode) (command : String) (data : Json.Value) : Task Unit := do
  if mode = .json then modify (·.printEnvelope command true data)

/-- Prints a result that did not go well; in human mode, nothing. -/
def emitFailure (mode : OutputMode) (command : String) (data : Json.Value) : Task Unit := do
  if mode = .json then modify (·.printEnvelope command false data)

end ClassDiagram.CommandLine
