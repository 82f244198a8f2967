import ClassDiagram.Files.Workspace

/-! Why a request fails. Each constructor is one cause; `Failure.kind` sorts the causes and
`Failure.message` is the wording of all of them. -/

namespace ClassDiagram

open Files (IoCause)

inductive Failure where
  /-- A unit has no symbols to draw; the reasons are its diagnostics. -/
  | extraction (unit reason : String)
  | unknownKind (text : String)
  | unknownAccess (text : String)
  | notDescriptor (path : Path)
  | notDump (path : Path)
  | malformedManifest (path : Path)
  | invalidPattern (entry : String)
  | io (path : Path) (cause : IoCause)
  | notFound (path : Path)
  | noConfig (path : Path)
  | malformedConfig (path : Path)
  | notTable (key : String)
  deriving DecidableEq

namespace Failure

inductive Kind where
  | extraction
  | input
  | io
  | notFound
  | config
  deriving DecidableEq

def kind : Failure → Kind
  | extraction _ _ => .extraction
  | unknownKind _ | unknownAccess _ | notDescriptor _ | notDump _ | malformedManifest _
  | invalidPattern _ => .input
  | io _ _ => .io
  | notFound _ => .notFound
  | noConfig _ | malformedConfig _ | notTable _ => .config

def malformedDetail : String := ": the document is not valid"

def input (detail : String) : String := "Input error: " ++ detail

def config (detail : String) : String := "Config error: " ++ detail

def message : Failure → String
  | extraction unit reason => "No compilation for " ++ unit ++ ": " ++ reason
  | unknownKind text => input ("Unknown type kind: " ++ text)
  | unknownAccess text => input ("Unknown accessibility: " ++ text)
  | notDescriptor path =>
    input (path.text ++ " is neither a build unit nor an aggregate descriptor")
  | notDump path => input (path.text ++ " is not a symbol dump or solution manifest")
  | malformedManifest path =>
    input ("malformed solution manifest " ++ path.text ++ malformedDetail)
  | invalidPattern entry =>
    input ("invalid unit pattern '" ++ entry ++ "': the pattern is not valid")
  | io path cause => "IO error at " ++ path.text ++ ": " ++ cause.message
  | notFound path => "File not found: " ++ path.text
  | noConfig path => config ("config file " ++ path.text ++ " does not exist")
  | malformedConfig path => config ("failed to parse " ++ path.text ++ malformedDetail)
  | notTable key => config ("\x60" ++ key ++ "\x60 is not a table")

def fullMessage : Failure → String
  | io path cause => (io path cause).message ++ ": " ++ cause.message
  | other => other.message

theorem bind_ok {α β : Type} {x : Except Failure α} {f : α → Except Failure β} {b : β}
    (done : (x >>= f) = .ok b) : ∃ a, x = .ok a ∧ f a = .ok b := by
  cases x with
  | error failure => cases done
  | ok a => exact ⟨a, rfl, done⟩

end Failure

end ClassDiagram
