import ClassDiagram.Json.Value

/-! The forms of output: for people, or one JSON envelope for each command. -/

namespace ClassDiagram

inductive OutputMode where
  | human
  | json
  deriving DecidableEq

namespace OutputMode

def isHuman (mode : OutputMode) : Bool := mode = .human

def label : OutputMode → String
  | human => "human"
  | json => "json"

def parse (text : String) : Except String OutputMode :=
  match text.toLower with
  | "human" | "text" => .ok human
  | "json" => .ok json
  | _ => .error ("unknown output format: " ++ text)

end OutputMode

structure Envelope where
  command : String
  ok : Bool
  data : Json.Value

namespace Envelope

def text (e : Envelope) : String :=
  (Json.Value.object
    [("command", .string e.command), ("ok", .bool e.ok), ("data", e.data)]).pretty 0

end Envelope

end ClassDiagram
