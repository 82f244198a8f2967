import ClassDiagram.Text.Blank

/-! The layout direction of a diagram. A text that is none of the four known ones is kept as
it is, and a blank text stands for no direction. -/

namespace ClassDiagram

inductive Direction where
  | leftRight
  | topBottom
  | bottomTop
  | rightLeft
  | other (text : String)
  deriving DecidableEq

namespace Direction

def text : Direction → String
  | leftRight => "LR"
  | topBottom => "TB"
  | bottomTop => "BT"
  | rightLeft => "RL"
  | other text => text

def ofTrimmed (text : String) : Direction :=
  match text.toUpper with
  | "LR" => leftRight
  | "TB" => topBottom
  | "BT" => bottomTop
  | "RL" => rightLeft
  | _ => other text

def parse (text : String) : Option Direction :=
  let trimmed := Text.trim text
  if trimmed = "" then none else some (ofTrimmed trimmed)

end Direction

end ClassDiagram
