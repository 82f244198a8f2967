/-! Styles of text on a terminal, named by what they show. -/

namespace ClassDiagram

/-- The codes that are switched on before a text. -/
structure Style where
  codes : List Nat
  deriving DecidableEq

namespace Style

def plain : Style := ⟨[]⟩

def apply (style : Style) (text : String) : String :=
  if style.codes.isEmpty then text
  else "\x1b[" ++ ";".intercalate (style.codes.map toString) ++ "m" ++ text ++ "\x1b[0m"

end Style

structure Theme where
  label : Style
  package : Style
  written : Style
  unchanged : Style
  drift : Style
  clean : Style
  failure : Style

namespace Theme

def colored : Theme where
  label := ⟨[37, 2]⟩
  package := ⟨[36, 1]⟩
  written := ⟨[32, 1]⟩
  unchanged := ⟨[90]⟩
  drift := ⟨[33, 1]⟩
  clean := ⟨[32]⟩
  failure := ⟨[31, 1]⟩

def plain : Theme := ⟨.plain, .plain, .plain, .plain, .plain, .plain, .plain⟩

def detect (noColor : Option String) (isTerminal : Bool) : Theme :=
  if isTerminal && (noColor.getD "").isEmpty then colored else plain

end Theme

end ClassDiagram
