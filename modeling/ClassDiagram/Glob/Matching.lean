import ClassDiagram.Glob.Pattern

/-! Names and the tokens they match. What a match is, is said by trying every text that a star
may stand for. `fits` gives the same answer in time that grows with the name and with the tokens
only: it goes through the tokens from the last to the first and keeps one answer for each tail of
the name. -/

namespace ClassDiagram.Glob

namespace Token

def admits (c : Char) : Token → Bool
  | char d => c == d
  | anyChar => true
  | anyText => false
  | within ranges => ranges.any (·.contains c)
  | except ranges => !ranges.any (·.contains c)

end Token

def someTail (passes : List Char → Bool) : List Char → Bool
  | [] => passes []
  | c :: cs => passes (c :: cs) || someTail passes cs

/-- Whether a name matches tokens. A star takes as much or as little as is needed. -/
def matchTokens : List Token → List Char → Bool
  | [], cs => cs.isEmpty
  | .anyText :: tokens, cs => someTail (matchTokens tokens) cs
  | _ :: _, [] => false
  | token :: tokens, c :: cs => token.admits c && matchTokens tokens cs

/-- The answers for the tails of a text, the whole text first. -/
def onTails (passes : List Char → Bool) : List Char → List Bool
  | [] => [passes []]
  | c :: cs => passes (c :: cs) :: onTails passes cs

def orLater : List Bool → List Bool
  | [] => []
  | b :: answers =>
    let later := orLater answers
    (b || later.headD false) :: later

/-- The answers for the tails of a name, from those for one token less. -/
def before (token : Token) (cs : List Char) (answers : List Bool) : List Bool :=
  match token with
  | .anyText => orLater answers
  | token => List.zipWith (fun c b => token.admits c && b) cs (answers.drop 1) ++ [false]

def matchTails (cs : List Char) (tokens : List Token) : List Bool :=
  tokens.foldr (fun token answers => before token cs answers) (onTails List.isEmpty cs)

def fits (tokens : List Token) (cs : List Char) : Bool := (matchTails cs tokens).headD false

theorem headD_onTails (passes : List Char → Bool) (cs : List Char) :
    (onTails passes cs).headD false = passes cs := by
  cases cs <;> rfl

theorem orLater_onTails (passes : List Char → Bool) (cs : List Char) :
    orLater (onTails passes cs) = onTails (someTail passes) cs := by
  induction cs with
  | nil => simp [onTails, orLater, someTail]
  | cons c cs ih => simp only [onTails, orLater, ih, headD_onTails, someTail]

theorem zipWith_onTails (token : Token) (plain : token ≠ .anyText) (tokens : List Token)
    (cs : List Char) :
    List.zipWith (fun c b => token.admits c && b) cs
        ((onTails (matchTokens tokens) cs).drop 1) ++ [false] =
      onTails (matchTokens (token :: tokens)) cs := by
  induction cs with
  | nil => cases token <;> first | rfl | exact absurd rfl plain
  | cons c cs ih =>
    have step : matchTokens (token :: tokens) (c :: cs) =
        (token.admits c && matchTokens tokens cs) := by
      cases token <;> first | rfl | exact absurd rfl plain
    cases cs <;> simp_all [onTails]

theorem matchTails_eq (cs : List Char) (tokens : List Token) :
    matchTails cs tokens = onTails (matchTokens tokens) cs := by
  induction tokens with
  | nil => rfl
  | cons token tokens ih =>
    show before token cs (matchTails cs tokens) = _
    rw [ih]
    by_cases star : token = .anyText
    · subst star
      exact orLater_onTails _ _
    · have plain : before token cs (onTails (matchTokens tokens) cs) =
          List.zipWith (fun c b => token.admits c && b) cs
            ((onTails (matchTokens tokens) cs).drop 1) ++ [false] := by
        cases token <;> first | rfl | exact absurd rfl star
      rw [plain]
      exact zipWith_onTails token star tokens cs

theorem fits_eq (tokens : List Token) (cs : List Char) : fits tokens cs = matchTokens tokens cs := by
  rw [fits, matchTails_eq, headD_onTails]

/-- The text of a name without anything that makes it a pattern. -/
def literal? : List Token → Option (List Char)
  | [] => some []
  | .char c :: tokens => (literal? tokens).map (c :: ·)
  | _ :: _ => none

end ClassDiagram.Glob
