import ClassDiagram.Toml.KeyPath
import ClassDiagram.Toml.Word

/-! A TOML text as a list of statements: headers and pairs of keys and values, each with the
blank lines and comments before it. Every reader takes a part off the front of the text and
returns the rest, which is shorter. Nothing is said here of what the statements mean
together. -/

namespace ClassDiagram.Toml

abbrev Rest (cs : List Char) := { rest : List Char // rest.length < cs.length }

abbrev InlineEntries := List (Key × Value)

/-- Puts a value under a dotted key of an inline table. No key may be given twice, and only
tables that come from dotted keys may be extended. -/
def placeInline (key : Key) (v : Value) : List Key → InlineEntries → Option InlineEntries
  | [], entries =>
    if entries.any fun e => e.1.name = key.name then none else some (entries ++ [(key, v)])
  | k :: path, entries =>
    match entries.find? fun e => e.1.name = k.name with
    | none =>
      (placeInline key v path []).map fun inner => entries ++ [(k, .inline true "" inner .none)]
    | some (_, .inline true preamble inner decor) =>
      (placeInline key v path inner).map fun inner =>
        entries.map fun e =>
          if e.1.name = k.name then (e.1, .inline true preamble inner decor) else e
    | some _ => none

structure Pair where
  path : List Key
  key : Key
  value : Value

def inlineOf? (pairs : List Pair) : Option Value :=
  (pairs.foldlM (fun entries p => placeInline p.key p.value p.path entries) []).map fun entries =>
    .inline false "" entries .none

mutual

/-- A value without the blanks around it, with `depth` levels left for arrays and tables. -/
def readValue (depth : Nat) (cs : List Char) : Option (Value × Rest cs) :=
  match cs with
  | '[' :: rest =>
    if depth = 0 then none
    else (readItems (depth - 1) [] rest).map fun (v, ⟨more, shorter⟩) =>
      (v, ⟨more, Nat.lt_succ_of_lt shorter⟩)
  | '\x7b' :: rest =>
    if depth = 0 then none
    else (readPairs (depth - 1) [] rest).map fun (v, ⟨more, shorter⟩) =>
      (v, ⟨more, Nat.lt_succ_of_lt shorter⟩)
  | cs =>
    match read : quoted? cs with
    | some (lexeme, rest) =>
      some (.scalar (.text lexeme.content) (some (String.ofList lexeme.spelling)) .none,
        ⟨rest, quoted?_lt read⟩)
    | none =>
      match split : splitWord cs with
      | ([], _) => none
      | (c :: word, rest) =>
        (scalarOf? (c :: word)).map fun content =>
          (.scalar content (some (String.ofList (c :: word))) .none, ⟨rest, splitWord_lt split⟩)
termination_by 2 * cs.length

def readItems (depth : Nat) (reversed : List Value) (cs : List Char) : Option (Value × Rest cs) :=
  match skipped : trivia false [] cs with
  | none => none
  | some (before, ']' :: rest) =>
    some (.array reversed.reverse (!reversed.isEmpty) (String.ofList before) .none,
      ⟨rest, trivia_le skipped⟩)
  | some (before, inner) =>
    have := trivia_le skipped
    match readValue depth inner with
    | none => none
    | some (v, ⟨rest, shorter⟩) =>
      match tail : trivia false [] rest with
      | some (after, ',' :: more) =>
        have : more.length < cs.length := by
          have := trivia_le tail
          simp only [List.length_cons] at this
          omega
        let v := v.withDecor (.around (String.ofList before) (String.ofList after))
        (readItems depth (v :: reversed) more).map fun (v, ⟨more, _⟩) => (v, ⟨more, by omega⟩)
      | some (after, ']' :: more) =>
        have : more.length < cs.length := by
          have := trivia_le tail
          simp only [List.length_cons] at this
          omega
        let v := v.withDecor (.around (String.ofList before) (String.ofList after))
        some (.array (v :: reversed).reverse false "" .none, ⟨more, this⟩)
      | _ => none
termination_by 2 * cs.length + 1

def readPairs (depth : Nat) (reversed : List Pair) (cs : List Char) : Option (Value × Rest cs) :=
  match skipped : blanks cs, reversed with
  | (before, '\x7d' :: rest), [] =>
    some (.inline false (String.ofList before) [] .none, ⟨rest, by
      have := blanks_le cs
      rw [skipped, List.length_cons] at this
      exact this⟩)
  | _, _ =>
    match read : keyPath? cs with
    | some ((path, key), '=' :: rest) =>
      have := keyPath?_lt read
      have := blanks_le rest
      match readValue depth (blanks rest).2 with
      | none => none
      | some (v, ⟨more, shorter⟩) =>
        let before := String.ofList (blanks rest).1
        let after := String.ofList (blanks more).1
        let pairs := ⟨path, key, v.withDecor (.around before after)⟩ :: reversed
        have := blanks_le more
        match closed : (blanks more).2 with
        | ',' :: next =>
          have : next.length < cs.length := by
            simp only [closed, List.length_cons] at *
            omega
          (readPairs depth pairs next).map fun (v, ⟨last, _⟩) => (v, ⟨last, by omega⟩)
        | '\x7d' :: last =>
          have : last.length < cs.length := by
            simp only [closed, List.length_cons] at *
            omega
          (inlineOf? pairs.reverse).map fun v => (v, ⟨last, this⟩)
        | _ => none
    | _ => none
termination_by 2 * cs.length + 1
decreasing_by all_goals (simp only [List.length_cons] at *; omega)

end

inductive Statement where
  | header (isArray : Bool) (path : List Key) (last : Key) (tail : String)
  | pair (p : Pair)

def readHeader (isArray : Bool) (cs : List Char) : Option (Statement × Rest cs) :=
  match read : keyPath? cs with
  | none => none
  | some ((path, last), rest) =>
    match isArray, rest with
    | true, ']' :: ']' :: rest =>
      match tail : lineTail rest with
      | none => none
      | some (text, more) =>
        some (.header true path last (String.ofList text),
          ⟨more, by
            have := keyPath?_lt read
            have := lineTail_le tail
            simp only [List.length_cons] at *
            omega⟩)
    | false, ']' :: rest =>
      match tail : lineTail rest with
      | none => none
      | some (text, more) =>
        some (.header false path last (String.ofList text),
          ⟨more, by
            have := keyPath?_lt read
            have := lineTail_le tail
            simp only [List.length_cons] at *
            omega⟩)
    | _, _ => none

def readPair (cs : List Char) : Option (Statement × Rest cs) :=
  match read : keyPath? cs with
  | some ((path, key), '=' :: rest) =>
    match readValue levels (blanks rest).2 with
    | none => none
    | some (v, ⟨more, shorter⟩) =>
      match tail : lineTail more with
      | none => none
      | some (text, more) =>
        let decor := .around (String.ofList (blanks rest).1) (String.ofList text)
        some (.pair ⟨path, key, v.withDecor decor⟩,
          ⟨more, by
            have := keyPath?_lt read
            have := blanks_le rest
            have := lineTail_le tail
            simp only [List.length_cons] at *
            omega⟩)
  | _ => none

def readStatement (cs : List Char) : Option (Statement × Rest cs) :=
  match cs with
  | '[' :: '[' :: rest =>
    (readHeader true rest).map fun (s, ⟨more, _⟩) =>
      (s, ⟨more, by simp only [List.length_cons]; omega⟩)
  | '[' :: rest =>
    (readHeader false rest).map fun (s, ⟨more, shorter⟩) => (s, ⟨more, Nat.lt_succ_of_lt shorter⟩)
  | cs => readPair cs

/-- All statements of a text, each with the text before it, and the text after the last one. -/
def readStatements (reversed : List (String × Statement)) (cs : List Char) :
    Option (List (String × Statement) × String) :=
  match skipped : trivia false [] cs with
  | none => none
  | some (before, []) => some (reversed.reverse, String.ofList before)
  | some (before, inner) =>
    match readStatement inner with
    | none => none
    | some (s, ⟨rest, _⟩) =>
      have := trivia_le skipped
      readStatements ((String.ofList before, s) :: reversed) rest
termination_by cs.length

def dropByteOrderMark : List Char → List Char
  | '\uFEFF' :: rest => rest
  | cs => cs

def statements? (text : String) : Option (List (String × Statement) × String) :=
  readStatements [] (dropByteOrderMark text.toList)

end ClassDiagram.Toml
