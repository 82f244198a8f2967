import ClassDiagram.Toml.Reader

/-! The readers of values, without the lengths of what they leave: what each one does in one step,
told by the readers alone, and what they read, as a relation that follows the brackets. -/

namespace ClassDiagram.Toml

def value? (depth : Nat) (cs : List Char) : Option (Value × List Char) :=
  (readValue depth cs).map fun (v, rest) => (v, rest.val)

def items? (depth : Nat) (reversed : List Value) (cs : List Char) : Option (Value × List Char) :=
  (readItems depth reversed cs).map fun (v, rest) => (v, rest.val)

def pairs? (depth : Nat) (reversed : List Pair) (cs : List Char) : Option (Value × List Char) :=
  (readPairs depth reversed cs).map fun (v, rest) => (v, rest.val)

theorem value?_bracket (depth : Nat) (cs : List Char) :
    value? depth ('[' :: cs) = if depth = 0 then none else items? (depth - 1) [] cs := by
  unfold value? items?
  rw [readValue]
  split
  · rfl
  · simp only [Option.map_map]
    rfl

theorem value?_brace (depth : Nat) (cs : List Char) :
    value? depth ('\x7b' :: cs) = if depth = 0 then none else pairs? (depth - 1) [] cs := by
  unfold value? pairs?
  rw [readValue]
  split
  · rfl
  · simp only [Option.map_map]
    rfl

def scalar? (cs : List Char) : Option (Value × List Char) :=
  match quoted? cs with
  | some (lexeme, rest) =>
    some (.scalar (.text lexeme.content) (some (String.ofList lexeme.spelling)) .none, rest)
  | none =>
    match splitWord cs with
    | ([], _) => none
    | (c :: word, rest) =>
      (scalarOf? (c :: word)).map fun content =>
        (.scalar content (some (String.ofList (c :: word))) .none, rest)

theorem value?_scalar (depth : Nat) {cs : List Char} (array : ∀ rest, cs ≠ '[' :: rest)
    (inline : ∀ rest, cs ≠ '\x7b' :: rest) : value? depth cs = scalar? cs := by
  unfold value? scalar?
  rw [readValue]
  · split
    · next found => simp [found]
    · next found =>
      simp only [found]
      split
      · next word => simp [word]
      · next word => simp [word, Function.comp_def]
  · exact fun rest same => array rest same
  · exact fun rest same => inline rest same

theorem items?_eq (depth : Nat) (reversed : List Value) (cs : List Char) :
    items? depth reversed cs =
      match trivia false [] cs with
      | none => none
      | some (before, ']' :: rest) =>
        some (.array reversed.reverse (!reversed.isEmpty) (String.ofList before) .none, rest)
      | some (before, inner) =>
        (value? depth inner).bind fun (v, rest) =>
          match trivia false [] rest with
          | some (after, ',' :: more) =>
            items? depth (v.withDecor (.around (String.ofList before) (String.ofList after)) ::
              reversed) more
          | some (after, ']' :: more) =>
            some (.array (v.withDecor (.around (String.ofList before) (String.ofList after)) ::
              reversed).reverse false "" .none, more)
          | _ => none := by
  unfold items? value?
  rw [readItems]
  split
  · next skipped => simp [skipped]
  · next skipped => simp [skipped]
  · next before inner other skipped =>
    simp only [skipped]
    cases readValue depth inner with
    | none => rfl
    | some read =>
      obtain ⟨v, rest, shorter⟩ := read
      simp only [Option.map_some, Option.bind_some]
      split
      · next tail => simp [tail, Function.comp_def]
      · next tail => simp [tail]
      · next tail => split <;> simp_all

theorem pairs?_empty (depth : Nat) {cs before rest : List Char}
    (closed : blanks cs = (before, '\x7d' :: rest)) :
    pairs? depth [] cs = some (.inline false (String.ofList before) [] .none, rest) := by
  unfold pairs?
  rw [readPairs.eq_def]
  split
  · next found _ =>
    cases closed.symm.trans found
    rfl
  · next other => exact absurd rfl (other _ _ closed)

theorem pairs?_pair (depth : Nat) {reversed : List Pair} {cs : List Char}
    (open_ : reversed = [] → ∀ before rest, blanks cs ≠ (before, '\x7d' :: rest)) :
    pairs? depth reversed cs =
      match keyPath? cs with
      | some ((path, key), '=' :: rest) =>
        (value? depth (blanks rest).2).bind fun (v, more) =>
          let decor := .around (String.ofList (blanks rest).1) (String.ofList (blanks more).1)
          let pairs := ⟨path, key, v.withDecor decor⟩ :: reversed
          match (blanks more).2 with
          | ',' :: next => pairs? depth pairs next
          | '\x7d' :: last => (inlineOf? pairs.reverse).map fun v => (v, last)
          | _ => none
      | _ => none := by
  unfold pairs? value?
  rw [readPairs.eq_def]
  split
  · next found => exact absurd found (open_ rfl _ _)
  · split
    · next path key rest read =>
      simp only [read]
      cases readValue depth (blanks rest).2 with
      | none => rfl
      | some value =>
        obtain ⟨v, more, shorter⟩ := value
        simp only [Option.map_some, Option.bind_some]
        split
        · next closed => simp [closed, Function.comp_def]
        · next closed => simp [closed, Function.comp_def]
        · next closed => split <;> simp_all
    · split <;> simp_all

theorem value?_lt {depth : Nat} {cs rest : List Char} {v : Value}
    (read : value? depth cs = some (v, rest)) : rest.length < cs.length := by
  obtain ⟨⟨_, left, shorter⟩, _, same⟩ := Option.map_eq_some_iff.mp read
  cases same
  exact shorter

/-! ### What is read -/

mutual

/-- A value from the front of a text, and what is left. -/
inductive ReadsValue : List Char → Value → List Char → Prop
  | scalar {cs rest : List Char} {v : Value} : scalar? cs = some (v, rest) → ReadsValue cs v rest
  | array {cs rest : List Char} {v : Value} : ReadsItems [] cs v rest → ReadsValue ('[' :: cs) v rest
  | inline {cs rest : List Char} {v : Value} :
      ReadsPairs [] cs v rest → ReadsValue ('\x7b' :: cs) v rest

/-- The rest of an array, behind the items that are given, the last one first. -/
inductive ReadsItems : List Value → List Char → Value → List Char → Prop
  | close {reversed : List Value} {cs before rest : List Char} :
      trivia false [] cs = some (before, ']' :: rest) →
      ReadsItems reversed cs
        (.array reversed.reverse (!reversed.isEmpty) (String.ofList before) .none) rest
  | last {reversed : List Value} {cs before inner behind after rest : List Char} {v : Value} :
      trivia false [] cs = some (before, inner) → ReadsValue inner v behind →
      trivia false [] behind = some (after, ']' :: rest) →
      ReadsItems reversed cs
        (.array (v.withDecor (.around (String.ofList before) (String.ofList after)) ::
          reversed).reverse false "" .none) rest
  | more {reversed : List Value} {cs before inner behind after next rest : List Char}
      {v whole : Value} :
      trivia false [] cs = some (before, inner) → ReadsValue inner v behind →
      trivia false [] behind = some (after, ',' :: next) →
      ReadsItems (v.withDecor (.around (String.ofList before) (String.ofList after)) :: reversed)
        next whole rest →
      ReadsItems reversed cs whole rest

/-- The rest of an inline table, behind the pairs that are given, the last one first. -/
inductive ReadsPairs : List Pair → List Char → Value → List Char → Prop
  | empty {cs before rest : List Char} : blanks cs = (before, '\x7d' :: rest) →
      ReadsPairs [] cs (.inline false (String.ofList before) [] .none) rest
  | last {reversed : List Pair} {cs behind more rest : List Char} {path : List Key} {key : Key}
      {v whole : Value} :
      keyPath? cs = some ((path, key), '=' :: behind) → ReadsValue (blanks behind).2 v more →
      (blanks more).2 = '\x7d' :: rest →
      inlineOf? (⟨path, key, v.withDecor (.around (String.ofList (blanks behind).1)
        (String.ofList (blanks more).1))⟩ :: reversed).reverse = some whole →
      ReadsPairs reversed cs whole rest
  | more {reversed : List Pair} {cs behind more next rest : List Char} {path : List Key} {key : Key}
      {v whole : Value} :
      keyPath? cs = some ((path, key), '=' :: behind) → ReadsValue (blanks behind).2 v more →
      (blanks more).2 = ',' :: next →
      ReadsPairs (⟨path, key, v.withDecor (.around (String.ofList (blanks behind).1)
        (String.ofList (blanks more).1))⟩ :: reversed) next whole rest →
      ReadsPairs reversed cs whole rest

end

theorem ReadsValue.ne_nil {cs rest : List Char} {v : Value} (reads : ReadsValue cs v rest) :
    cs ≠ [] := by
  cases reads with
  | scalar found =>
    rintro rfl
    cases found
  | array _ => exact List.cons_ne_nil _ _
  | inline _ => exact List.cons_ne_nil _ _

section

variable {n depth : Nat} {cs rest : List Char} {v : Value}

theorem reads_of_items? {reversed : List Value}
    (values : ∀ cs : List Char, cs.length ≤ n → ∀ {depth v rest},
      value? depth cs = some (v, rest) → ReadsValue cs v rest)
    (short : cs.length ≤ n) (read : items? depth reversed cs = some (v, rest)) :
    ReadsItems reversed cs v rest := by
  induction k : cs.length using Nat.strongRecOn generalizing cs reversed with
  | _ k ih =>
    subst k
    rw [items?_eq] at read
    split at read
    · cases read
    · next skip =>
      cases read
      exact .close skip
    · next before inner _ skip =>
      obtain ⟨⟨w, behind⟩, value, next⟩ := Option.bind_eq_some_iff.mp read
      have inside := trivia_le skip
      have shorter := value?_lt value
      have reads := values inner (by omega) value
      simp only at next
      split at next
      · next after more tail =>
        have behind := trivia_le tail
        rw [List.length_cons] at behind
        exact .more skip reads tail (ih _ (by omega) (by omega) next rfl)
      · next after more tail =>
        cases next
        exact .last skip reads tail
      · cases next

theorem reads_of_pairs? {reversed : List Pair}
    (values : ∀ cs : List Char, cs.length ≤ n → ∀ {depth v rest},
      value? depth cs = some (v, rest) → ReadsValue cs v rest)
    (short : cs.length ≤ n) (read : pairs? depth reversed cs = some (v, rest)) :
    ReadsPairs reversed cs v rest := by
  induction k : cs.length using Nat.strongRecOn generalizing cs reversed with
  | _ k ih =>
    subst k
    by_cases closed : reversed = [] ∧ ∃ before rest, blanks cs = (before, '\x7d' :: rest)
    · obtain ⟨rfl, before, behind, closed⟩ := closed
      rw [pairs?_empty depth closed] at read
      cases read
      exact .empty closed
    · rw [pairs?_pair depth fun none before rest same => closed ⟨none, before, rest, same⟩] at read
      split at read
      · next path key behind found =>
        obtain ⟨⟨w, more⟩, value, next⟩ := Option.bind_eq_some_iff.mp read
        have shorter := keyPath?_lt found
        have inside := blanks_le behind
        have more_lt := value?_lt value
        have tail_le := blanks_le more
        rw [List.length_cons] at shorter
        have reads := values _ (by omega) value
        simp only at next
        split at next
        · next ended =>
          rw [ended, List.length_cons] at tail_le
          exact .more found reads ended (ih _ (by omega) (by omega) next rfl)
        · next ended =>
          obtain ⟨made, told, pair⟩ := Option.map_eq_some_iff.mp next
          cases pair
          exact .last found reads ended told
        · cases next
      · cases read

theorem reads_of_value? (read : value? depth cs = some (v, rest)) : ReadsValue cs v rest := by
  have all : ∀ n, ∀ cs : List Char, cs.length ≤ n → ∀ {depth v rest},
      value? depth cs = some (v, rest) → ReadsValue cs v rest := by
    intro n
    induction n with
    | zero =>
      intro cs short depth v rest read
      have := value?_lt read
      omega
    | succ n ih =>
      intro cs short depth v rest read
      by_cases array : ∃ inside, cs = '[' :: inside
      · obtain ⟨inside, rfl⟩ := array
        rw [value?_bracket] at read
        split at read
        · cases read
        · exact .array (reads_of_items? ih (Nat.le_of_succ_le_succ short) read)
      by_cases inline : ∃ inside, cs = '\x7b' :: inside
      · obtain ⟨inside, rfl⟩ := inline
        rw [value?_brace] at read
        split at read
        · cases read
        · exact .inline (reads_of_pairs? ih (Nat.le_of_succ_le_succ short) read)
      rw [value?_scalar depth (fun rest same => array ⟨rest, same⟩)
        fun rest same => inline ⟨rest, same⟩] at read
      exact .scalar read
  exact all cs.length cs (Nat.le_refl _) read

end

end ClassDiagram.Toml
