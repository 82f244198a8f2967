import ClassDiagram.Toml.Printer
import ClassDiagram.Toml.Reader

/-! The text between the parts of a document, read again where it is written. What is skipped
before a part ends where the part begins, whatever the part is, and carriage returns may be left
out of it. -/

namespace ClassDiagram.Toml

/-! ### Blanks -/

def AllBlank (cs : List Char) : Prop := ∀ c ∈ cs, isBlank c = true

theorem AllBlank.nil : AllBlank [] := by simp [AllBlank]

theorem allBlank_blanks (cs : List Char) : AllBlank (blanks cs).1 :=
  List.all_eq_true.mp List.all_takeWhile

theorem blanks_append {before : List Char} (blank : AllBlank before) (rest : List Char) :
    blanks (before ++ rest) = (before ++ (blanks rest).1, (blanks rest).2) := by
  simp only [blanks, List.takeWhile_append_of_pos blank, List.dropWhile_append_of_pos blank]

theorem blanks_of_head {cs : List Char} (head : ∀ c ∈ cs.head?, isBlank c = false) :
    blanks cs = ([], cs) := by
  cases cs with
  | nil => rfl
  | cons c cs =>
    have stop : isBlank c = false := head c rfl
    simp [blanks, stop]

theorem blanks_split {before rest : List Char} (blank : AllBlank before)
    (head : ∀ c ∈ rest.head?, isBlank c = false) : blanks (before ++ rest) = (before, rest) := by
  rw [blanks_append blank, blanks_of_head head, List.append_nil]

theorem return_notMem_blank {cs : List Char} (blank : AllBlank cs) : '\r' ∉ cs := by
  intro mem
  have := blank '\r' mem
  simp [isBlank] at this

/-! ### Blank lines and comments -/

/-- Goes over a text as `trivia` does; tells whether it ends in a comment. -/
def skip? (inComment : Bool) : List Char → Option Bool
  | [] => some inComment
  | '\n' :: rest => skip? false rest
  | '\r' :: '\n' :: rest => skip? false rest
  | c :: rest =>
    if inComment then if isTextChar c then skip? true rest else none
    else if isBlank c then skip? false rest
    else if c = '#' then skip? true rest
    else none

/-- Text that is skipped as a whole, and after which a part may begin. -/
def Skipped (cs : List Char) : Prop := skip? false cs = some false

theorem ne_return_of_text {c : Char} (text : isTextChar c = true) : c ≠ '\r' := by
  rintro rfl
  simp [isTextChar] at text

theorem ne_return_of_blank {c : Char} (blank : isBlank c = true) : c ≠ '\r' := by
  rintro rfl
  simp [isBlank] at blank

theorem skip?_cons {c : Char} (line : c ≠ '\n') (ret : c ≠ '\r') (b : Bool) (rest : List Char) :
    skip? b (c :: rest) =
      if b then if isTextChar c then skip? true rest else none
      else if isBlank c then skip? false rest
      else if c = '#' then skip? true rest
      else none := by
  rw [skip?]
  · exact line
  · exact fun _ same => absurd same ret

theorem trivia_cons {c : Char} (line : c ≠ '\n') (ret : c ≠ '\r') (b : Bool)
    (reversed rest : List Char) :
    trivia b reversed (c :: rest) =
      if b then if isTextChar c then trivia true (c :: reversed) rest else none
      else if isBlank c then trivia false (c :: reversed) rest
      else if c = '#' then trivia true (c :: reversed) rest
      else some (reversed.reverse, c :: rest) := by
  rw [trivia]
  · exact line
  · exact fun _ same => absurd same ret

theorem skip?_append {b b' : Bool} {cs : List Char} (skips : skip? b cs = some b')
    (rest : List Char) : skip? b (cs ++ rest) = skip? b' rest := by
  fun_induction skip? b cs <;> grind [skip?, skip?_cons, ne_return_of_text, ne_return_of_blank]

theorem Skipped.append {cs ds : List Char} (first : Skipped cs) (second : Skipped ds) :
    Skipped (cs ++ ds) := by
  rw [Skipped, skip?_append first]
  exact second

theorem skip?_of_blank {cs : List Char} (blank : AllBlank cs) : skip? false cs = some false := by
  induction cs with
  | nil => rfl
  | cons c cs ih =>
    obtain ⟨first, rest⟩ : isBlank c = true ∧ AllBlank cs := by simpa [AllBlank] using blank
    grind [skip?, skip?_cons, ne_return_of_blank]

theorem trivia_append {b b' : Bool} {cs : List Char} (skips : skip? b cs = some b')
    (reversed rest : List Char) :
    trivia b reversed (cs ++ rest) = trivia b' (cs.reverse ++ reversed) rest := by
  fun_induction skip? b cs generalizing reversed <;>
    grind [trivia, trivia_cons, ne_return_of_text, ne_return_of_blank]

def Opens (cs : List Char) : Prop :=
  ∃ c rest, cs = c :: rest ∧ isBlank c = false ∧ c ≠ '\n' ∧ c ≠ '\r' ∧ c ≠ '#'

theorem Opens.append {cs : List Char} (opens : Opens cs) (rest : List Char) : Opens (cs ++ rest) := by
  obtain ⟨c, more, rfl, begins⟩ := opens
  exact ⟨c, more ++ rest, rfl, begins⟩

theorem trivia_of_opens {cs : List Char} (opens : Opens cs) (reversed : List Char) :
    trivia false reversed cs = some (reversed.reverse, cs) := by
  obtain ⟨c, rest, rfl, blank, line, ret, comment⟩ := opens
  simp [trivia_cons line ret, blank, comment]

theorem trivia_skipped {cs rest : List Char} (skipped : Skipped cs) (opens : Opens rest) :
    trivia false [] (cs ++ rest) = some (cs, rest) := by
  rw [trivia_append skipped, trivia_of_opens opens]
  simp

theorem trivia_all {cs : List Char} {b : Bool} (skips : skip? false cs = some b) :
    trivia false [] cs = some (cs, []) := by
  have all := trivia_append skips [] []
  simp only [List.append_nil] at all
  rw [all, trivia]
  simp

theorem skip?_of_trivia {b : Bool} {reversed cs inside rest : List Char}
    (read : trivia b reversed cs = some (inside, rest)) :
    ∃ skipped b', inside = reversed.reverse ++ skipped ∧ skip? b skipped = some b' ∧
      (rest ≠ [] → b' = false) := by
  fun_induction trivia b reversed cs with
  | case1 inComment reversed =>
    cases read
    exact ⟨[], inComment, by simp, rfl, by simp⟩
  | case8 inComment reversed c rest _ _ open_ =>
    cases read
    exact ⟨[], inComment, by simp, rfl, fun _ => by simpa using open_⟩
  | _ => grind [skip?, skip?_cons, ne_return_of_text, ne_return_of_blank]

theorem skipped_of_trivia {cs inside rest : List Char}
    (read : trivia false [] cs = some (inside, rest)) (more : rest ≠ []) : Skipped inside := by
  obtain ⟨skipped, b, rfl, skips, closed⟩ := skip?_of_trivia read
  rw [closed more] at skips
  exact skips

theorem skip?_withoutReturns {b b' : Bool} {cs : List Char} (skips : skip? b cs = some b') :
    skip? b (cs.filter (· ≠ '\r')) = some b' := by
  fun_induction skip? b cs <;> grind [skip?, skip?_cons, ne_return_of_text, ne_return_of_blank]

/-! ### The rest of a line -/

def LineEnd (cs : List Char) : Prop :=
  ∃ before comment, cs = before ++ comment ∧ AllBlank before ∧
    (∀ c ∈ comment, isTextChar c = true) ∧ ∀ c ∈ comment.head?, c = '#'

theorem lineEnd_of_lineTail {cs inside rest : List Char}
    (read : lineTail cs = some (inside, rest)) : LineEnd inside := by
  have blank := allBlank_blanks cs
  unfold lineTail at read
  generalize blanks cs = parts at read blank
  obtain ⟨before, behind⟩ := parts
  obtain ⟨more, _, same⟩ := Option.map_eq_some_iff.mp read
  cases same
  refine ⟨_, _, rfl, blank, ?_, ?_⟩
  · split
    · exact List.all_eq_true.mp List.all_takeWhile
    · simp
  · split
    · next opening =>
      cases behind with
      | nil => simp
      | cons d more =>
        obtain rfl : d = '#' := by simpa using opening
        simp [isTextChar]
    · simp

theorem lineTail_of_lineEnd {cs : List Char} (line : LineEnd cs) (rest : List Char) :
    lineTail (cs ++ '\n' :: rest) = some (cs, rest) := by
  obtain ⟨before, comment, rfl, blank, text, opening⟩ := line
  have stop : isTextChar '\n' = false := by decide
  have head : ∀ c ∈ (comment ++ '\n' :: rest).head?, isBlank c = false := by
    cases comment with
    | nil => simp [isBlank]
    | cons c comment =>
      obtain rfl : c = '#' := opening c rfl
      simp [isBlank]
  have taken : (comment ++ '\n' :: rest).takeWhile isTextChar = comment := by
    simp [List.takeWhile_append_of_pos text, stop]
  unfold lineTail
  rw [List.append_assoc, blanks_split blank head]
  cases comment with
  | nil => simp [lineEnd?]
  | cons c comment =>
    obtain rfl : c = '#' := opening c rfl
    simp only [List.cons_append] at taken ⊢
    simp [taken, lineEnd?]

theorem return_notMem_lineEnd {cs : List Char} (line : LineEnd cs) : '\r' ∉ cs := by
  obtain ⟨before, comment, rfl, blank, text, _⟩ := line
  have none : isTextChar '\r' = false := by decide
  simp only [List.mem_append, not_or]
  exact ⟨return_notMem_blank blank, fun mem => by simp [text _ mem] at none⟩

theorem LineEnd.skips {cs : List Char} (line : LineEnd cs) : ∃ b, skip? false cs = some b := by
  obtain ⟨before, comment, rfl, blank, text, opening⟩ := line
  cases comment with
  | nil => exact ⟨false, by simpa using skip?_of_blank blank⟩
  | cons c comment =>
    obtain rfl : c = '#' := opening c rfl
    have inComment : ∀ {cs : List Char}, (∀ c ∈ cs, isTextChar c = true) →
        skip? true cs = some true := by
      intro cs text
      induction cs with
      | nil => rfl
      | cons c cs ih =>
        obtain ⟨first, text⟩ := List.forall_mem_cons.mp text
        have line : c ≠ '\n' := by
          rintro rfl
          exact absurd first (by decide)
        rw [skip?_cons line (ne_return_of_text first), if_pos rfl, if_pos first]
        exact ih text
    refine ⟨true, ?_⟩
    rw [skip?_append (skip?_of_blank blank), skip?_cons (by decide) (by decide)]
    simpa [isBlank] using inComment (List.forall_mem_cons.mp text).2

theorem LineEnd.nil : LineEnd [] := ⟨[], [], rfl, AllBlank.nil, by simp, by simp⟩

theorem LineEnd.withoutReturns {cs : List Char} (line : LineEnd cs) :
    LineEnd (cs.filter (· ≠ '\r')) := by
  rwa [List.filter_eq_self.mpr]
  intro c mem
  simpa using fun same : c = '\r' => return_notMem_lineEnd line (same ▸ mem)

/-! ### Layout as it is written -/

theorem toList_withoutReturns (text : String) :
    (withoutReturns text).toList = text.toList.filter (· ≠ '\r') := by
  simp [withoutReturns]

theorem withoutReturns_of_notMem {text : String} (none : '\r' ∉ text.toList) :
    withoutReturns text = text := by
  apply String.toList_inj.mp
  rw [toList_withoutReturns, List.filter_eq_self]
  intro c mem
  simpa using fun same : c = '\r' => none (same ▸ mem)

structure Decor.Sides (before after : List Char → Prop) (d : Decor) : Prop where
  before : ∀ text ∈ d.before, before text.toList
  after : ∀ text ∈ d.after, after text.toList

end ClassDiagram.Toml
