import ClassDiagram.Proofs.Files.Below
import ClassDiagram.Proofs.Glob.Growth

/-! The parts of a pattern in a folder. Where the text of the folder has nothing that makes it a
pattern, its names are looked up one after the other, which comes to the folder, written without the
`.` that opens it. -/

namespace ClassDiagram

open Files (Location ProperName Tree Workspace span)
open Files.Workspace (Askable Named Reached Leads)

namespace Path

variable {p q : Path} {name : String}

theorem segments_join (p : Path) (relative : q.isAbsolute = false) :
    (p.join q).isAbsolute = p.isAbsolute ∧ ∃ front, (p.join q).segments = front ++ q.segments ∧
      (front = p.segments ∨ front ++ [""] = p.segments) := by
  have behind : q.segments = Text.split '/' q.text := by rw [segments, relative]; rfl
  by_cases empty : p.text = ""
  · rw [join, if_pos (by simp [empty])]
    have none : p = ⟨""⟩ := congrArg Path.mk empty
    have bare : (Path.mk "").isAbsolute = false ∧ [] ++ [""] = (Path.mk "").segments := by decide
    rw [none]
    exact ⟨relative.trans bare.1.symm, [], rfl, .inr bare.2⟩
  rw [join, if_neg (by simp [relative, empty])]
  have cut : ∀ f : String, Text.split '/' (f ++ "/" ++ q.text) =
      Text.split '/' f ++ Text.split '/' q.text := fun f => Text.split_append '/' f q.text
  split
  · next closed =>
    obtain ⟨f, text⟩ := slash_of_endsWith closed
    have absolute : (Path.mk (p.text ++ q.text)).isAbsolute = p.isAbsolute :=
      isAbsolute_slash empty q.text
    have own : Text.split '/' p.text = Text.split '/' f ++ [""] := by
      have split := Text.split_append '/' f ""
      rw [String.append_empty] at split
      rw [text]
      exact split
    refine ⟨absolute, (if p.isAbsolute then (Text.split '/' f).drop 1 else Text.split '/' f), ?_,
      .inr ?_⟩
    · rw [segments, absolute, behind, text, cut]
      split
      · exact List.drop_append_of_le_length (Text.length_split_pos '/' f)
      · rfl
    · rw [segments, own]
      split
      · exact (List.drop_append_of_le_length (Text.length_split_pos '/' f)).symm
      · rfl
  · have absolute : (Path.mk (p.text ++ "/" ++ q.text)).isAbsolute = p.isAbsolute := by
      rw [String.append_assoc]
      exact isAbsolute_slash empty _
    refine ⟨absolute, p.segments, ?_, .inl rfl⟩
    rw [segments, absolute, behind, cut, segments]
    split
    · exact List.drop_append_of_le_length (Text.length_split_pos '/' p.text)
    · rfl

theorem segments_ne_nil (relative : p.isAbsolute = false) : p.segments ≠ [] := by
  rw [segments, relative]
  exact List.length_pos_iff.mp (Text.length_split_pos '/' p.text)

theorem steps_join (p : Path) (relative : q.isAbsolute = false) :
    (p.join q).steps = p.steps ++ q.steps := by
  obtain ⟨_, front, segments, shape⟩ := segments_join p relative
  have own : front.filter isStep = p.steps := by
    rw [p.steps_eq_filter]
    rcases shape with rfl | closed
    · rfl
    · rw [← closed, List.filter_append]
      exact (List.append_nil _).symm
  rw [steps_eq_filter, segments, List.filter_append, own, q.steps_eq_filter]

theorem span_segments (p : Path) : span p.segments ≤ p.text.utf8ByteSize + 1 := by
  rw [← Files.span_split, segments]
  split
  · conv_rhs => rw [← List.take_append_drop 1 (Text.split '/' p.text), Files.span_append]
    exact Nat.le_add_left _ _
  · rfl

/-- A path as the search for a pattern writes it: a `.` opens it only where it says no more. -/
structure Tidy (p : Path) : Prop where
  written : p.text ≠ ""
  opening : p.isAbsolute = false → p.segments.head? = some "." → p.steps = []

theorem tidy_root : Tidy ⟨"/"⟩ := by constructor <;> decide +kernel

theorem tidy_here : Tidy ⟨"."⟩ := by constructor <;> decide +kernel

theorem components_eq (tidy : Tidy p) : p.components =
    if p.isAbsolute then .root :: p.steps.map Component.ofSegment
    else if p.steps = [] then [.here] else p.steps.map Component.ofSegment := by
  unfold components steps
  cases absolute : p.isAbsolute with
  | true => rfl
  | false =>
    rw [if_neg (by simp), if_neg (by simp)]
    have first := head_segments absolute tidy.written
    cases segments : p.segments with
    | nil => exact absurd segments (segments_ne_nil absolute)
    | cons segment rest =>
      rw [segments] at first
      by_cases dot : segment = "."
      · have none := tidy.opening absolute (by rw [segments, dot]; rfl)
        rw [steps, segments, dot, List.filter_cons_of_neg (by decide)] at none
        subst dot
        rw [List.filter_cons_of_neg (by decide), if_pos none]
        simp only [none, List.map_nil]
      · have some : isIdle segment = false := by
          simpa [isIdle, dot] using first segment rfl
        split
        · next eq => exact absurd (List.cons.inj eq).1 dot
        · rw [if_neg (by simp [some])]

theorem isHere_iff (tidy : Tidy p) :
    Glob.isHere p = true ↔ p.isAbsolute = false ∧ p.steps = [] := by
  refine ⟨steps_of_same_here, fun ⟨relative, bare⟩ => ?_⟩
  have here : (Path.mk ".").components = [.here] := by decide +kernel
  rw [Glob.isHere, same, here, components_eq tidy, if_neg (by simp [relative]), if_pos bare]
  rfl

structure Step (p q : Path) (name : String) : Prop where
  absolute : q.isAbsolute = p.isAbsolute
  steps : q.steps = p.steps ++ [name].filter isStep
  ends : ∃ before, q.segments = before ++ [name]
  size : q.text.utf8ByteSize ≤ p.text.utf8ByteSize + (name.utf8ByteSize + 1)
  tidy : Tidy q

theorem step_inside (tidy : Tidy p) (noSlash : '/' ∉ name.toList)
    (some : Glob.isHere p = true → name ≠ "") : Step p (Glob.inside p name) name := by
  have alone : (Path.mk name).isAbsolute = false := isAbsolute_of_notMem noSlash
  have single : (Path.mk name).segments = [name] := by
    rw [segments, alone]
    exact Text.split_of_notMem noSlash
  have own : (Path.mk name).steps = [name].filter isStep := by rw [steps_eq_filter, single]
  unfold Glob.inside
  split
  · next here =>
    obtain ⟨relative, none⟩ := (isHere_iff tidy).mp here
    refine ⟨alone.trans relative.symm, by rw [none, own, List.nil_append], ⟨[], single⟩, by simp; omega,
      some here, fun _ opens => ?_⟩
    rw [single] at opens
    rw [own, Option.some.inj opens]
    decide
  · next notHere =>
    obtain ⟨absolute, steps⟩ := p.joinName_steps noSlash
    obtain ⟨_, front, segments, shape⟩ := segments_join p alone
    rw [single] at segments
    have text : (p.joinName name).text = p.text ++ name ∨
        (p.joinName name).text = p.text ++ ("/" ++ name) := by
      rw [joinName, join, if_neg (by simp [alone, tidy.written])]
      split
      · exact .inl rfl
      · exact .inr (String.append_assoc ..)
    refine ⟨absolute, own ▸ steps, ⟨front, segments⟩, ?_, ?_, fun relative opens => ?_⟩
    · have slash : "/".utf8ByteSize = 1 := rfl
      rcases text with text | text <;> simp only [text, String.utf8ByteSize_append, slash] <;> omega
    · rcases text with text | text <;> simp [text, tidy.written]
    · -- The path opens as before, so it would have meant the working folder.
      rw [absolute] at relative
      have first := head_segments relative tidy.written
      rw [joinName, segments] at opens
      have before : p.segments.head? = Option.some "." := by
        rcases shape with rfl | closed
        · cases segments : p.segments with
          | nil => exact absurd segments (segments_ne_nil relative)
          | cons segment rest => simpa [segments] using opens
        · cases front with
          | nil => exact absurd rfl (first "" (by simp [← closed]))
          | cons segment rest => simpa [← closed] using opens
      exact absurd ((isHere_iff tidy).mpr ⟨relative, tidy.opening relative before⟩) notHere

end Path

namespace Glob

/-! ### The parts of a pattern in a folder -/

section

variable {tokens : List Token} {cs : List Char} {d : Path} {name g : String} {parts : List Part}

theorem literal?_iff : literal? tokens = some cs ↔ tokens = cs.map Token.char := by
  induction tokens generalizing cs with
  | nil => cases cs <;> simp [literal?]
  | cons token tokens ih =>
    cases token with
    | char c =>
      cases cs with
      | nil => simp [literal?]
      | cons c' cs => simp [literal?, ih, and_comm]
    | _ => cases cs <;> simp [literal?]

def literalPart (name : String) : Part := .name (name.toList.map .char)

theorem tokens?_plain (plain : ∀ c ∈ cs, c ≠ '*' ∧ c ≠ '?' ∧ c ≠ '[') :
    tokens? cs = some (cs.map Token.char) := by
  induction cs with
  | nil => simp [tokens?]
  | cons c cs ih =>
    obtain ⟨⟨star, mark, bracket⟩, rest⟩ := List.forall_mem_cons.mp plain
    unfold tokens?
    split
    · next eq => cases eq
    · next eq => exact absurd (List.cons.inj eq).1 mark
    · next eq => exact absurd (List.cons.inj eq).1 star
    · next eq => exact absurd (List.cons.inj eq).1 star
    · next eq => exact absurd (List.cons.inj eq).1 bracket
    · next eq =>
      obtain ⟨rfl, rfl⟩ := List.cons.inj eq
      rw [ih rest]
      rfl

theorem part?_plain (plain : isPattern name = false) :
    part? name.toList = some (literalPart name) := by
  have chars : ∀ c ∈ name.toList, c ≠ '*' ∧ c ≠ '?' ∧ c ≠ '[' := by
    intro c mem
    simpa [and_assoc] using List.any_eq_false.mp plain c mem
  have notFolders : name.toList ≠ ['*', '*'] := by
    intro eq
    simpa using chars '*' (by simp [eq])
  rw [part?, if_neg notFolders, tokens?_plain chars]
  rfl

theorem isPattern_of_mem_segments (plain : isPattern d.text = false) (mem : name ∈ d.segments) :
    isPattern name = false := by
  have piece : name ∈ Text.split '/' d.text := by
    unfold Path.segments at mem
    split at mem
    · exact List.mem_of_mem_drop mem
    · exact mem
  refine List.any_eq_false.mpr fun c inPiece => ?_
  have notSlash : c ≠ '/' := fun eq => Text.notMem_of_mem_split piece (eq ▸ inPiece)
  exact List.any_eq_false.mp plain c ((Text.mem_split notSlash d.text).mp ⟨name, piece, inPiece⟩)

theorem mapM_of_forall {α β : Type} {f : α → Option β} {g : α → β} {xs : List α}
    (each : ∀ x ∈ xs, f x = some (g x)) : xs.mapM f = some (xs.map g) := by
  induction xs with
  | nil => rfl
  | cons x xs ih =>
    obtain ⟨first, rest⟩ := List.forall_mem_cons.mp each
    rw [List.mapM_cons, first, ih rest]
    rfl

theorem parts?_join (plain : isPattern d.text = false) {q : Path} (relative : q.isAbsolute = false) :
    ∃ front : List String, front ⊆ d.segments ∧ front.filter Path.isStep = d.steps ∧
      span front ≤ d.text.utf8ByteSize + 1 ∧
        parts? (d.join q) = (parts? q).map (front.map literalPart ++ ·) := by
  obtain ⟨_, front, segments, shape⟩ := Path.segments_join d relative
  obtain ⟨closing, whole, idle⟩ : ∃ closing, front ++ closing = d.segments ∧
      closing.filter Path.isStep = [] := by
    rcases shape with rfl | closed
    · exact ⟨[], List.append_nil _, rfl⟩
    · exact ⟨[""], closed, by decide⟩
  have inside : front ⊆ d.segments := whole ▸ List.subset_append_left front closing
  refine ⟨front, inside, ?_, ?_, ?_⟩
  · rw [d.steps_eq_filter, ← whole, List.filter_append, idle, List.append_nil]
  · have size := d.span_segments
    rw [← whole, Files.span_append] at size
    omega
  · have names : front.mapM (fun name => part? name.toList) = some (front.map literalPart) :=
      mapM_of_forall fun name mem => part?_plain (isPattern_of_mem_segments plain (inside mem))
    have some := Path.segments_ne_nil relative
    unfold parts?
    simp only [segments]
    rw [List.getLast?_append_of_ne_nil _ some, List.dropLast_append_of_ne_nil some,
      ← apply_ite (front ++ ·), List.mapM_append, names]
    cases List.mapM (fun segment : String => part? segment.toList)
      (if q.segments.getLast? = Option.some "" then q.segments.dropLast else q.segments) <;> rfl

def Part.climbs : Part → Bool
  | .folders => false
  | .name tokens => (specials tokens).contains ".."

/-- Whether the first name that is not `.` is empty. In a relative path such a name is looked up by
itself and is not found. -/
def opensEmpty : List Part → Bool
  | .name [.char '.'] :: rest => opensEmpty rest
  | .name [] :: _ => true
  | _ => false

theorem collapse_literals (front : List String) (parts : List Part) :
    collapse (front.map literalPart ++ parts) = front.map literalPart ++ collapse parts := by
  induction front with
  | nil => rfl
  | cons name front ih =>
    rw [List.map_cons, List.cons_append, literalPart, collapse, ih]
    · rfl
    · simp

theorem opensEmpty_collapse (parts : List Part) : opensEmpty (collapse parts) = opensEmpty parts := by
  fun_induction collapse parts with
  | case1 rest ih => exact ih.trans rfl
  | case2 part rest _ ih =>
    unfold opensEmpty
    split <;> simp_all
  | case3 => rfl

/-- A part that is no text by itself and does not stand for the folder above finds entries only. -/
theorem specials_of_climbs (level : Part.climbs (.name tokens) = false)
    (pattern : literal? tokens = none) : specials tokens = [] := by
  refine List.eq_nil_iff_forall_not_mem.mpr fun name mem => ?_
  have up : ".." ∉ specials tokens := by simpa [Part.climbs] using level
  unfold specials at mem up
  split at mem
  · next rest =>
    obtain ⟨known, fit⟩ := List.mem_filter.mp mem
    rw [fits_eq] at fit
    have upFits : matchTokens (.char '.' :: rest) "..".toList ≠ true := by simpa [fits_eq] using up
    rcases (by simpa using known : name = ".." ∨ name = ".") with rfl | rfl
    · exact upFits fit
    -- A star is all that can come behind the dot, and it takes another dot as well.
    have closing : matchTokens rest [] = true := by simpa [matchTokens, Token.admits] using fit
    have more : matchTokens rest ['.'] ≠ true := by simpa [matchTokens, Token.admits] using upFits
    cases rest with
    | nil => cases pattern
    | cons token rest =>
      cases token with
      | anyText => exact more (by simpa [matchTokens, someTail] using .inr closing)
      | _ => cases closing
  · cases mem

theorem ne_up_of_climbs (level : Part.climbs (.name tokens) = false)
    (literal : literal? tokens = some cs) : String.ofList cs ≠ ".." := by
  rintro up
  have chars : cs = ['.', '.'] := by
    rw [← String.toList_ofList (l := cs), up]
    rfl
  rw [literal?_iff.mp literal, chars] at level
  simp [Part.climbs, specials, fits_eq, matchTokens, Token.admits] at level

end

/-! ### The names to the folder -/

section

variable {w : Workspace} {p q : Path} {name : String} {rest : List Part}

theorem start_step (step : Path.Step p q name) : w.start q = w.start p := by
  rw [Workspace.start, Workspace.start, step.absolute]

/-- Where the search still stands in the working folder, what opens the rest is no empty name. -/
theorem opens_step (tidy : p.Tidy) (step : Path.Step p q name)
    (opens : isHere p = true → opensEmpty (literalPart name :: rest) = false)
    (here : isHere q = true) : opensEmpty rest = false := by
  obtain ⟨relative, bare⟩ := (Path.isHere_iff step.tidy).mp here
  rw [step.steps] at bare
  obtain ⟨bare, idle⟩ := List.append_eq_nil_iff.mp bare
  have opens := opens ((Path.isHere_iff tidy).mpr ⟨step.absolute ▸ relative, bare⟩)
  have either : name = "" ∨ name = "." := by
    simpa [Path.isStep, Path.isIdle, or_iff_not_imp_left] using idle
  rcases either with rfl | rfl
  · cases opens
  · exact opens

theorem expand_literals {front : List String} {l : Location}
    (noSlash : ∀ name ∈ front, '/' ∉ name.toList) (tidy : p.Tidy) (reached : w.Reached p)
    (leads : Leads w.tree (w.location p) front (.present l .folder))
    (clean : ∀ name ∈ p.steps ++ front, '\x00' ∉ name.toList)
    (fits : p.text.utf8ByteSize + span front ≤ Workspace.pathLimit)
    (opens : isHere p = true → opensEmpty (front.map literalPart ++ rest) = false) :
    ∃ q, expand w (front.map literalPart ++ rest) p = expand w rest q ∧ q.Tidy ∧
      q.isAbsolute = p.isAbsolute ∧ q.steps = p.steps ++ front.filter Path.isStep ∧
      q.text.utf8ByteSize ≤ p.text.utf8ByteSize + span front ∧
      (isHere q = true → opensEmpty rest = false) := by
  induction front generalizing p with
  | nil => exact ⟨p, rfl, tidy, rfl, by simp, Nat.le_add_right _ _, opens⟩
  | cons name front ih =>
    obtain ⟨noSlash', noSlash⟩ := List.forall_mem_cons.mp noSlash
    have some : isHere p = true → name ≠ "" := by
      rintro here rfl
      cases opens here
    have step := Path.step_inside tidy noSlash' some
    have size : span (name :: front) = name.utf8ByteSize + 1 + span front :=
      Files.span_append [name] front
    have askable : ∀ {r : Path}, r.Tidy → r.steps ⊆ p.steps ++ name :: front →
        r.text.utf8ByteSize ≤ p.text.utf8ByteSize + (name.utf8ByteSize + 1) → Askable r := by
      intro r tidy known size'
      refine ⟨?_, tidy.written, by omega⟩
      rw [← Bool.not_eq_true, Files.hasNul_iff]
      rintro ⟨name, mem, nul⟩
      exact clean name (known mem) nul
    have known : (inside p name).steps ⊆ p.steps ++ name :: front := by
      rw [step.steps]
      refine List.append_subset.mpr ⟨List.subset_append_left _ _, fun other mem => ?_⟩
      exact List.mem_append_right _
        (by simpa using .inl (List.mem_singleton.mp (List.mem_filter.mp mem).1))
    obtain ⟨first, later⟩ := leads.first
    have reached' : w.Reached (inside p name) := by
      rw [Reached, start_step step, step.steps]
      exact ⟨_, reached.leads.append first⟩
    have leads' : Leads w.tree (w.location (inside p name)) front (.present l .folder) := by
      have entered : w.location (inside p name) = Workspace.enter (w.location p) name := by
        rw [w.location_eq, step.steps, List.foldl_append, start_step step, ← w.location_eq]
        exact first.loc_eq.symm
      rwa [entered]
    have leadsOn : Glob.leads w p name = true := by
      unfold Glob.leads
      split
      · exact Workspace.isFolder_iff_reached.mpr
          ⟨askable tidy (List.subset_append_left _ _) (by omega), reached⟩
      · have folder := Workspace.isFolder_iff_reached.mpr ⟨askable step.tidy known step.size, reached'⟩
        obtain ⟨l, e, ends, _⟩ := Workspace.isFolder_iff.mp folder
        exact Workspace.holds_iff.mpr ⟨l, e, ends⟩
    have clean' : ∀ other ∈ (inside p name).steps ++ front, '\x00' ∉ other.toList :=
      fun other mem => clean other ((List.mem_append.mp mem).elim (fun own => known own)
        fun behind => List.mem_append_right _ (List.mem_cons_of_mem name behind))
    have grown := step.size
    obtain ⟨q, expands, tidy', absolute, steps, size', opens'⟩ := ih noSlash step.tidy reached' leads'
      clean' (by omega) (opens_step tidy step opens)
    refine ⟨q, ?_, tidy', absolute.trans step.absolute, ?_, by omega, opens'⟩
    · rw [List.map_cons, List.cons_append, ← expands, literalPart, expand, literal?_iff.mpr rfl]
      simp only [String.ofList_toList, leadsOn, if_true]
    · rw [steps, step.steps, List.append_assoc, ← List.filter_append]
      rfl

end

end Glob

end ClassDiagram
