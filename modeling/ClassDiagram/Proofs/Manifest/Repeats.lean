import ClassDiagram.Proofs.Diagram.Completeness
import ClassDiagram.Proofs.Manifest
import ClassDiagram.Provider

/-! How often a manifest lists a file. Paths that are the same by their components are listed once,
where the first of them is mentioned. A `.` that opens a path is one of its components, so a file
that is mentioned both with it and without it is listed twice. Whether that happens depends on how
the manifest itself is addressed: its folder stands in front of the entries as it is written, and the
search for a pattern leaves an opening `.` out. -/

namespace ClassDiagram

open Files (ProperName Workspace)

theorem eraseDups_of_nodup {α : Type} [BEq α] [LawfulBEq α] {xs : List α} (nodup : xs.Nodup) :
    xs.eraseDups = xs := by
  induction xs using List.reverseRecOn with
  | nil => rfl
  | append_singleton xs x ih =>
    obtain ⟨before, _, new⟩ := List.nodup_append.mp nodup
    have fresh : x ∉ xs := fun mem => new x mem x (by simp) rfl
    rw [eraseDups_concat, if_neg fresh, ih before]

theorem eraseDups_map_eraseDups {α β : Type} [BEq α] [LawfulBEq α] [BEq β] [LawfulBEq β] (f : α → β)
    (xs : List α) : (xs.eraseDups.map f).eraseDups = (xs.map f).eraseDups := by
  induction xs using List.reverseRecOn with
  | nil => rfl
  | append_singleton xs x ih =>
    rw [eraseDups_concat, List.map_append, List.map_singleton, eraseDups_concat]
    by_cases known : x ∈ xs
    · rw [if_pos known, if_pos (List.mem_map_of_mem known), ih]
    · have image : f x ∈ xs.eraseDups.map f ↔ f x ∈ xs.map f := by simp
      rw [if_neg known, List.map_append, List.map_singleton, eraseDups_concat, ih]
      simp only [image]

namespace Path

def opensHere (p : Path) : Bool := !p.isAbsolute && p.segments.head? == some "."

theorem components_split (p : Path) : p.components =
    (if p.isAbsolute then [.root] else if p.opensHere then [.here] else []) ++
      p.steps.map Component.ofSegment := by
  unfold components opensHere steps
  cases p.isAbsolute with
  | true => rfl
  | false =>
    rw [if_neg (by simp), if_neg (by simp)]
    split
    · next rest segments =>
      rw [segments, List.filter_cons_of_neg (by decide)]
      rfl
    · next other =>
      have plain : ¬p.segments.head? = some "." := by
        intro dot
        obtain ⟨rest, segments⟩ := List.head?_eq_some_iff.mp dot
        exact other rest segments
      simp [plain]

theorem opensHere_eq (p : Path) : p.opensHere = (p.components.head? == some .here) := by
  have plain : ∀ segments : List String,
      ((segments.map Component.ofSegment).head? == some .here) = false := by
    intro segments
    cases segments with
    | nil => rfl
    | cons segment rest =>
      simp only [List.map_cons, List.head?_cons, Component.ofSegment]
      split <;> rfl
  rw [components_split]
  cases absolute : p.isAbsolute with
  | true => simp [opensHere, absolute]
  | false =>
    cases opens : p.opensHere with
    | true => rfl
    | false => exact (plain p.steps).symm

end Path

namespace Glob

variable {w : Workspace} {p q : Path} {tokens : List Token} {parts : List Part}

/-! ### How matches are written -/

structure Further (p q : Path) : Prop where
  tidy : q.Tidy
  absolute : q.isAbsolute = p.isAbsolute
  steps : p.steps <+: q.steps

namespace Further

theorem refl (tidy : p.Tidy) : Further p p := ⟨tidy, rfl, List.prefix_rfl⟩

theorem trans {r : Path} (first : Further p q) (second : Further q r) : Further p r :=
  ⟨second.tidy, second.absolute.trans first.absolute, first.steps.trans second.steps⟩

theorem of_step {name : String} (step : Path.Step p q name) : Further p q :=
  ⟨step.tidy, step.absolute, step.steps ▸ List.prefix_append ..⟩

theorem ne_nil (further : Further p q) (some : p.steps ≠ []) : q.steps ≠ [] := by
  intro none
  exact some (List.prefix_nil.mp (none ▸ further.steps))

end Further

/-- A part that is a name by itself, or that does not match the folder above. -/
def Level (part : Part) : Prop :=
  ∀ tokens, part = .name tokens → literal? tokens = none → part.climbs = false

theorem further_of_mem_children (proper : w.tree.Proper) (tidy : p.Tidy) {child : Path × String}
    (mem : child ∈ children w p) : Further p child.1 ∧ child.1.steps ≠ [] := by
  obtain ⟨named, same⟩ := mem_children mem
  have name : ProperName child.2 := proper _ (Files.Tree.mem_names.mp named) _ (by simp)
  have some : child.2 ≠ "" := by
    rintro none
    have idle := name.notIdle
    rw [none] at idle
    cases idle
  have step := Path.step_inside tidy name.noSlash fun _ => some
  rw [same]
  refine ⟨.of_step step, ?_⟩
  rw [step.steps, List.filter_cons_of_pos (by simp [Path.isStep, name.notIdle])]
  simp

theorem further_of_mem_descendants (proper : w.tree.Proper) {depth : Nat} (tidy : p.Tidy)
    {child : Path × String} (mem : child ∈ descendants w depth p) :
    Further p child.1 ∧ child.1.steps ≠ [] := by
  induction depth generalizing p with
  | zero => cases mem
  | succ depth ih =>
    obtain ⟨first, inside, mem⟩ := List.mem_flatMap.mp mem
    obtain ⟨further, some⟩ := further_of_mem_children proper tidy inside
    rcases List.mem_cons.mp mem with rfl | below
    · exact ⟨further, some⟩
    · split at below
      · obtain ⟨later, some⟩ := ih further.tidy below
        exact ⟨further.trans later, some⟩
      · cases below

theorem further_of_mem_sought (proper : w.tree.Proper) (tidy : p.Tidy) (mem : q ∈ sought w tokens p) :
    Further p q ∧ q.steps ≠ [] := by
  obtain ⟨child, inside, rfl⟩ := List.mem_map.mp mem
  exact further_of_mem_descendants proper tidy (List.mem_filter.mp inside).1

theorem further_of_mem_named (proper : w.tree.Proper) (tidy : p.Tidy) (slashless : Slashless tokens)
    (level : p.isAbsolute = true ∨ Level (.name tokens)) (mem : q ∈ named w tokens p) :
    Further p q ∧ (literal? tokens = none → p.isAbsolute = true ∨ q.steps ≠ []) := by
  unfold named at mem
  split at mem
  · next cs literal =>
    have noSlash : '/' ∉ (String.ofList cs).toList := by
      rw [String.toList_ofList]
      exact slashless cs literal
    split at mem
    · next found =>
      rw [List.mem_singleton.mp mem]
      refine ⟨.of_step (Path.step_inside tidy noSlash fun here none => ?_), by simp [literal]⟩
      rw [leads, none, if_neg (by decide), inside, if_pos here] at found
      cases found
    · cases mem
  · next pattern =>
    split at mem
    · cases mem
    · rcases List.mem_append.mp mem with special | entry
      · rcases level with absolute | level
        · obtain ⟨name, known, rfl⟩ := List.mem_map.mp special
          have notHere : ¬isHere p = true := fun here =>
            Bool.false_ne_true ((Path.steps_of_same_here here).1.symm.trans absolute)
          have noSlash : '/' ∉ name.toList := by rcases mem_specials known with rfl | rfl <;> decide
          have step := Path.step_inside tidy noSlash fun here => absurd here notHere
          rw [inside, if_neg notHere] at step
          exact ⟨.of_step step, fun _ => .inl absolute⟩
        · rw [specials_of_climbs (level tokens rfl pattern) pattern] at special
          cases special
      · obtain ⟨child, inside, rfl⟩ := List.mem_map.mp entry
        obtain ⟨further, some⟩ := further_of_mem_children proper tidy (List.mem_filter.mp inside).1
        exact ⟨further, fun _ => .inr some⟩

/-- A relative search stands where it started only if it looked up nothing but names. -/
theorem further_of_mem_expand (proper : w.tree.Proper) :
    ∀ (parts : List Part) (p : Path), Plain parts →
      (p.isAbsolute = true ∨ ∀ part ∈ parts, Level part) → p.Tidy → q ∈ expand w parts p →
        Further p q ∧ (p.isAbsolute = false → q.steps = [] →
          ∀ part ∈ parts, ∃ name, part = literalPart name)
  | [], p, _, _, tidy, mem => by
    cases List.mem_singleton.mp mem
    exact ⟨.refl tidy, by simp⟩
  | [.folders], p, _, _, tidy, mem => by
    obtain ⟨child, below, rfl⟩ := List.mem_map.mp (List.mem_filter.mp mem).1
    obtain ⟨further, some⟩ := further_of_mem_descendants proper tidy below
    exact ⟨further, fun _ none => absurd none some⟩
  | .folders :: .folders :: _, p, _, _, _, mem => by cases mem
  | .folders :: .name tokens :: rest, p, plain, level, tidy, mem => by
    rw [expand_sought] at mem
    obtain ⟨next, found, mem⟩ := List.mem_flatMap.mp mem
    obtain ⟨further, some⟩ := further_of_mem_sought proper tidy found
    obtain ⟨later, _⟩ := further_of_mem_expand proper rest next
      (fun tokens mem => plain tokens (by simp [mem]))
      (level.imp further.absolute.trans fun level part mem => level part (by simp [mem]))
      further.tidy mem
    exact ⟨further.trans later, fun _ none => absurd none (later.ne_nil some)⟩
  | .name tokens :: rest, p, plain, level, tidy, mem => by
    rw [expand_named] at mem
    obtain ⟨next, found, mem⟩ := List.mem_flatMap.mp mem
    obtain ⟨further, some⟩ := further_of_mem_named proper tidy (plain tokens (by simp))
      (level.imp_right fun level => level _ (by simp)) found
    obtain ⟨later, names⟩ := further_of_mem_expand proper rest next
      (fun tokens mem => plain tokens (by simp [mem]))
      (level.imp further.absolute.trans fun level part mem => level part (by simp [mem]))
      further.tidy mem
    refine ⟨further.trans later, fun relative none => ?_⟩
    refine List.forall_mem_cons.mpr ⟨?_, names (further.absolute.trans relative) none⟩
    cases literal : literal? tokens with
    | none =>
      rcases some literal with absolute | some
      · rw [relative] at absolute
        cases absolute
      · exact absurd none (later.ne_nil some)
    | some cs => exact ⟨String.ofList cs, by simp [literalPart, literal?_iff.mp literal]⟩

theorem mem_collapse {part : Part} (mem : part ∈ parts) : part ∈ collapse parts := by
  fun_induction collapse parts with
  | case1 rest ih => exact ih (by simpa using mem)
  | case2 first rest _ ih =>
    rcases List.mem_cons.mp mem with rfl | mem
    · exact List.mem_cons_self
    · exact List.mem_cons_of_mem first (ih mem)
  | case3 => exact mem

theorem exists_pattern_part (pattern : isPattern p.text = true) (read : parts? p = some parts) :
    ∃ part ∈ parts, ∀ name, part ≠ literalPart name := by
  obtain ⟨c, mem, special⟩ := List.any_eq_true.mp pattern
  have notSlash : c ≠ '/' := by
    rintro rfl
    cases special
  obtain ⟨segment, piece, inside⟩ := (Text.mem_split notSlash p.text).mpr mem
  have some : segment ≠ "" := by
    rintro rfl
    cases inside
  have notDot : segment ≠ "." := by
    rintro rfl
    cases List.mem_singleton.mp inside
    cases special
  have step : segment ∈ p.steps := by
    rw [p.steps_eq]
    exact List.mem_filter.mpr ⟨piece, by simp [Path.isIdle, some, notDot]⟩
  have kept : segment ∈ if p.segments.getLast? = Option.some "" then p.segments.dropLast
      else p.segments := by
    have mem : segment ∈ p.segments := (List.mem_filter.mp step).1
    split
    · next closed =>
      obtain ⟨front, segments⟩ := List.getLast?_eq_some_iff.mp closed
      rw [segments] at mem ⊢
      simpa [some] using mem
    · exact mem
  have read := map_of_mapM read
  obtain ⟨part, mem, made⟩ := List.mem_map.mp (read ▸ List.mem_map_of_mem kept)
  have made := made.symm
  refine ⟨part, mem, ?_⟩
  rintro name rfl
  unfold part? at made
  split at made
  · cases made
  · obtain ⟨tokens, found, same⟩ := Option.map_eq_some_iff.mp made
    have plain := (literal?_tokens found (literal?_iff.mpr (Part.name.inj same))).2 c inside
    simp [plain] at special

end Glob

namespace Manifest

open Glob (Level Token isPattern)
open ClassDiagram.Path (Component)

variable {w : Workspace} {path base p q : Path} {entries : List String} {found ps : List Path}

def outlineOf (cs : List Component) : Bool × List String :=
  (cs.head? == some .root, cs.filterMap Component.step?)

theorem outline_eq (p : Path) : outline p = outlineOf p.components :=
  Prod.ext p.components_steps.1 p.components_steps.2

theorem components_eq_iff :
    p.components = q.components ↔ outline p = outline q ∧ p.opensHere = q.opensHere := by
  constructor
  · intro same
    rw [outline_eq, outline_eq, p.opensHere_eq, q.opensHere_eq, same]
    exact ⟨rfl, rfl⟩
  · rintro ⟨same, opens⟩
    obtain ⟨absolute, steps⟩ := Prod.mk.inj same
    rw [p.components_split, q.components_split, absolute, steps, opens]

/-- No file is mentioned both with a `.` that opens the path and without it. -/
def Uniform (ps : List Path) : Prop :=
  ∀ p ∈ ps, ∀ q ∈ ps, outline p = outline q → p.opensHere = q.opensHere

/-! ### The order of first mention -/

theorem addNew_concat (known ps : List Path) (p : Path) : addNew known (ps ++ [p]) =
    if (addNew known ps).any (·.same p) then addNew known ps else addNew known ps ++ [p] := by
  rw [addNew, List.foldl_append]
  rfl

theorem addNew_append (known ps qs : List Path) :
    addNew known (ps ++ qs) = addNew (addNew known ps) qs := List.foldl_append ..

theorem addNew_sublist (ps : List Path) : (addNew [] ps).Sublist ps := by
  induction ps using List.reverseRecOn with
  | nil => exact .slnil
  | append_singleton ps p ih =>
    rw [addNew_concat]
    split
    · exact ih.trans (List.sublist_append_left ps [p])
    · exact ih.append (.refl [p])

theorem components_addNew (ps : List Path) :
    (addNew [] ps).map Path.components = (ps.map Path.components).eraseDups := by
  induction ps using List.reverseRecOn with
  | nil => rfl
  | append_singleton ps p ih =>
    have known : (addNew [] ps).any (·.same p) = true ↔ p.components ∈ ps.map Path.components := by
      rw [← List.mem_eraseDups, ← ih, List.any_eq_true, List.mem_map]
      simp only [Path.same, beq_iff_eq]
    rw [addNew_concat, List.map_append, List.map_singleton, eraseDups_concat]
    simp only [known]
    split
    · exact ih
    · rw [List.map_append, ih, List.map_singleton]

theorem outlines_addNew (ps : List Path) :
    ((addNew [] ps).map outline).eraseDups = (ps.map outline).eraseDups := by
  have spelt : ∀ qs : List Path, qs.map outline = (qs.map Path.components).map outlineOf := by
    intro qs
    rw [List.map_map]
    exact List.map_congr_left fun q _ => outline_eq q
  rw [spelt, spelt, components_addNew, eraseDups_map_eraseDups]

theorem nodup_outlines_addNew (ps : List Path) :
    ((addNew [] ps).map outline).Nodup ↔ Uniform ps := by
  have spelt : (addNew [] ps).map outline = (ps.map Path.components).eraseDups.map outlineOf := by
    rw [← components_addNew, List.map_map]
    exact List.map_congr_left fun q _ => outline_eq q
  rw [spelt, List.nodup_map_iff_inj_on (nodup_eraseDups _)]
  constructor
  · intro distinct p mem q mem' same
    have tells := distinct p.components (by simpa using ⟨p, mem, rfl⟩) q.components
      (by simpa using ⟨q, mem', rfl⟩) (by rw [← outline_eq, ← outline_eq, same])
    exact (components_eq_iff.mp tells).2
  · intro uniform cs mem cs' mem' same
    obtain ⟨p, inside, rfl⟩ := List.mem_map.mp (List.mem_eraseDups.mp mem)
    obtain ⟨q, inside', rfl⟩ := List.mem_map.mp (List.mem_eraseDups.mp mem')
    have same : outline p = outline q := by rw [outline_eq, outline_eq, same]
    exact components_eq_iff.mpr ⟨same, uniform p inside q inside' same⟩

abbrev Mentions (w : Workspace) (base : Path) (entries : List String) (each : List (List Path)) : Prop :=
  List.Forall₂ (fun entry ps => resolve w base entry = .ok ps) entries each

theorem resolveAll_iff (known : List Path) : resolveAll w base known entries = .ok found ↔
    ∃ each, Mentions w base entries each ∧ found = addNew known each.flatten := by
  induction entries generalizing known with
  | nil =>
    rw [resolveAll, Except.ok.injEq]
    constructor
    · rintro rfl
      exact ⟨[], .nil, rfl⟩
    · rintro ⟨each, mentions, rfl⟩
      cases mentions
      rfl
  | cons entry entries ih =>
    rw [resolveAll]
    cases resolved : resolve w base entry with
    | error failure =>
      refine iff_of_false (by simp) ?_
      rintro ⟨each, mentions, _⟩
      cases mentions with
      | cons first _ => cases resolved.symm.trans first
    | ok ps =>
      simp only [ih]
      constructor
      · rintro ⟨each, mentions, rfl⟩
        exact ⟨ps :: each, .cons resolved mentions, (addNew_append known ps _).symm⟩
      · rintro ⟨each, mentions, rfl⟩
        cases mentions with
        | cons first rest =>
          cases resolved.symm.trans first
          exact ⟨_, rest, addNew_append known ps _⟩

/-- Whether an entry can stand for a path that opens with a `.`: it is such a path itself, or a
relative pattern one part of which matches the folder above. -/
def MayOpen (base : Path) (entry : String) : Prop :=
  if isPattern entry then
    (base.joinName entry).isAbsolute = false ∧
      ∃ parts ∈ Glob.parts? (base.joinName entry), ∃ part ∈ parts, ¬Level part
  else (base.joinName entry).opensHere = true

theorem isPattern_joinName {entry : String} (pattern : isPattern entry = true) (base : Path) :
    isPattern (base.joinName entry).text = true := by
  obtain ⟨c, mem, special⟩ := List.any_eq_true.mp pattern
  refine List.any_eq_true.mpr ⟨c, ?_, special⟩
  unfold Path.joinName Path.join
  split
  · exact mem
  · split <;> simp [mem]

theorem mem_expand_of_matches {pattern : Path} {parts : List Glob.Part}
    (read : Glob.parts? pattern = some parts) (matched : Glob.matches? w pattern = some ps)
    (mem : p ∈ ps) :
    p ∈ Glob.expand w (Glob.collapse parts) (if pattern.isAbsolute then ⟨"/"⟩ else ⟨"."⟩) := by
  simp only [Glob.matches?, read, Option.map_some, Option.some.injEq] at matched
  rw [← matched, List.mem_mergeSort] at mem
  split at mem
  · exact (List.mem_filter.mp mem).1
  · exact mem

theorem mayOpen_of_mem (proper : w.tree.Proper) {entry : String}
    (resolved : resolve w base entry = .ok ps) (mem : p ∈ ps) (opens : p.opensHere = true) :
    MayOpen base entry := by
  unfold resolve at resolved
  unfold MayOpen
  split at resolved
  · next pattern =>
    rw [if_pos pattern]
    split at resolved
    · next matched =>
      cases resolved
      obtain ⟨relative, dot⟩ : p.isAbsolute = false ∧ p.segments.head? = some "." := by
        simpa [Path.opensHere] using opens
      obtain ⟨parts, read, _⟩ := Option.map_eq_some_iff.mp matched
      have sought := mem_expand_of_matches read matched mem
      obtain ⟨part, inside, notName⟩ := Glob.exists_pattern_part (isPattern_joinName pattern base) read
      by_contra level
      have level : (base.joinName entry).isAbsolute = true ∨ ∀ part ∈ Glob.collapse parts, Level part := by
        by_contra neither
        obtain ⟨relative, part, mem, climbs⟩ : (base.joinName entry).isAbsolute = false ∧
            ∃ part ∈ Glob.collapse parts, ¬Level part := by simpa using neither
        exact level ⟨relative, parts, read, part, Glob.mem_of_mem_collapse mem, climbs⟩
      have plain := Glob.plain_collapse (Glob.plain_parts read)
      split at sought
      · have root : (Path.mk "/").isAbsolute = true := by decide +kernel
        obtain ⟨further, _⟩ := Glob.further_of_mem_expand proper _ _ plain (.inl root)
          Path.tidy_root sought
        exact Bool.false_ne_true (relative.symm.trans (further.absolute.trans root))
      · next notAbsolute =>
        have here : (Path.mk ".").isAbsolute = false := by decide +kernel
        obtain ⟨further, names⟩ := Glob.further_of_mem_expand proper _ _ plain
          (.inr (level.resolve_left notAbsolute)) Path.tidy_here sought
        obtain ⟨name, same⟩ := names here (further.tidy.opening relative dot) part
          (Glob.mem_collapse inside)
        exact notName name same
    · cases resolved
  · next plain =>
    cases resolved
    rw [if_neg plain, ← List.mem_singleton.mp mem]
    exact opens

theorem units_iff : units w path = .ok found ↔ ∃ text entries each,
    w.readText path = .ok text ∧ entries? text = some entries ∧
      Mentions w path.folder entries each ∧ found = addNew [] each.flatten := by
  unfold units
  cases read : w.readText path with
  | error cause => simp
  | ok text =>
    simp only
    cases listed : entries? text with
    | none => simp [listed]
    | some entries => simp [listed, resolveAll_iff]

/-! ### The manifest addressed with a `.` -/

section Name

variable {name : String}

theorem segments_name (proper : ProperName name) :
    ((Path.mk name).isAbsolute = false ∧ (Path.mk name).segments = [name]) ∧
      (Path.mk ("./" ++ name)).isAbsolute = false ∧ (Path.mk ("./" ++ name)).segments = [".", name] := by
  have bare : (Path.mk name).isAbsolute = false := Path.isAbsolute_of_notMem proper.noSlash
  have dotted : (Path.mk ("./" ++ name)).isAbsolute = false :=
    (Path.isAbsolute_slash (by decide) name).trans (by decide +kernel)
  refine ⟨⟨bare, ?_⟩, dotted, ?_⟩
  · rw [Path.segments, bare]
    exact Text.split_of_notMem proper.noSlash
  · rw [Path.segments, dotted]
    refine (Text.split_append '/' "." name).trans ?_
    rw [Text.split_of_notMem proper.noSlash]
    rfl

theorem folder_name (proper : ProperName name) :
    (Path.mk name).folder = ⟨""⟩ ∧ (Path.mk ("./" ++ name)).folder = ⟨"."⟩ := by
  obtain ⟨⟨bare, single⟩, dotted, pair⟩ := segments_name proper
  have notDot : name ≠ "." := by
    rintro rfl
    cases proper.notIdle
  constructor
  · rw [Path.folder, Path.parent?_eq, Path.trailing_eq, bare, single]
    simp [Path.trim, notDot, proper.notIdle, Path.ofTrailing]
  · rw [Path.folder, Path.parent?_eq, Path.trailing_eq, dotted, pair]
    simp [Path.trim, proper.notIdle, Path.ofTrailing]

theorem resolve_name (w : Workspace) (proper : ProperName name) :
    (w.resolve ⟨"./" ++ name⟩).toOption = (w.resolve ⟨name⟩).toOption := by
  obtain ⟨⟨bare, single⟩, dotted, pair⟩ := segments_name proper
  have some : name ≠ "" := by
    rintro rfl
    cases proper.notIdle
  have nul : Workspace.hasNul ⟨"./" ++ name⟩ = Workspace.hasNul ⟨name⟩ := by simp [Workspace.hasNul]
  have start : w.start ⟨"./" ++ name⟩ = w.start ⟨name⟩ := by
    rw [Workspace.start, Workspace.start, bare, dotted]
  have walk : ∀ loc : Files.Location, Workspace.follow w.tree loc .folder [".", name] =
      Workspace.follow w.tree loc .folder [name] := by
    intro loc
    rw [Workspace.follow, if_pos (by decide)]
  have bytes : ("./" ++ name).utf8ByteSize = name.utf8ByteSize + 2 := by
    rw [String.utf8ByteSize_append, Nat.add_comm]
    rfl
  rw [Workspace.resolve_eq, Workspace.resolve_eq, nul, start, single, pair, walk]
  by_cases long : Workspace.nameLimit < name.utf8ByteSize
  · -- No file has a name as long as this, so the room for the path does not matter.
    have stops : ∀ loc, Workspace.follow w.tree loc .folder [name] = .error .nameTooLong := by
      intro loc
      simp [Workspace.follow, proper.notIdle, proper.notUp, long]
    simp only [stops]
    split_ifs <;> rfl
  · have room : ¬Workspace.pathLimit < ("./" ++ name).utf8ByteSize ∧
        ¬Workspace.pathLimit < name.utf8ByteSize := by
      simp only [Workspace.nameLimit, Workspace.pathLimit] at *
      omega
    rw [if_neg room.1, if_neg room.2]
    simp [some]

theorem readText_name (w : Workspace) (proper : ProperName name) :
    (w.readText ⟨"./" ++ name⟩).toOption = (w.readText ⟨name⟩).toOption := by
  have same := resolve_name w proper
  unfold Workspace.readText Workspace.read Workspace.entry
  cases dotted : w.resolve ⟨"./" ++ name⟩ with
  | error cause =>
    cases bare : w.resolve ⟨name⟩ with
    | error cause' => rfl
    | ok spot' => simp [dotted, bare, Except.toOption] at same
  | ok spot =>
    cases bare : w.resolve ⟨name⟩ with
    | error cause' => simp [dotted, bare, Except.toOption] at same
    | ok spot' =>
      rw [dotted, bare] at same
      cases same
      rfl

theorem expand_here (w : Workspace) {front : List String} (idle : ∀ name ∈ front, name = ".")
    (parts : List Glob.Part) :
    Glob.expand w (front.map Glob.literalPart ++ parts) ⟨"."⟩ = Glob.expand w parts ⟨"."⟩ := by
  have here : Glob.isHere ⟨"."⟩ = true := by decide +kernel
  have folder : w.isFolder ⟨"."⟩ = true := by
    refine Workspace.isFolder_iff.mpr ⟨w.start ⟨"."⟩, .folder, Workspace.resolve_ok_iff.mpr ⟨?_, ?_⟩, rfl⟩
    · constructor <;> decide +kernel
    · rw [show (Path.mk ".").segments = ["."] by decide +kernel]
      exact .idle (by decide) (.stop _)
  induction front with
  | nil => rfl
  | cons name front ih =>
    obtain ⟨rfl, rest⟩ := List.forall_mem_cons.mp idle
    rw [List.map_cons, List.cons_append, Glob.literalPart, Glob.expand, Glob.literal?_iff.mpr rfl]
    simp only [String.ofList_toList, Glob.leads, Glob.inside, if_pos here, folder]
    exact ih rest

end Name

theorem outline_here (relative : q.isAbsolute = false) : outline ((Path.mk ".").join q) = outline q := by
  have here : (Path.mk ".").isAbsolute = false ∧ (Path.mk ".").steps = [] := by decide +kernel
  rw [outline, outline, (Path.segments_join _ relative).1, Path.steps_join _ relative, here.1, here.2,
    relative, List.nil_append]

theorem matches_here (w : Workspace) (some : q.text ≠ "") (relative : q.isAbsolute = false) :
    Glob.matches? w ((Path.mk ".").join q) = Glob.matches? w q := by
  obtain ⟨front, inside, _, _, read⟩ := Glob.parts?_join (d := ⟨"."⟩) (by decide) relative
  have idle : ∀ name ∈ front, name = "." := by
    intro name mem
    rw [show (Path.mk ".").segments = ["."] by decide +kernel] at inside
    exact List.mem_singleton.mp (inside mem)
  have absolute : ((Path.mk ".").join q).isAbsolute = false :=
    (Path.segments_join _ relative).1.trans (by decide +kernel)
  rw [Glob.matches?, Glob.matches?, read, absolute, relative, Glob.endsWith_join _ some, Option.map_map]
  refine congrArg (Option.map · _) (funext fun parts => ?_)
  simp [Glob.collapse_literals, expand_here w idle]

theorem resolve_here (w : Workspace) (entry : String) :
    (resolve w ⟨"."⟩ entry).map (List.map outline) = (resolve w ⟨""⟩ entry).map (List.map outline) := by
  have bare : (Path.mk "").joinName entry = ⟨entry⟩ := by simp [Path.joinName, Path.join]
  cases absolute : (Path.mk entry).isAbsolute with
  | true =>
    have same : (Path.mk ".").joinName entry = ⟨entry⟩ := by simp [Path.joinName, Path.join, absolute]
    rw [resolve, resolve, bare, same]
  | false =>
    rw [resolve, resolve, bare, Path.joinName]
    by_cases pattern : isPattern entry = true
    · have some : entry ≠ "" := by
        rintro rfl
        cases pattern
      rw [if_pos pattern, if_pos pattern, matches_here w some absolute]
    · rw [if_neg pattern, if_neg pattern]
      exact congrArg (fun o => Except.ok [o]) (outline_here absolute)

theorem Mentions.transport {base' : Path} {each : List (List Path)}
    (same : ∀ entry, (resolve w base entry).map (List.map outline) =
      (resolve w base' entry).map (List.map outline))
    (mentions : Mentions w base entries each) : ∃ each', Mentions w base' entries each' ∧
      each'.flatten.map outline = each.flatten.map outline := by
  induction mentions with
  | nil => exact ⟨[], .nil, rfl⟩
  | @cons entry ps entries each first _ ih =>
    obtain ⟨each', later, outlines⟩ := ih
    have same := same entry
    rw [first] at same
    cases resolved : resolve w base' entry with
    | error failure =>
      rw [resolved] at same
      cases same
    | ok ps' =>
      rw [resolved] at same
      have same : ps.map outline = ps'.map outline := Except.ok.inj same
      refine ⟨ps' :: each', .cons resolved later, ?_⟩
      rw [List.flatten_cons, List.flatten_cons, List.map_append, List.map_append, same, outlines]

def files (ps : List Path) : List (Bool × List String) := (ps.map outline).eraseDups

theorem units_transport {path' : Path}
    (text : (w.readText path).toOption = (w.readText path').toOption)
    (same : ∀ entry, (resolve w path.folder entry).map (List.map outline) =
      (resolve w path'.folder entry).map (List.map outline))
    (listed : units w path = .ok found) :
    ∃ found', units w path' = .ok found' ∧ files found' = files found := by
  obtain ⟨text', entries, each, read, known, mentions, rfl⟩ := units_iff.mp listed
  have read' : w.readText path' = .ok text' := by
    rw [read] at text
    cases there : w.readText path' with
    | error cause =>
      rw [there] at text
      cases text
    | ok other =>
      rw [there] at text
      cases text
      rfl
  obtain ⟨each', mentions', outlines⟩ := mentions.transport same
  refine ⟨_, units_iff.mpr ⟨text', entries, each', read', known, mentions', rfl⟩, ?_⟩
  rw [files, files, outlines_addNew, outlines_addNew, outlines]

theorem files_units_here (w : Workspace) {name : String} (proper : ProperName name) :
    (units w ⟨"./" ++ name⟩).toOption.map files = (units w ⟨name⟩).toOption.map files := by
  obtain ⟨bare, dotted⟩ := folder_name proper
  have same : ∀ entry, (resolve w (Path.mk ("./" ++ name)).folder entry).map (List.map outline) =
      (resolve w (Path.mk name).folder entry).map (List.map outline) := by
    intro entry
    rw [bare, dotted]
    exact resolve_here w entry
  have text := readText_name w proper
  cases there : units w ⟨"./" ++ name⟩ with
  | ok found =>
    obtain ⟨found', here, files⟩ := units_transport text same there
    rw [here]
    exact congrArg some files.symm
  | error failure =>
    cases here : units w ⟨name⟩ with
    | error _ => rfl
    | ok found =>
      obtain ⟨_, found', _⟩ := units_transport text.symm (fun entry => (same entry).symm) here
      cases there.symm.trans found'

theorem uniform_of_not_mayOpen (proper : w.tree.Proper) {each : List (List Path)}
    (mentions : Mentions w base entries each) (never : ∀ entry ∈ entries, ¬MayOpen base entry) :
    Uniform each.flatten := by
  have shut : ∀ p ∈ each.flatten, p.opensHere = false := by
    induction mentions with
    | nil => simp
    | @cons entry ps entries each first _ ih =>
      obtain ⟨own, rest⟩ := List.forall_mem_cons.mp never
      intro p mem
      rcases List.mem_append.mp mem with mem | mem
      · by_contra opens
        exact own (mayOpen_of_mem proper first mem (by simpa using opens))
      · exact ih rest p mem
  intro p mem q mem' _
  rw [shut p mem, shut q mem']

theorem uniform_of_mayOpen {each : List (List Path)} (mentions : Mentions w base entries each)
    (always : ∀ entry ∈ entries, isPattern entry = false ∧ MayOpen base entry) :
    Uniform each.flatten := by
  have wide : ∀ p ∈ each.flatten, p.opensHere = true := by
    induction mentions with
    | nil => simp
    | @cons entry ps entries each first _ ih =>
      obtain ⟨⟨plain, opens⟩, rest⟩ := List.forall_mem_cons.mp always
      have notPattern : ¬isPattern entry = true := by simp [plain]
      rw [resolve, if_neg notPattern] at first
      rw [MayOpen, if_neg notPattern] at opens
      cases first
      intro p mem
      rcases List.mem_append.mp mem with mem | mem
      · rw [List.mem_singleton.mp mem]
        exact opens
      · exact ih rest p mem
  intro p mem q mem' _
  rw [wide p mem, wide q mem']

theorem length_projects {floor : AccessFloor} {s : Solution}
    (built : Solution.ofUnits floor (found.map (Dump.loadUnit w)) = .ok s) :
    s.projects.length = found.length := by
  rw [← (Solution.projects_of_units built).length_eq, List.length_map]

/-- The units of a manifest stand in the order in which they are first mentioned, and no two have the
same components. No file is listed twice just where no file is mentioned both with a `.` that opens
the path and without: so it is where no entry can open with one, and where all entries are paths that
do. A manifest lists the same files when it is addressed with a `.`, and as many projects if it lists
none twice. -/
theorem units_once (proper : w.tree.Proper) :
    (∀ path found, units w path = .ok found → ∃ text entries each,
      w.readText path = .ok text ∧ entries? text = some entries ∧
        Mentions w path.folder entries each ∧ found.Sublist each.flatten ∧
        found.map Path.components = (each.flatten.map Path.components).eraseDups ∧
        ((found.map outline).Nodup ↔ Uniform each.flatten) ∧
        (Uniform each.flatten → found.map outline = files each.flatten) ∧
        ((∀ entry ∈ entries, ¬MayOpen path.folder entry) → Uniform each.flatten) ∧
        ((∀ entry ∈ entries, isPattern entry = false ∧ MayOpen path.folder entry) →
          Uniform each.flatten)) ∧
      ∀ name, ProperName name →
        (units w ⟨"./" ++ name⟩).toOption.map files = (units w ⟨name⟩).toOption.map files ∧
        ∀ found found', units w ⟨name⟩ = .ok found → units w ⟨"./" ++ name⟩ = .ok found' →
          (found.map outline).Nodup → (found'.map outline).Nodup →
            found'.map outline = found.map outline ∧
              ∀ floor s s', Solution.ofUnits floor (found.map (Dump.loadUnit w)) = .ok s →
                Solution.ofUnits floor (found'.map (Dump.loadUnit w)) = .ok s' →
                  s'.projects.length = s.projects.length := by
  constructor
  · intro path found listed
    obtain ⟨text, entries, each, read, known, mentions, rfl⟩ := units_iff.mp listed
    refine ⟨text, entries, each, read, known, mentions, addNew_sublist _, components_addNew _,
      nodup_outlines_addNew _, fun uniform => ?_, uniform_of_not_mayOpen proper mentions,
      uniform_of_mayOpen mentions⟩
    rw [files, ← outlines_addNew, eraseDups_of_nodup ((nodup_outlines_addNew _).mpr uniform)]
  · intro name whole
    refine ⟨files_units_here w whole, fun found found' here there once once' => ?_⟩
    have same := files_units_here w whole
    rw [here, there] at same
    have same : files found' = files found := Option.some.inj same
    rw [files, files, eraseDups_of_nodup once, eraseDups_of_nodup once'] at same
    refine ⟨same, fun floor s s' built built' => ?_⟩
    rw [length_projects built, length_projects built']
    simpa using congrArg List.length same

def listing (text : String) : Workspace :=
  ⟨⟨[(["S.solution.toml"], .file (Workspace.utf8 text)), (["A.symbols.json"], .file []),
    (["B.symbols.json"], .file [])]⟩, []⟩

def repeated : Workspace :=
  listing "units = [\"A.symbols.json\", \"B.symbols.json\", \"A.symbols.json\"]"

theorem units_once_repeated :
    repeated.tree.Proper ∧ ProperName "S.solution.toml" ∧ ∃ found found',
      units repeated ⟨"S.solution.toml"⟩ = .ok found ∧
      units repeated ⟨"./S.solution.toml"⟩ = .ok found' ∧
      found.length = 2 ∧ found'.map outline = found.map outline := by
  have proper : repeated.tree.Proper := by decide +kernel
  have name : ProperName "S.solution.toml" := by decide
  have here : (units repeated ⟨"S.solution.toml"⟩).toOption =
      some [⟨"A.symbols.json"⟩, ⟨"B.symbols.json"⟩] := by decide +kernel
  have there : (units repeated ⟨"./S.solution.toml"⟩).toOption =
      some [⟨"./A.symbols.json"⟩, ⟨"./B.symbols.json"⟩] := by decide +kernel
  obtain ⟨_, addressed⟩ := units_once proper
  cases listed : units repeated ⟨"S.solution.toml"⟩ with
  | error failure => simp [listed, Except.toOption] at here
  | ok found =>
    cases listed' : units repeated ⟨"./S.solution.toml"⟩ with
    | error failure => simp [listed', Except.toOption] at there
    | ok found' =>
      obtain ⟨same, _⟩ := (addressed _ name).2 found found' listed listed'
        (by rw [listed] at here; cases here; decide +kernel)
        (by rw [listed'] at there; cases there; decide +kernel)
      refine ⟨proper, name, found, found', rfl, rfl, ?_, same⟩
      rw [listed] at here
      cases here
      rfl

/-- The same file with a `.` in front of it and without is listed twice, unless the manifest is
addressed with a `.`. -/
theorem units_respelt :
    (units (listing "units = [\"./A.symbols.json\", \"A.symbols.json\"]")
        ⟨"S.solution.toml"⟩).toOption = some [⟨"./A.symbols.json"⟩, ⟨"A.symbols.json"⟩] ∧
      outline ⟨"./A.symbols.json"⟩ = outline ⟨"A.symbols.json"⟩ ∧
      (units (listing "units = [\"./A.symbols.json\", \"A.symbols.json\"]")
        ⟨"./S.solution.toml"⟩).toOption = some [⟨"././A.symbols.json"⟩] := by
  refine ⟨?_, ?_, ?_⟩ <;> decide +kernel

end Manifest

end ClassDiagram
