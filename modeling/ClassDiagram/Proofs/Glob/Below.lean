import ClassDiagram.Proofs.Glob.Parts

/-! What a pattern in a folder matches. The parts behind the folder find there what they find in the
tree that has the folder for its root: the two searches go the same ways and come to the same names
in the same order. -/

namespace ClassDiagram

open Files (Location ProperName Tree Workspace span)
open Files.Workspace (Askable Leads Reached)

namespace Glob

/-- A path beyond a folder and the path of the same place in the tree below it. Both leave room for
so many bytes more, wherever in that tree they go. -/
structure Mirror (w : Workspace) (d : Path) (spare : Nat) (p x : Path) : Prop where
  absolute : p.isAbsolute = d.isAbsolute
  root : x.isAbsolute = true
  steps : p.steps = d.steps ++ x.steps
  inner : ".." ∉ x.steps
  tidy : p.Tidy
  tidy' : x.Tidy
  fits : p.text.utf8ByteSize + spare + (w.below d).tree.reach ≤ Workspace.pathLimit + span x.steps
  fits' : x.text.utf8ByteSize + spare + (w.below d).tree.reach ≤ Workspace.pathLimit + span x.steps

structure Based (w : Workspace) (d : Path) : Prop where
  proper : w.tree.Proper
  reached : w.Reached d
  clean : Workspace.hasNul d = false

namespace Mirror

variable {w : Workspace} {d p x q y : Path} {name : String} {spare less : Nat}

theorem mono (mirror : Mirror w d spare p x) (le : less ≤ spare) : Mirror w d less p x where
  __ := mirror
  fits := by have := mirror.fits; omega
  fits' := by have := mirror.fits'; omega

theorem notHere (mirror : Mirror w d spare p x) : isHere x = false := by
  rw [← Bool.not_eq_true, Path.isHere_iff mirror.tidy', mirror.root]
  simp

theorem named (mirror : Mirror w d spare p x) (proper : ProperName name) :
    Mirror w d spare (inside p name) (inside x name) := by
  have some : name ≠ "" := by
    rintro rfl
    exact absurd proper.notIdle (by decide)
  have step := Path.step_inside mirror.tidy proper.noSlash fun _ => some
  have step' := Path.step_inside mirror.tidy' proper.noSlash fun _ => some
  have single : [name].filter Path.isStep = [name] := by simp [Path.isStep, proper.notIdle]
  have size : span (inside x name).steps = span x.steps + (name.utf8ByteSize + 1) := by
    rw [step'.steps, single, Files.span_append, Files.span_single]
  refine ⟨step.absolute.trans mirror.absolute, step'.absolute.trans mirror.root, ?_, ?_, step.tidy,
    step'.tidy, ?_, ?_⟩
  · rw [step.steps, step'.steps, mirror.steps, List.append_assoc]
  · rw [step'.steps, single]
    simp [mirror.inner, Ne.symm proper.notUp]
  · have := mirror.fits
    have := step.size
    omega
  · have := mirror.fits'
    have := step'.size
    omega

theorem idle (mirror : Mirror w d (spare + 2) p x) (idle : Path.isIdle name = true)
    (some : isHere p = true → name ≠ "") : Mirror w d spare (inside p name) (inside x name) := by
  have either : name = "" ∨ name = "." := by simpa [Path.isIdle] using idle
  have noSlash : '/' ∉ name.toList := by rcases either with rfl | rfl <;> decide
  have short : name.utf8ByteSize ≤ 1 := by rcases either with rfl | rfl <;> decide
  have step := Path.step_inside mirror.tidy noSlash some
  have step' := Path.step_inside mirror.tidy' noSlash fun here => by simp [mirror.notHere] at here
  have none : [name].filter Path.isStep = [] := by simp [Path.isStep, idle]
  refine ⟨step.absolute.trans mirror.absolute, step'.absolute.trans mirror.root, ?_, ?_, step.tidy,
    step'.tidy, ?_, ?_⟩
  · rw [step.steps, step'.steps, none, mirror.steps, List.append_nil, List.append_nil]
  · rw [step'.steps, none, List.append_nil]
    exact mirror.inner
  · rw [step'.steps, none, List.append_nil]
    have := mirror.fits
    have := step.size
    omega
  · rw [step'.steps, none, List.append_nil]
    have := mirror.fits'
    have := step'.size
    omega

theorem location (mirror : Mirror w d spare p x) :
    w.location p = w.location d ++ (w.below d).location x := by
  rw [Workspace.location_below mirror.inner,
    Workspace.location_inner mirror.absolute mirror.steps mirror.inner]

theorem reached_iff (base : Based w d) (mirror : Mirror w d spare p x) :
    w.Reached p ↔ (w.below d).Reached x :=
  Workspace.reached_below_iff base.reached mirror.absolute mirror.steps mirror.inner

theorem askable_iff (base : Based w d) (mirror : Mirror w d spare p x)
    (known : span x.steps ≤ (w.below d).tree.reach) : Askable p ↔ Askable x := by
  have nul : Workspace.hasNul p = Workspace.hasNul x := by
    have clean := base.clean
    rw [← Bool.not_eq_true, Files.hasNul_iff] at clean
    rw [Bool.eq_iff_iff, Files.hasNul_iff, Files.hasNul_iff, mirror.steps]
    constructor
    · rintro ⟨name, mem, nul⟩
      exact ⟨name, (List.mem_append.mp mem).resolve_left fun own => clean ⟨name, own, nul⟩, nul⟩
    · rintro ⟨name, mem, nul⟩
      exact ⟨name, List.mem_append_right _ mem, nul⟩
  have fits := mirror.fits
  have fits' := mirror.fits'
  exact ⟨fun askable => ⟨nul ▸ askable.noNul, mirror.tidy'.written, by omega⟩,
    fun askable => ⟨nul ▸ askable.noNul, mirror.tidy.written, by omega⟩⟩

theorem isFolder (base : Based w d) (mirror : Mirror w d spare p x) :
    w.isFolder p = (w.below d).isFolder x := by
  rw [Bool.eq_iff_iff, Workspace.isFolder_iff_reached, Workspace.isFolder_iff_reached,
    mirror.reached_iff base]
  exact and_congr_left fun reached =>
    mirror.askable_iff base (Workspace.span_le_of_reached reached mirror.inner)

theorem leads (base : Based w d) (mirror : Mirror w d (spare + 2) p x) (noSlash : '/' ∉ name.toList)
    (level : name ≠ "..") (some : isHere p = true → name ≠ "") :
    Glob.leads w p name = Glob.leads (w.below d) x name := by
  unfold Glob.leads
  split
  · exact mirror.isFolder base
  next plain =>
  cases idle : Path.isIdle name with
  | true =>
    have empty : name = "" := by
      have either : name = "" ∨ name = "." := by simpa [Path.isIdle] using idle
      exact either.resolve_right fun dot => plain (by rw [dot]; rfl)
    have step := Path.step_inside mirror.tidy noSlash some
    have step' := Path.step_inside mirror.tidy' noSlash fun here => by simp [mirror.notHere] at here
    rw [Workspace.holds_of_slashed (empty ▸ step.ends), Workspace.holds_of_slashed (empty ▸ step'.ends)]
    exact (mirror.idle idle some).isFolder base
  | false =>
    have proper : ProperName name := ⟨idle, level, noSlash⟩
    have single : [name].filter Path.isStep = [name] := by simp [Path.isStep, idle]
    have some : name ≠ "" := by
      rintro rfl
      exact absurd idle (by decide)
    have step := Path.step_inside mirror.tidy noSlash fun _ => some
    have step' := Path.step_inside mirror.tidy' noSlash fun _ => some
    have there : w.tree.find? (w.location p ++ [name]) =
        (w.below d).tree.find? ((w.below d).location x ++ [name]) := by
      rw [mirror.location, List.append_assoc]
      exact (Files.Tree.find?_below (by simp)).symm
    rw [Bool.eq_iff_iff, Workspace.holds_step_iff step.absolute (single ▸ step.steps) step.ends proper,
      Workspace.holds_step_iff step'.absolute (single ▸ step'.steps) step'.ends proper,
      mirror.reached_iff base, there]
    refine and_congr_left fun known => (mirror.named proper).askable_iff base ?_
    obtain ⟨_, _, e, found⟩ := known
    rw [step'.steps, single, ← Workspace.location_below (w := w) (d := d) mirror.inner]
    exact Files.Tree.span_le_reach ((Files.Tree.find?_isSome_iff (by simp)).mp (by rw [found]; rfl))

theorem here_iff (mirror : Mirror w d spare p x) :
    isHere p = true ↔ d.isAbsolute = false ∧ d.steps = [] ∧ x.steps = [] := by
  rw [Path.isHere_iff mirror.tidy, mirror.absolute, mirror.steps, List.append_eq_nil_iff]

end Mirror

def Twins (w : Workspace) (d : Path) (spare : Nat) (found found' : Path × String) : Prop :=
  Mirror w d spare found.1 found'.1 ∧ found.2 = found'.2 ∧ isHere found.1 = false

section

variable {w : Workspace} {d p x : Path} {spare : Nat}

theorem twins_children (base : Based w d) (mirror : Mirror w d spare p x) :
    List.Forall₂ (Twins w d spare) (children w p) (children (w.below d) x) := by
  rw [children_eq, children_eq, ← mirror.isFolder base, mirror.location,
    ← Files.Tree.names_below w.tree (w.location d)]
  split
  · rw [List.forall₂_map_left_iff, List.forall₂_map_right_iff]
    refine List.forall₂_same.mpr fun name mem => ?_
    have entry := Files.Tree.mem_names.mp (List.mem_mergeSort.mp mem)
    have proper := Files.Tree.proper_below base.proper _ _ entry name (by simp)
    have named := mirror.named proper
    refine ⟨named, rfl, ?_⟩
    have step := Path.step_inside mirror.tidy' proper.noSlash fun here => by
      simp [mirror.notHere] at here
    have some : (inside x name).steps ≠ [] := by
      rw [step.steps]
      simp [Path.isStep, proper.notIdle]
    rw [← Bool.not_eq_true, named.here_iff]
    exact fun here => some here.2.2
  · exact .nil

theorem twins_descendants (base : Based w d) (mirror : Mirror w d spare p x) (depth : Nat) :
    List.Forall₂ (Twins w d spare) (descendants w depth p) (descendants (w.below d) depth x) := by
  induction depth generalizing p x with
  | zero => exact .nil
  | succ depth ih =>
    refine List.rel_flatMap (twins_children base mirror) fun found found' twins => .cons twins ?_
    rw [← twins.1.isFolder base]
    split
    · exact ih twins.1
    · exact .nil

theorem descendants_below (base : Based w d) (x : Path) :
    descendants (w.below d) (depth w) x = descendants (w.below d) (depth (w.below d)) x := by
  have proper : (w.below d).tree.Proper := Files.Tree.proper_below base.proper _
  have known : ∀ loc ∈ (w.below d).tree.locs, loc.length ≤ depth w := by
    intro loc mem
    have whole := length_le_depth (Files.Tree.mem_of_mem_below mem)
    rw [List.length_append] at whole
    omega
  have deep : ∀ n, (∀ loc ∈ (w.below d).tree.locs, loc.length ≤ n) →
      ∀ loc ∈ (w.below d).tree.locs, loc.length ≤ ((w.below d).location x).length + n :=
    fun n all loc mem => (all loc mem).trans (Nat.le_add_left _ _)
  calc descendants (w.below d) (depth w) x
    _ = descendants (w.below d) (max (depth w) (depth (w.below d))) x :=
      (descendants_of_le proper (deep _ known) (le_max_left _ _)).symm
    _ = descendants (w.below d) (depth (w.below d)) x :=
      descendants_of_le proper (deep _ fun _ => length_le_depth) (le_max_right _ _)

def Onward (w : Workspace) (d : Path) (spare : Nat) (rest : List Part) (p x : Path) : Prop :=
  Mirror w d spare p x ∧ (isHere p = true → opensEmpty rest = false)

theorem Twins.onward {spare : Nat} {found found' : Path × String} (twins : Twins w d spare found found')
    (rest : List Part) : Onward w d spare rest found.1 found'.1 :=
  ⟨twins.1, fun here => by simp [twins.2.2] at here⟩

variable {tokens : List Token} {rest : List Part}

theorem onward_fitting {found found' : List (Path × String)}
    (twins : List.Forall₂ (Twins w d spare) found found') :
    List.Forall₂ (Onward w d spare rest)
      ((found.filter fun child => fits tokens child.2.toList).map Prod.fst)
      ((found'.filter fun child => fits tokens child.2.toList).map Prod.fst) := by
  rw [List.forall₂_map_left_iff, List.forall₂_map_right_iff]
  refine (List.rel_filter ?_ twins).imp fun _ _ twins => Twins.onward twins rest
  intro _ _ twins
  simp only [twins.2.1]

theorem onward_sought (base : Based w d) (mirror : Mirror w d spare p x) :
    List.Forall₂ (Onward w d spare rest) (sought w tokens p) (sought (w.below d) tokens x) := by
  rw [sought, sought, ← descendants_below base x]
  exact onward_fitting (twins_descendants base mirror (depth w))

theorem onward_named (base : Based w d) (mirror : Mirror w d (spare + 2) p x)
    (slashless : Slashless tokens) (level : Part.climbs (.name tokens) = false)
    (opens : isHere p = true → opensEmpty (.name tokens :: rest) = false) :
    List.Forall₂ (Onward w d spare rest) (named w tokens p) (named (w.below d) tokens x) := by
  unfold named
  cases literal : literal? tokens with
  | some cs =>
    have noSlash : '/' ∉ (String.ofList cs).toList := by simpa using slashless cs literal
    have notUp := ne_up_of_climbs level literal
    have part : Part.name tokens = literalPart (String.ofList cs) := by
      rw [literalPart, String.toList_ofList, literal?_iff.mp literal]
    rw [part] at opens
    have some : isHere p = true → String.ofList cs ≠ "" := by
      intro here empty
      have opens := opens here
      rw [empty] at opens
      cases opens
    simp only [mirror.leads base noSlash notUp some]
    split
    · refine .cons ⟨?_, opens_step mirror.tidy (Path.step_inside mirror.tidy noSlash some) opens⟩ .nil
      cases idle : Path.isIdle (String.ofList cs) with
      | true => exact mirror.idle idle some
      | false => exact (mirror.mono (Nat.le_add_right _ _)).named ⟨idle, notUp, noSlash⟩
    · exact .nil
  | none =>
    simp only [specials_of_climbs level literal, List.map_nil, List.nil_append, ← mirror.isFolder base]
    split
    · exact .nil
    · exact onward_fitting (twins_children base (mirror.mono (Nat.le_add_right _ _)))

/-- Parts that do not go up lead from a path beyond the folder to what they lead to in the tree below
it. Each takes up to two bytes, apart from those of the names that it finds. -/
theorem mirror_expand (base : Based w d) : ∀ (parts : List Part) (p x : Path), Plain parts →
    (∀ part ∈ parts, part.climbs = false) → (isHere p = true → opensEmpty parts = false) →
      Mirror w d (spare + 2 * parts.length) p x →
        List.Forall₂ (Mirror w d spare) (expand w parts p) (expand (w.below d) parts x)
  | [], p, x, _, _, _, mirror => .cons mirror .nil
  | [.folders], p, x, _, _, _, mirror => by
    rw [expand, expand, ← descendants_below base x]
    refine List.rel_filter (fun _ _ mirror => by simp only [mirror.isFolder base]) ?_
    rw [List.forall₂_map_left_iff, List.forall₂_map_right_iff]
    exact (twins_descendants base (mirror.mono (Nat.le_add_right _ _)) (depth w)).imp
      fun _ _ twins => twins.1
  | .folders :: .folders :: _, p, x, _, _, _, _ => .nil
  | .folders :: .name tokens :: rest, p, x, plain, level, _, mirror => by
    rw [expand_sought, expand_sought]
    have found : List.Forall₂ (Onward w d _ rest) (sought w tokens p) (sought (w.below d) tokens x) :=
      onward_sought base mirror
    refine List.rel_flatMap found fun q y onward => ?_
    refine mirror_expand base rest q y (fun tokens mem => plain tokens (by simp [mem]))
      (fun part mem => level part (by simp [mem])) onward.2 (onward.1.mono ?_)
    simp only [List.length_cons]
    omega
  | .name tokens :: rest, p, x, plain, level, opens, mirror => by
    rw [expand_named, expand_named]
    have mirror : Mirror w d (spare + 2 * rest.length + 2) p x := mirror.mono (by
      simp only [List.length_cons]
      omega)
    have found := onward_named base mirror (plain tokens (by simp)) (level _ (by simp)) opens
    refine List.rel_flatMap found fun q y onward => ?_
    exact mirror_expand base rest q y (fun tokens mem => plain tokens (by simp [mem]))
      (fun part mem => level part (by simp [mem])) onward.2 onward.1

/-! ### The order of the matches -/

theorem append_le_append_iff {α : Type} [LinearOrder α] (front as bs : List α) :
    front ++ as ≤ front ++ bs ↔ as ≤ bs := by
  rw [← not_lt, ← not_lt, not_iff_not]
  induction front with
  | nil => rfl
  | cons first front ih => simp [ih]

def ranks (segments : List String) : List (Nat ×ₗ String) :=
  segments.map fun segment => toLex (Path.Component.ofSegment segment).key

theorem ranks_append (front back : List String) :
    ranks (front ++ back) = ranks front ++ ranks back := List.map_append

theorem keys_eq (tidy : p.Tidy) : p.keys =
    if p.isAbsolute then [toLex Path.Component.root.key] ++ ranks p.steps
    else if p.steps = [] then [toLex Path.Component.here.key] else ranks p.steps := by
  rw [Path.keys, Path.components_eq tidy]
  split_ifs <;> simp [ranks]

theorem here_lt_ranks {segments : List String} (some : segments ≠ []) :
    [toLex Path.Component.here.key] < ranks segments := by
  obtain ⟨segment, rest, rfl⟩ := List.exists_cons_of_ne_nil some
  rw [ranks, List.map_cons, List.cons_lt_cons_iff, Prod.Lex.toLex_lt_toLex, Path.Component.ofSegment]
  left
  split <;> simp [Path.Component.key]

theorem Mirror.byComponents {q y : Path} (mirror : Mirror w d spare p x)
    (mirror' : Mirror w d spare q y) :
    Glob.byComponents p q = Glob.byComponents x y := by
  rw [Bool.eq_iff_iff, byComponents_iff, byComponents_iff, keys_eq mirror.tidy, keys_eq mirror'.tidy,
    keys_eq mirror.tidy', keys_eq mirror'.tidy', mirror.root, mirror'.root, if_pos rfl, if_pos rfl,
    append_le_append_iff, mirror.absolute, mirror'.absolute, mirror.steps, mirror'.steps]
  by_cases absolute : d.isAbsolute = true
  · rw [if_pos absolute, if_pos absolute, append_le_append_iff, ranks_append, ranks_append,
      append_le_append_iff]
  rw [if_neg absolute, if_neg absolute]
  by_cases own : d.steps = []
  · -- Without names in front, the working folder itself comes before all that is in it.
    have first : ∀ {segments : List String}, segments ≠ [] → ranks [] < ranks segments := by
      intro segments some
      obtain ⟨segment, rest, rfl⟩ := List.exists_cons_of_ne_nil some
      exact List.nil_lt_cons _ _
    rw [own, List.nil_append, List.nil_append]
    by_cases root : x.steps = []
    · rw [root, if_pos rfl]
      by_cases root' : y.steps = []
      · rw [root', if_pos rfl]
        exact iff_of_true le_rfl le_rfl
      · rw [if_neg root']
        exact iff_of_true (here_lt_ranks root').le (first root').le
    · rw [if_neg root]
      by_cases root' : y.steps = []
      · rw [root', if_pos rfl]
        exact iff_of_false (here_lt_ranks root).not_ge (first root).not_ge
      · rw [if_neg root']
  · rw [if_neg (by simp [own]), if_neg (by simp [own]), ranks_append, ranks_append,
      append_le_append_iff]

theorem forall₂_mergeSort {α β : Type} {R : α → β → Prop} {le : α → α → Bool} {le' : β → β → Bool}
    (order : ∀ a b, R a b → ∀ a' b', R a' b' → le a a' = le' b b') {as : List α} {bs : List β}
    (related : List.Forall₂ R as bs) :
    List.Forall₂ R (as.mergeSort le) (bs.mergeSort le') := by
  have each : ∀ pair ∈ as.zip bs, R pair.1 pair.2 := fun _ mem => List.forall₂_zip related mem
  have left : ((as.zip bs).mergeSort fun a b => le a.1 b.1).map Prod.fst = as.mergeSort le := by
    rw [List.map_mergeSort (s := le) fun _ _ _ _ => rfl, List.map_fst_zip related.length_eq.le]
  have right : ((as.zip bs).mergeSort fun a b => le a.1 b.1).map Prod.snd = bs.mergeSort le' := by
    rw [List.map_mergeSort (s := le') fun a mem b mem' => order _ _ (each a mem) _ _ (each b mem'),
      List.map_snd_zip related.length_eq.ge]
  rw [← left, ← right, List.forall₂_map_left_iff, List.forall₂_map_right_iff]
  exact List.forall₂_same.mpr fun pair mem => each pair (List.mem_mergeSort.mp mem)

theorem length_collapse (parts : List Part) : (collapse parts).length ≤ parts.length := by
  fun_induction collapse parts with
  | case1 rest ih => exact ih.trans (by simp)
  | case2 part rest _ ih => simpa using ih
  | case3 => rfl

theorem length_parts {q : Path} {parts : List Part} (read : parts? q = some parts) :
    parts.length ≤ q.segments.length := by
  have same := congrArg List.length (map_of_mapM read)
  rw [List.length_map, List.length_map] at same
  rw [← same]
  split
  · rw [List.length_dropLast]
    exact Nat.sub_le _ _
  · rfl

theorem join_root {q : Path} (relative : q.isAbsolute = false) :
    ((Path.mk "/").join q).isAbsolute = true ∧ parts? ((Path.mk "/").join q) = parts? q := by
  have text : (Path.mk "/").join q = ⟨"" ++ "/" ++ q.text⟩ := by
    have closed : "/".endsWith "/" = true := by decide +kernel
    rw [Path.join, if_neg (by simp [relative]), if_pos closed]
    rfl
  have absolute : (Path.mk ("" ++ "/" ++ q.text)).isAbsolute = true :=
    Path.isAbsolute_iff.mpr (by simp)
  have cut : Text.split '/' ("" ++ "/" ++ q.text) = Text.split '/' "" ++ Text.split '/' q.text :=
    Text.split_append '/' "" q.text
  have segments : (Path.mk ("" ++ "/" ++ q.text)).segments = q.segments := by
    rw [Path.segments, if_pos absolute, cut, Path.segments, relative]
    rfl
  rw [text, parts?, parts?, segments]
  exact ⟨absolute, rfl⟩

theorem endsWith_iff {text : String} :
    text.endsWith "/" = true ↔ text.toList.getLast? = some '/' := by
  rw [← String.endsWith_toSlice, String.Slice.endsWith_string_iff, String.copy_toSlice,
    List.getLast?_eq_some_iff]
  exact exists_congr fun _ => eq_comm

theorem endsWith_join {q : Path} (d : Path) (some : q.text ≠ "") :
    (d.join q).text.endsWith "/" = q.text.endsWith "/" := by
  have chars : q.text.toList ≠ [] := fun none => some (String.toList_inj.mp none)
  rw [Bool.eq_iff_iff, endsWith_iff, endsWith_iff, Path.join]
  split
  · rfl
  · split <;> simp only [String.toList_append, List.getLast?_append_of_ne_nil _ chars]

/-- Of a pattern in a folder: the text of the folder is no pattern, and the pattern does not go up. -/
structure Inward (d q : Path) : Prop where
  plain : isPattern d.text = false
  relative : q.isAbsolute = false
  level : ∀ parts ∈ parts? q, ∀ part ∈ parts, part.climbs = false
  opening : d.isAbsolute = false → ∀ parts ∈ parts? (d.join q), opensEmpty parts = false

def Roomy (w : Workspace) (d q : Path) : Prop :=
  d.text.utf8ByteSize + 2 * q.segments.length + (w.below d).tree.reach + 2 ≤ Workspace.pathLimit

theorem clean_segments (base : Based w d) {name : String} (mem : name ∈ d.segments) :
    '\x00' ∉ name.toList := by
  intro nul
  have clean := base.clean
  rw [← Bool.not_eq_true, Files.hasNul_iff] at clean
  have idle : name ≠ "" ∧ name ≠ "." := by constructor <;> rintro rfl <;> simp at nul
  exact clean ⟨name, List.mem_filter.mpr ⟨mem, by simp [Path.isIdle, idle]⟩, nul⟩

theorem mirror_start (base : Based w d) {q : Path} (inward : Inward d q) (roomy : Roomy w d q)
    {parts : List Part} (read : parts? q = some parts) :
    ∃ whole, parts? (d.join q) = some whole ∧
      List.Forall₂ (Mirror w d 0)
        (expand w (collapse whole) (if (d.join q).isAbsolute then ⟨"/"⟩ else ⟨"."⟩))
        (expand (w.below d) (collapse parts) ⟨"/"⟩) := by
  obtain ⟨front, inside, steps, size, joined⟩ := parts?_join inward.plain inward.relative
  obtain ⟨absolute, _⟩ := Path.segments_join d inward.relative
  rw [read, Option.map_some] at joined
  refine ⟨_, joined, ?_⟩
  have opening := inward.opening
  rw [joined] at opening
  rw [collapse_literals, absolute]
  generalize begins : (if d.isAbsolute then ⟨"/"⟩ else ⟨"."⟩ : Path) = start
  obtain ⟨tidy, same, bare, single⟩ : start.Tidy ∧ start.isAbsolute = d.isAbsolute ∧
      start.steps = [] ∧ start.text.utf8ByteSize = 1 := by
    rw [← begins]
    cases d.isAbsolute with
    | true => exact ⟨Path.tidy_root, by decide +kernel⟩
    | false => exact ⟨Path.tidy_here, by decide +kernel⟩
  have location : w.location start = w.start d := by
    rw [w.location_eq, bare, Workspace.start, same]
    rfl
  have leads : Leads w.tree (w.location start) front (.present (w.location d) .folder) := by
    rw [location]
    exact Leads.of_steps (steps.symm ▸ base.reached.leads)
  have reached : w.Reached start := by
    rw [Reached, bare]
    exact ⟨_, .stop _⟩
  have clean : ∀ name ∈ start.steps ++ front, '\x00' ∉ name.toList := by
    rw [bare, List.nil_append]
    exact fun name mem => clean_segments base (inside mem)
  have opens : isHere start = true →
      opensEmpty (front.map literalPart ++ collapse parts) = false := by
    intro here
    have relative := ((Path.isHere_iff tidy).mp here).1
    rw [← collapse_literals, opensEmpty_collapse]
    exact opening (same ▸ relative) _ rfl
  have short := length_collapse parts
  have shorter := length_parts read
  unfold Roomy at roomy
  obtain ⟨p, expands, tidy', absolute', steps', size', opens'⟩ := expand_literals
    (fun name mem => Path.slash_notMem_segments (inside mem)) tidy
    reached leads clean (by omega) opens
  rw [expands]
  have mirror : Mirror w d (0 + 2 * (collapse parts).length) p ⟨"/"⟩ := by
    have root : (Path.mk "/").steps = [] := by decide +kernel
    have slash : "/".utf8ByteSize = 1 := rfl
    refine ⟨absolute'.trans same, by decide +kernel, ?_, by simp [root], tidy', Path.tidy_root, ?_, ?_⟩
    · rw [steps', bare, steps, root, List.nil_append, List.append_nil]
    · rw [root]
      omega
    · rw [root, slash]
      omega
  exact mirror_expand base (collapse parts) p ⟨"/"⟩ (plain_collapse (plain_parts read))
    (fun part mem => inward.level parts read part (mem_of_mem_collapse mem)) opens' mirror

theorem mirror_matches (base : Based w d) {q : Path} (some : q.text ≠ "") (inward : Inward d q)
    (roomy : Roomy w d q) :
    (matches? w (d.join q) = none ∧ matches? (w.below d) ((Path.mk "/").join q) = none) ∨
      ∃ found seen, matches? w (d.join q) = Option.some found ∧
        matches? (w.below d) ((Path.mk "/").join q) = Option.some seen ∧
          List.Forall₂ (Mirror w d 0) found seen := by
  obtain ⟨absolute, same⟩ := join_root inward.relative
  unfold matches?
  rw [same, absolute]
  cases read : parts? q with
  | none =>
    obtain ⟨_, _, _, _, joined⟩ := parts?_join inward.plain inward.relative
    rw [joined, read]
    exact .inl ⟨rfl, rfl⟩
  | some parts =>
    obtain ⟨whole, joined, found⟩ := mirror_start base inward roomy read
    rw [joined]
    refine .inr ⟨_, _, rfl, rfl, forall₂_mergeSort (fun _ _ mirror _ _ => mirror.byComponents) ?_⟩
    rw [endsWith_join d some, endsWith_join ⟨"/"⟩ some]
    split
    · exact List.rel_filter (fun _ _ mirror => by simp only [mirror.isFolder base]) found
    · exact found

end

end Glob

end ClassDiagram
