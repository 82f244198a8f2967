import ClassDiagram.Manifest
import ClassDiagram.Proofs.Glob.Below

/-! What an entry of a manifest lists. An entry that does not go up lists what it would list if the
folder of the manifest were the root, with the folder in front: as long as the text of the folder is
no pattern. If it is one, the entry is looked up wherever that pattern matches. -/

namespace ClassDiagram.Manifest

open Files (ProperName Workspace)
open Glob (Based Inward Part Roomy Token byComponents isPattern literalPart)

variable {w : Workspace} {path d : Path} {entry : String}

/-- A path by its names: where it starts, and its segments that are not idle. -/
def outline (p : Path) : Bool × List String := (p.isAbsolute, p.steps)

def outlineIn (d x : Path) : Bool × List String := (d.isAbsolute, d.steps ++ x.steps)

theorem outline_join (d : Path) {q : Path} (relative : q.isAbsolute = false) :
    outline (d.join q) = outlineIn d ((Path.mk "/").join q) := by
  have root : (Path.mk "/").steps = [] := by decide +kernel
  rw [outline, outlineIn, Path.steps_join d relative, Path.steps_join _ relative, root,
    List.nil_append, (Path.segments_join d relative).1]

theorem based_of_isFile (proper : w.tree.Proper) (file : w.isFile path = true) :
    Based w path.folder := by
  refine ⟨proper, Workspace.reached_of_isFile file, ?_⟩
  obtain ⟨l, e, ends, kind⟩ := Workspace.isFile_iff.mp file
  obtain ⟨askable, leads⟩ := Workspace.resolve_ok_iff.mp ends
  have some : path.steps ≠ [] := by
    intro none
    have leads := leads.steps
    rw [← Path.steps_eq_filter, none] at leads
    cases leads
    cases kind
  have clean := askable.noNul
  rw [← Bool.not_eq_true, Files.hasNul_iff] at clean ⊢
  rintro ⟨name, mem, nul⟩
  rw [(Path.folder_of_steps some).2] at mem
  exact clean ⟨name, List.dropLast_subset _ mem, nul⟩

theorem inner_of_plain {q : Path} (plain : isPattern q.text = false)
    (level : ∀ parts ∈ Glob.parts? q, ∀ part ∈ parts, part.climbs = false) : ".." ∉ q.steps := by
  intro up
  have mem : ".." ∈ q.segments := (List.mem_filter.mp up).1
  have kept : ".." ∈ if q.segments.getLast? = some "" then q.segments.dropLast else q.segments := by
    split
    · next closed =>
      obtain ⟨front, segments⟩ := List.getLast?_eq_some_iff.mp closed
      rw [segments] at mem ⊢
      simpa using mem
    · exact mem
  have read : Glob.parts? q = some (List.map literalPart
      (if q.segments.getLast? = some "" then q.segments.dropLast else q.segments)) := by
    refine Glob.mapM_of_forall fun name mem =>
      Glob.part?_plain (Glob.isPattern_of_mem_segments plain ?_)
    split at mem
    · exact List.dropLast_subset _ mem
    · exact mem
  have climbs : (literalPart "..").climbs = true := by decide
  exact absurd (level _ read _ (List.mem_map_of_mem kept)) (by simp [climbs])

theorem sorted_matches {p : Path} {found : List Path} (matched : Glob.matches? w p = some found) :
    found.Pairwise (byComponents · ·) := by
  obtain ⟨parts, _, rfl⟩ := Option.map_eq_some_iff.mp matched
  exact List.pairwise_mergeSort Glob.byComponents_trans Glob.byComponents_total _

theorem forall_of_forall₂ {α β : Type} {P : α → Prop} {as : List α} {bs : List β}
    (related : List.Forall₂ (fun a _ => P a) as bs) : ∀ a ∈ as, P a := by
  induction related with
  | nil => simp
  | cons first _ ih => exact List.forall_mem_cons.mpr ⟨first, ih⟩

theorem map_eq_of_forall₂ {α β γ : Type} {f : α → γ} {g : β → γ} {as : List α} {bs : List β}
    (related : List.Forall₂ (fun a b => f a = g b) as bs) : as.map f = bs.map g := by
  rwa [← List.forall₂_eq_eq_eq, List.forall₂_map_left_iff, List.forall₂_map_right_iff]

/-- An entry without pattern characters in its folder lists the files that it lists seen from there,
in order and all of them below the folder. -/
theorem resolve_below (proper : w.tree.Proper) (file : w.isFile path = true)
    (inward : Inward path.folder ⟨entry⟩) (roomy : Roomy w path.folder ⟨entry⟩) :
    (resolve w path.folder entry).map (List.map outline) =
        (resolve (w.below path.folder) ⟨"/"⟩ entry).map (List.map (outlineIn path.folder)) ∧
      ∀ found, resolve w path.folder entry = .ok found →
        found.Pairwise (byComponents · ·) ∧
          ∀ p ∈ found, w.location path.folder <+: w.location p := by
  have base := based_of_isFile proper file
  unfold resolve
  by_cases pattern : isPattern entry = true
  · have some : entry ≠ "" := by
      rintro rfl
      cases pattern
    rw [if_pos pattern, if_pos pattern, Path.joinName, Path.joinName]
    rcases Glob.mirror_matches base (q := ⟨entry⟩) some inward roomy with
      ⟨invalid, invalid'⟩ | ⟨found, seen, matched, matched', mirrors⟩
    · rw [invalid, invalid']
      exact ⟨rfl, fun _ ok => by cases ok⟩
    · rw [matched, matched']
      refine ⟨congrArg Except.ok (map_eq_of_forall₂ (mirrors.imp fun p x mirror => ?_)), ?_⟩
      · rw [outline, outlineIn, mirror.absolute, mirror.steps]
      · rintro _ ⟨⟩
        exact ⟨sorted_matches matched,
          forall_of_forall₂ (mirrors.imp fun p x mirror => ⟨_, mirror.location.symm⟩)⟩
  · have outlines := outline_join path.folder inward.relative
    have inner := inner_of_plain (q := ⟨entry⟩) (by simpa using pattern) inward.level
    rw [if_neg pattern, if_neg pattern]
    refine ⟨congrArg (fun o => Except.ok [o]) outlines, ?_⟩
    rintro _ ⟨⟩
    refine ⟨List.pairwise_singleton _ _, List.forall_mem_singleton.mpr ⟨(Path.mk entry).steps, ?_⟩⟩
    exact (Workspace.location_inner (congrArg Prod.fst outlines)
      (Path.steps_join path.folder inward.relative) inner).symm

def sources : Workspace :=
  ⟨⟨[(["src"], .folder), (["src", "S.solution.toml"], .file []), (["src", "lib"], .folder),
    (["src", "lib", "A.symbols.json"], .file [])]⟩, []⟩

theorem resolve_below_sources :
    sources.tree.Proper ∧ sources.isFile ⟨"src/S.solution.toml"⟩ = true ∧
      Inward (Path.mk "src/S.solution.toml").folder ⟨"lib/*.symbols.json"⟩ ∧
        Roomy sources (Path.mk "src/S.solution.toml").folder ⟨"lib/*.symbols.json"⟩ ∧
          (resolve sources (Path.mk "src/S.solution.toml").folder "lib/*.symbols.json").map
              (List.map outline) = .ok [(false, ["src", "lib", "A.symbols.json"])] := by
  have proper : sources.tree.Proper := by decide +kernel
  have file : sources.isFile ⟨"src/S.solution.toml"⟩ = true := by decide +kernel
  have inward : Inward (Path.mk "src/S.solution.toml").folder ⟨"lib/*.symbols.json"⟩ := by
    constructor <;> decide +kernel
  have roomy : Roomy sources (Path.mk "src/S.solution.toml").folder ⟨"lib/*.symbols.json"⟩ := by
    unfold Roomy
    decide +kernel
  have below : (resolve (sources.below (Path.mk "src/S.solution.toml").folder) ⟨"/"⟩
      "lib/*.symbols.json") = .ok [⟨"/lib/A.symbols.json"⟩] := by decide +kernel
  refine ⟨proper, file, inward, roomy, ?_⟩
  rw [(resolve_below proper file inward roomy).1, below]
  decide +kernel

/-! A folder whose name is a pattern. -/

theorem tokens?_class {rest more : List Char} {token : Token}
    (read : Glob.readClass rest = some (token, more)) :
    Glob.tokens? ('[' :: rest) = (Glob.tokens? more).map (token :: ·) := by
  rw [Glob.tokens?]
  split
  · next unread => cases read.symm.trans unread
  · next found => cases read.symm.trans found; rfl

/-- A manifest and its sources in a folder with brackets in its name, and the folder that these
match. -/
def bracketed : Workspace :=
  ⟨⟨[(["a[b]"], .folder), (["a[b]", "S.solution.toml"], .file []),
    (["a[b]", "A.symbols.json"], .file []), (["ab"], .folder),
    (["ab", "B.symbols.json"], .file [])]⟩, []⟩

def symbolFiles : List Token := .anyText :: ".symbols.json".toList.map .char

theorem parts?_bracketed : Glob.parts? ⟨"a[b]/*.symbols.json"⟩ =
    some [.name [.char 'a', .within [.single 'b']], .name symbolFiles] := by
  have bracket : Glob.readClass ['b', ']'] = some (.within [.single 'b'], []) := by decide
  have folder : Glob.part? "a[b]".toList = some (.name [.char 'a', .within [.single 'b']]) := by
    have tokens : Glob.tokens? ['a', '[', 'b', ']'] = some [.char 'a', .within [.single 'b']] := by
      simp [Glob.tokens?, tokens?_class bracket]
    exact congrArg (Option.map Part.name) tokens
  have files : Glob.part? "*.symbols.json".toList = some (.name symbolFiles) := by decide +kernel
  have segments : (Path.mk "a[b]/*.symbols.json").segments = ["a[b]", "*.symbols.json"] := by
    decide +kernel
  rw [Glob.parts?, segments]
  change ["a[b]", "*.symbols.json"].mapM (fun segment => Glob.part? segment.toList) = _
  rw [List.mapM_cons, folder, List.mapM_cons, files]
  rfl

theorem named_bracketed :
    Glob.named bracketed [.char 'a', .within [.single 'b']] ⟨"."⟩ = [⟨"ab"⟩] := by
  have folders : Glob.children bracketed ⟨"."⟩ = [(⟨"a[b]"⟩, "a[b]"), (⟨"ab"⟩, "ab")] := by
    have names : bracketed.tree.names (bracketed.location ⟨"."⟩) = ["a[b]", "ab"] := by
      decide +kernel
    rw [Glob.children_eq, names, List.mergeSort_of_pairwise (by decide)]
    decide +kernel
  rw [Glob.named, folders]
  decide +kernel

/-- The entry lists a file of the other folder, and none of its own. -/
theorem resolve_bracketed :
    (Path.mk "a[b]/S.solution.toml").folder = ⟨"a[b]"⟩ ∧
      bracketed.isFile ⟨"a[b]/S.solution.toml"⟩ = true ∧
      bracketed.isFile ⟨"a[b]/A.symbols.json"⟩ = true ∧
      resolve bracketed ⟨"a[b]"⟩ "*.symbols.json" = .ok [⟨"ab/B.symbols.json"⟩] ∧
      ¬bracketed.location ⟨"a[b]"⟩ <+: bracketed.location ⟨"ab/B.symbols.json"⟩ := by
  have pattern : isPattern "*.symbols.json" = true := by decide
  have joined : (Path.mk "a[b]").joinName "*.symbols.json" = ⟨"a[b]/*.symbols.json"⟩ := by
    decide +kernel
  have relative : (Path.mk "a[b]/*.symbols.json").isAbsolute = false := by decide +kernel
  have unclosed : "a[b]/*.symbols.json".endsWith "/" = false := by decide +kernel
  have files : Glob.expand bracketed [.name symbolFiles] ⟨"ab"⟩ = [⟨"ab/B.symbols.json"⟩] := by
    decide +kernel
  refine ⟨by decide +kernel, by decide +kernel, by decide +kernel, ?_, by decide +kernel⟩
  rw [resolve, if_pos pattern, joined, Glob.matches?, parts?_bracketed]
  simp [relative, unclosed, Glob.collapse, Glob.expand_named _ [.char 'a', .within [.single 'b']],
    named_bracketed, files]

end ClassDiagram.Manifest
