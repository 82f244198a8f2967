import ClassDiagram.Proofs.BuildDocument.Rereading
import ClassDiagram.Proofs.Files.Inside
import ClassDiagram.Proofs.Toggle.Unit
import ClassDiagram.Status
import Mathlib.Data.List.TakeWhile

/-! The document of a repository under the commands on it. Those that write look for the nearest
repository, those that read for the nearest document. They mean the same document where none lies
nearer than the repository, and then what was set is what is shown. -/

namespace ClassDiagram

open Files (ProperName Tree Workspace)
open Files.Workspace (Named Reached)

namespace Writer

open Files.Workspace (Askable isFile_joinName_iff location_joinName enter_of_named)

variable {w : Workspace} {target : Path} {bytes : Files.Bytes} {t : Tree} {moved : Bool}
  {result : Except Failure Outcome}

theorem Ending.isFile_back (ending : Ending w target bytes t moved result) {p : Path} {name : String}
    (proper : ProperName name) (named : Named name)
    (file : (w.onTree t).isFile (p.joinName name) = true) :
    Askable (p.joinName name) ∧ w.Reached p ∧
      (w.isFile (p.joinName name) = true ∨ w.location (p.joinName name) = w.location target) := by
  obtain ⟨askable, reached, content, found⟩ := (isFile_joinName_iff proper named).mp file
  have reached : w.Reached p := Reached.onTree (w := w.onTree t) ending.apart.symm.keepsFolders reached
  refine ⟨askable, reached, ?_⟩
  have here : w.location (p.joinName name) = w.location p ++ [name] := by
    rw [location_joinName _ _ proper.noSlash, enter_of_named named]
  rw [or_iff_not_imp_right, here]
  intro other
  have before : t.find? (w.location p ++ [name]) = _ := ending.find?_other other
  exact (isFile_joinName_iff proper named).mpr ⟨askable, reached, content, before ▸ found⟩

end Writer

namespace Places

theorem proper_documentName : ProperName documentName := by decide

theorem named_documentName : Named documentName := ⟨by decide, by decide, by decide⟩

def gitName : String := ".git"

theorem proper_gitName : ProperName gitName := by decide

theorem named_gitName : Named gitName := ⟨by decide, by decide, by decide⟩

section

variable {w : Workspace} {start folder : Path}

def root (w : Workspace) (start : Path) : Path := (repositoryRoot? w start).getD start

/-- The folders from `start` up that lie nearer than the root. -/
def nearer (w : Workspace) (start : Path) : List Path := start.ancestors.takeWhile (· ≠ root w start)

/-- No document lies nearer than the one of the repository. -/
def Unshadowed (w : Workspace) (start : Path) : Prop :=
  ∀ folder ∈ nearer w start, w.isFile (folder.joinName documentName) = false

instance (w : Workspace) (start : Path) : Decidable (Unshadowed w start) :=
  inferInstanceAs (Decidable (∀ folder ∈ nearer w start,
    w.isFile (folder.joinName documentName) = false))

theorem root_mem_ancestors (w : Workspace) (start : Path) : root w start ∈ start.ancestors := by
  unfold root
  cases found : repositoryRoot? w start with
  | none => exact start.mem_ancestors_self
  | some folder => exact repositoryRoot?_mem found

theorem ancestors_eq (w : Workspace) (start : Path) :
    ∃ further, start.ancestors = nearer w start ++ root w start :: further := by
  have stops : ¬(start.ancestors.dropWhile (· ≠ root w start)) = [] := by
    rw [List.dropWhile_eq_nil_iff]
    exact fun all => by simpa using all _ (root_mem_ancestors w start)
  obtain ⟨first, further, rest⟩ := List.exists_cons_of_ne_nil stops
  have isRoot : first = root w start := by
    have head := List.head?_dropWhile_not (· ≠ root w start) start.ancestors
    rw [rest] at head
    simpa using head
  refine ⟨further, ?_⟩
  rw [← isRoot, ← rest]
  exact List.takeWhile_append_dropWhile.symm

theorem git_of_nearer (near : folder ∈ nearer w start) : w.holds (folder.joinName gitName) = false := by
  obtain ⟨further, all⟩ := ancestors_eq w start
  cases found : repositoryRoot? w start with
  | none =>
    have none := List.find?_eq_none.mp found folder
      (all ▸ List.mem_append_left _ near)
    exact Bool.eq_false_iff.mpr none
  | some git =>
    have isRoot : root w start = git := by rw [root, found]; rfl
    rw [repositoryRoot?, all, isRoot] at found
    have notRoot : ∀ other ∈ nearer w start, other ≠ git := by
      intro other mem
      have apart := List.all_eq_true.mp List.all_takeWhile other mem
      simpa [isRoot] using apart
    generalize nearer w start = near' at near found notRoot
    induction near' with
    | nil => cases near
    | cons other rest ih =>
      obtain ⟨apart, notRoot⟩ := List.forall_mem_cons.mp notRoot
      rw [List.cons_append, List.find?_cons] at found
      split at found
      · cases found
        exact absurd rfl apart
      next no =>
        rcases List.mem_cons.mp near with rfl | later
        · exact no
        · exact ih later found notRoot

theorem nearestDocument?_eq {front back : List Path} (all : start.ancestors = front ++ folder :: back)
    (none : ∀ other ∈ front, w.isFile (other.joinName documentName) = false)
    (file : w.isFile (folder.joinName documentName) = true) :
    nearestDocument? w start = some (folder.joinName documentName) := by
  have before : (front.map (·.joinName documentName)).find? w.isFile = Option.none := by
    rw [List.find?_map, Option.map_eq_none_iff, List.find?_eq_none]
    intro other mem
    simp [none other mem]
  rw [nearestDocument?, all, List.map_append, List.map_cons, List.find?_append, before,
    List.find?_cons, file]
  rfl

theorem nearestDocument?_cases {path : Path} (found : nearestDocument? w start = some path) :
    ∃ front folder back, start.ancestors = front ++ folder :: back ∧
      path = folder.joinName documentName ∧
      ∀ other ∈ front, w.isFile (other.joinName documentName) = false := by
  rw [nearestDocument?, List.find?_map, Option.map_eq_some_iff] at found
  obtain ⟨folder, found, rfl⟩ := found
  obtain ⟨_, front, back, all, none⟩ := List.find?_eq_some_iff_append.mp found
  exact ⟨front, folder, back, all, rfl, fun other mem => by simpa using none other mem⟩

end

end Places

/-! ### What a saved document leaves -/

namespace BuildDocument

open Places

variable {w w' : Workspace} {start path : Path} {d e : BuildDocument} {outcome : Writer.Outcome}

theorem nearest_of_save (target : d.path = repositoryDocument w start) (clear : Unshadowed w start)
    (saved : d.save w = (w', .ok outcome)) : nearestDocument? w' start = some d.path := by
  obtain ⟨further, all⟩ := ancestors_eq w start
  have place : d.path = (root w start).joinName documentName := target
  have file : w'.isFile ((root w start).joinName documentName) = true :=
    place ▸ Files.Workspace.isFile_of_read (read_of_save saved)
  rw [place]
  refine nearestDocument?_eq all (fun folder near => ?_) file
  cases found : repositoryRoot? w start with
  | none =>
    -- Outside of repositories no folder is nearer than `start` itself.
    obtain ⟨rest, ancestors⟩ := List.head?_eq_some_iff.mp start.ancestors_head
    have isStart : root w start = start := by rw [root, found]; rfl
    rw [nearer, isStart, ancestors, List.takeWhile_cons_of_neg (by simp)] at near
    cases near
  | some git =>
    have isRoot : root w start = git := by rw [root, found]; rfl
    have held : w.holds ((root w start).joinName gitName) = true := by
      rw [isRoot]
      exact (List.find?_eq_some_iff_append.mp found).1
    have reached := Files.Workspace.reached_of_holds proper_gitName held
    obtain ⟨failure, failed⟩ | ⟨t, moved, outcome', ending, written⟩ :=
      save_cases reached proper_documentName place
    · rw [failed] at saved
      cases saved
    · obtain ⟨rfl, _⟩ := Prod.mk.inj (written.symm.trans saved)
      rw [← Bool.not_eq_true]
      intro made
      obtain ⟨askable, reached, old | meets⟩ :=
        ending.isFile_back proper_documentName named_documentName made
      · exact Bool.false_ne_true ((clear folder near).symm.trans old)
      · -- A folder that is the root by another path holds the repository as well.
        rw [place, Files.Workspace.location_of_proper _ proper_documentName,
          Files.Workspace.location_of_proper _ proper_documentName] at meets
        have same := List.append_cancel_right meets
        have askable := Files.Workspace.askable_joinName proper_documentName proper_gitName
          (by decide) (by decide) askable
        have git := Files.Workspace.holds_of_location proper_gitName named_gitName askable reached
          same held
        exact Bool.false_ne_true ((git_of_nearer near).symm.trans git)

theorem nearest_of_save_nearest (nearest : nearestDocument? w start = some d.path)
    (saved : d.save w = (w', .ok outcome)) : nearestDocument? w' start = some d.path := by
  obtain ⟨front, folder, back, all, place, none⟩ := nearestDocument?_cases nearest
  have file : w'.isFile (folder.joinName documentName) = true :=
    place ▸ Files.Workspace.isFile_of_read (read_of_save saved)
  have old : w.isFile (folder.joinName documentName) = true :=
    place ▸ isFile_of_nearestDocument? nearest
  obtain ⟨_, reached, bytes, held⟩ :=
    (Files.Workspace.isFile_joinName_iff proper_documentName named_documentName).mp old
  rw [place]
  refine nearestDocument?_eq all (fun other near => ?_) file
  obtain ⟨failure, failed⟩ | ⟨t, moved, outcome', ending, written⟩ :=
    save_cases reached proper_documentName place
  · rw [failed] at saved
    cases saved
  · obtain ⟨rfl, _⟩ := Prod.mk.inj (written.symm.trans saved)
    rw [← Bool.not_eq_true]
    intro made
    obtain ⟨askable, reached, was | meets⟩ :=
      ending.isFile_back proper_documentName named_documentName made
    · exact Bool.false_ne_true ((none other near).symm.trans was)
    · -- Its target was a file before, so it was one by any other path, too.
      rw [place, Files.Workspace.location_of_proper _ proper_documentName,
        Files.Workspace.location_of_proper _ proper_documentName] at meets
      have was := (Files.Workspace.isFile_joinName_iff proper_documentName
        named_documentName).mpr ⟨askable, reached, bytes, meets ▸ held⟩
      exact Bool.false_ne_true ((none other near).symm.trans was)

end BuildDocument

/-! ### What the commands leave -/

namespace Status

theorem gather_nearest {w : Workspace} {start path : Path} {s : Status}
    (nearest : Places.nearestDocument? w start = some path) (done : gather w start = .ok s) :
    ∃ e, BuildDocument.load w path = .ok e ∧ s.document = some path ∧
      s.packageVersion = e.packageVersion? Toggle.packageName ∧ s.default = e.enabled? := by
  unfold gather at done
  obtain ⟨document, opened, done⟩ := Failure.bind_ok done
  obtain ⟨manifest, _, done⟩ := Failure.bind_ok done
  obtain ⟨units, _, done⟩ := Failure.bind_ok done
  cases done
  rw [document?, nearest] at opened
  simp only at opened
  cases found : BuildDocument.load w path with
  | error failure => rw [found] at opened; cases opened
  | ok e =>
    rw [found] at opened
    cases opened
    exact ⟨e, rfl, congrArg some (BuildDocument.path_of_load found), rfl, rfl⟩

end Status

namespace Toggle

open Places

variable {w w' : Workspace} {start path : Path} {d : BuildDocument}

theorem change_ok {edit : BuildDocument → BuildDocument × Except Failure Unit}
    (done : change w path edit = (w', .ok d)) :
    ∃ d₀ outcome, BuildDocument.load w path = .ok d₀ ∧ edit d₀ = (d, .ok ()) ∧
      d.save w = (w', .ok outcome) := by
  unfold change at done
  split at done
  · cases done
  next d₀ opened =>
    split at done
    · cases done
    next d₁ _ edited =>
      cases result : d₁.save w with
      | mk w₁ saved =>
        rw [result] at done
        obtain ⟨rfl, answer⟩ := Prod.mk.inj done
        cases saved with
        | error failure => cases answer
        | ok outcome =>
          cases answer
          exact ⟨d₀, outcome, opened, edited, result⟩

/-- The document that is nearest to a folder, as it was saved. -/
structure Saved (w : Workspace) (start : Path) (d : BuildDocument) : Prop where
  nearest : nearestDocument? w start = some d.path
  text : w.readText d.path = .ok d.text
  kept : d.document.Kept

theorem saved_of_change {edit : BuildDocument → BuildDocument × Except Failure Unit}
    (clear : Unshadowed w start)
    (keeps : ∀ d, d.document.Kept → (edit d).1.document.Kept ∧ (edit d).1.path = d.path)
    (done : change w (repositoryDocument w start) edit = (w', .ok d)) :
    Saved w' start d ∧ ∃ d₀, edit d₀ = (d, .ok ()) := by
  obtain ⟨d₀, outcome, opened, edited, saved⟩ := change_ok done
  obtain ⟨kept, path⟩ := keeps d₀ (BuildDocument.kept_load opened)
  rw [edited] at kept path
  have target := path.trans (BuildDocument.path_of_load opened)
  exact ⟨⟨BuildDocument.nearest_of_save target clear saved,
    Files.Workspace.readText_of_utf8 (BuildDocument.read_of_save saved), kept⟩, d₀, edited⟩

theorem Saved.shown (saved : Saved w start d) {s : Status} (done : Status.gather w start = .ok s) :
    s.document = some d.path ∧ s.packageVersion = d.packageVersion? packageName ∧
      s.default = d.enabled? := by
  obtain ⟨e, opened, document, version, default⟩ := Status.gather_nearest saved.nearest done
  have same := BuildDocument.switches_of_load saved.kept saved.text opened
  refine ⟨document, ?_, default.trans (congrArg Switches.enabled same)⟩
  rw [version, BuildDocument.packageVersion?_eq, BuildDocument.packageVersion?_eq, same]

theorem keeps_addPackage (version : String) (d : BuildDocument) (kept : d.document.Kept) :
    (addPackage version d).1.document.Kept ∧ (addPackage version d).1.path = d.path := by
  have upserted := BuildDocument.kept_run kept (.upsertPackage packageName version)
  have path := d.path_run (.upsertPackage packageName version)
  simp only [BuildDocument.Edit.run] at upserted path
  unfold addPackage
  generalize d.upsertPackage packageName version = r at upserted path
  obtain ⟨d', result⟩ := r
  cases result with
  | error failure => exact ⟨upserted, path⟩
  | ok _ => exact ⟨BuildDocument.kept_run upserted (.setEnabled true), path⟩

theorem addPackage_ok {version : String} {d₀ : BuildDocument}
    (done : addPackage version d₀ = (d, .ok ())) :
    d.packageVersion? packageName = some version ∧ d.enabled? = some true := by
  have upsert := (BuildDocument.answers d₀).upsertPackage packageName version
  unfold addPackage at done
  generalize d₀.upsertPackage packageName version = r at done upsert
  obtain ⟨d₁, result⟩ := r
  cases result with
  | error failure => cases done
  | ok _ =>
    have done : d₁.setEnabled true = (d, .ok ()) := done
    obtain ⟨_, known, _⟩ := upsert rfl
    obtain ⟨on, others⟩ := (BuildDocument.answers d₁).setEnabled true (congrArg Prod.snd done)
    rw [done] at on others
    exact ⟨(others packageName).2.trans known, on⟩

theorem hasPackage_of_kept {name : String} (none : (d.removePackage name).2 = false) :
    d.hasPackage name = false := by
  rw [← Bool.not_eq_true, BuildDocument.hasPackage, Option.isSome_iff_exists]
  rintro ⟨package, found⟩
  obtain ⟨packages, all, one⟩ := Option.bind_eq_some_iff.mp found
  obtain ⟨build, here, all⟩ := Option.bind_eq_some_iff.mp all
  have there : packages.find? name = some (.table package) := Toml.Table.child?_eq_some_iff.mp one
  simp [BuildDocument.removePackage, here, all, there] at none

structure Uninstalled (w : Workspace) (start path : Path) : Prop where
  nearest : nearestDocument? w start = some path
  absent : ∀ d, BuildDocument.load w path = .ok d → d.hasPackage packageName = false
  shown : ∀ s, Status.gather w start = .ok s → s.document = some path ∧ s.packageVersion = none

theorem uninstalled_of_absent (nearest : nearestDocument? w start = some path)
    (absent : ∀ d, BuildDocument.load w path = .ok d → d.hasPackage packageName = false) :
    Uninstalled w start path := by
  refine ⟨nearest, absent, fun s done => ?_⟩
  obtain ⟨d, opened, document, version, _⟩ := Status.gather_nearest nearest done
  refine ⟨document, ?_⟩
  have none := absent d opened
  rw [BuildDocument.hasPackage_eq, Option.isSome_eq_false_iff, Option.isNone_iff_eq_none] at none
  rw [version, BuildDocument.packageVersion?_eq, none]
  rfl

theorem uninstalled_of_uninstall {answer : Option BuildDocument}
    (nearest : nearestDocument? w start = some path)
    (done : uninstall w start = (w', .ok answer)) : Uninstalled w' start path := by
  rw [uninstall, nearest] at done
  simp only at done
  cases opened : BuildDocument.load w path with
  | error failure =>
    rw [opened] at done
    cases done
  | ok d =>
    simp only [opened] at done
    have gone : (d.removePackage packageName).1.hasPackage packageName = false := by
      rw [BuildDocument.hasPackage, BuildDocument.package?_removePackage, if_pos rfl]
      rfl
    have kept := BuildDocument.kept_removePackage (BuildDocument.kept_load opened) packageName
    have target : (d.removePackage packageName).1.path = path :=
      (BuildDocument.path_run d (.removePackage packageName)).trans
        (BuildDocument.path_of_load opened)
    have still := @hasPackage_of_kept d packageName
    generalize d.removePackage packageName = r at done gone kept target still
    obtain ⟨d', removed⟩ := r
    cases removed with
    | false =>
      -- Nothing was there, so nothing is written.
      cases done
      refine uninstalled_of_absent nearest fun e opened' => ?_
      cases opened.symm.trans opened'
      exact still rfl
    | true =>
      simp only at done gone kept target
      obtain ⟨rfl, saved⟩ := Prod.mk.inj done
      cases result : d'.save w with
      | mk w₁ saved' =>
        rw [result] at saved
        cases saved' with
        | error failure => cases saved
        | ok outcome =>
          refine uninstalled_of_absent
            (target ▸ BuildDocument.nearest_of_save_nearest (target.symm ▸ nearest) result)
            fun e opened => ?_
          have text := Files.Workspace.readText_of_utf8 (BuildDocument.read_of_save result)
          rw [target] at text
          rw [BuildDocument.hasPackage_eq, BuildDocument.switches_of_load kept text opened,
            ← BuildDocument.hasPackage_eq, gone]

/-- Where no document lies nearer than the one of the repository, installing, setting the default,
showing and removing are about the same document, and what was set is what is shown. -/
theorem commands_agree (clear : Unshadowed w start) :
    (∀ version w' d, install w start version = (w', .ok d) →
      nearestDocument? w' start = some d.path ∧ w'.readText d.path = .ok d.text ∧
      (∀ s, Status.gather w' start = .ok s → s.document = some d.path ∧
        s.packageVersion = some version ∧ s.default = some true) ∧
      ∀ w'' answer, uninstall w' start = (w'', .ok answer) → Uninstalled w'' start d.path) ∧
    ∀ enabled w' d, setDefault w start enabled = (w', .ok d) →
      nearestDocument? w' start = some d.path ∧ w'.readText d.path = .ok d.text ∧
      (∀ s, Status.gather w' start = .ok s → s.document = some d.path ∧
        s.default = some enabled) ∧
      ∀ w'' answer, uninstall w' start = (w'', .ok answer) → Uninstalled w'' start d.path := by
  refine ⟨fun version w' d done => ?_, fun enabled w' d done => ?_⟩
  · obtain ⟨saved, d₀, added⟩ := saved_of_change clear (keeps_addPackage version) done
    obtain ⟨version, on⟩ := addPackage_ok added
    refine ⟨saved.nearest, saved.text, fun s done => ?_, fun w'' answer =>
      uninstalled_of_uninstall saved.nearest⟩
    obtain ⟨document, package, default⟩ := saved.shown done
    exact ⟨document, package.trans version, default.trans on⟩
  · obtain ⟨saved, d₀, set⟩ := saved_of_change clear
      (fun d kept => ⟨BuildDocument.kept_run kept (.setEnabled enabled), rfl⟩) done
    have set : d₀.setEnabled enabled = (d, .ok ()) := set
    have on := BuildDocument.enabled?_setEnabled (congrArg Prod.snd set)
    rw [set] at on
    refine ⟨saved.nearest, saved.text, fun s done => ?_, fun w'' answer =>
      uninstalled_of_uninstall saved.nearest⟩
    obtain ⟨document, _, default⟩ := saved.shown done
    exact ⟨document, default.trans on⟩

def checkout : Workspace := ⟨⟨[([".git"], .folder), (["src"], .folder)]⟩, []⟩

theorem commands_agree_checkout :
    ∃ w' d s, install checkout ⟨"src"⟩ "1.1.0" = (w', .ok d) ∧ d.path = ⟨"typediagram.toml"⟩ ∧
      nearestDocument? w' ⟨"src"⟩ = some d.path ∧ Status.gather w' ⟨"src"⟩ = .ok s ∧
      s.packageVersion = some "1.1.0" ∧ s.default = some true := by
  have path : (install checkout ⟨"src"⟩ "1.1.0").2.toOption.map BuildDocument.path =
      some ⟨"typediagram.toml"⟩ := by decide +kernel
  have manifest : (manifest? (install checkout ⟨"src"⟩ "1.1.0").1 ⟨"src"⟩).toOption = some none := by
    decide +kernel
  have read : ∀ d ∈ (install checkout ⟨"src"⟩ "1.1.0").2.toOption,
      (d.orderedText?.bind Toml.Document.parse).isSome := by decide +kernel
  obtain ⟨agree, _⟩ := commands_agree (show Unshadowed checkout ⟨"src"⟩ by decide +kernel)
  have agree := agree "1.1.0"
  generalize install checkout ⟨"src"⟩ "1.1.0" = r at path manifest read agree
  obtain ⟨w', d | d⟩ := r
  · cases path
  · obtain ⟨nearest, text, shown, _⟩ := agree w' d rfl
    obtain ⟨document, parsed⟩ :=
      Option.isSome_iff_exists.mp (BuildDocument.isSome_parse_text (read d rfl))
    obtain ⟨s, done⟩ : ∃ s, Status.gather w' ⟨"src"⟩ = .ok s := by
      have opened : Status.document? w' ⟨"src"⟩ = .ok (some ⟨d.path, document⟩) := by
        simp only [Status.document?, nearest, BuildDocument.load_of_readText text, parsed, Except.map]
      cases found : manifest? w' ⟨"src"⟩ with
      | error failure => simp [found, Except.toOption] at manifest
      | ok none? =>
        obtain rfl : none? = none := by simpa [found, Except.toOption] using manifest
        exact ⟨_, by simp only [Status.gather, opened, found]; rfl⟩
    obtain ⟨_, version, default⟩ := shown s done
    exact ⟨w', d, s, rfl, by simpa [Except.toOption] using path, nearest, done, version, default⟩

def shadowed : Workspace :=
  ⟨⟨[([".git"], .folder), (["src"], .folder),
    (["src", "typediagram.toml"], .file (Workspace.utf8 "[emit]\ndirection = \"TB\"\n"))]⟩, []⟩

/-- What is installed goes to the document of the repository, and the nearer one is shown. -/
theorem shadowed_disagree :
    let w' := (install shadowed ⟨"src"⟩ "1.1.0").1
    (install shadowed ⟨"src"⟩ "1.1.0").2.toOption.map BuildDocument.path =
        some ⟨"typediagram.toml"⟩ ∧
      nearestDocument? w' ⟨"src"⟩ = some ⟨"src/typediagram.toml"⟩ ∧
      (Status.gather w' ⟨"src"⟩).toOption.map (fun s => (s.packageVersion, s.default)) =
        some (none, none) := by
  decide +kernel

end Toggle

end ClassDiagram
