import ClassDiagram.Proofs.Files.Parent
import ClassDiagram.Proofs.Writer.Extension

/-! A write beside something that is there. The folder is there as well, so none is made, and all that
the write can change is its target. -/

namespace ClassDiagram

namespace Files.Workspace

section

variable {t : Tree} {loc l : Location} {segments front : List String} {last : String} {e : Entry}

theorem Leads.steps (leads : Leads t loc segments (.present l e)) :
    Leads t loc (segments.filter Path.isStep) (.present l e) := by
  have idle_iff : ∀ {segment : String}, Path.isStep segment = true ↔ Path.isIdle segment = false :=
    by simp [Path.isStep]
  generalize ends : Spot.present l e = spot at leads ⊢
  induction leads with
  | stop => exact .stop _
  | idle idle _ ih =>
    rw [List.filter_cons_of_neg (by simp [Path.isStep, idle])]
    exact ih ends
  | up _ ih => exact .up (ih ends)
  | down named found _ ih =>
    rw [List.filter_cons_of_pos (idle_iff.mpr named.notIdle)]
    exact .down named found (ih ends)
  | file named found =>
    rw [List.filter_cons_of_pos (idle_iff.mpr named.notIdle)]
    exact .file named found
  | free => cases ends

theorem Leads.of_steps (leads : Leads t loc (segments.filter Path.isStep) (.present l .folder)) :
    Leads t loc segments (.present l .folder) := by
  induction segments generalizing loc with
  | nil => exact leads
  | cons segment rest ih =>
    cases idle : Path.isIdle segment with
    | true =>
      rw [List.filter_cons_of_neg (by simp [Path.isStep, idle])] at leads
      exact .idle idle (ih leads)
    | false =>
      rw [List.filter_cons_of_pos (by simp [Path.isStep, idle])] at leads
      generalize more : rest.filter Path.isStep = later at leads
      cases leads with
      | idle other => simp [idle] at other
      | up leads => exact .up (ih (more ▸ leads))
      | down named found leads => exact .down named found (ih (more ▸ leads))

theorem Leads.split (leads : Leads t loc (front ++ [last]) (.present l e)) :
    ∃ l', Leads t loc front (.present l' .folder) ∧ Leads t l' [last] (.present l e) := by
  induction front generalizing loc with
  | nil => exact ⟨loc, .stop loc, leads⟩
  | cons segment rest ih =>
    rw [List.cons_append] at leads
    generalize more : rest ++ [last] = later at leads
    cases leads with
    | idle idle leads =>
      subst more
      obtain ⟨l', front, last⟩ := ih leads
      exact ⟨l', .idle idle front, last⟩
    | up leads =>
      subst more
      obtain ⟨l', front, last⟩ := ih leads
      exact ⟨l', .up front, last⟩
    | down named found leads =>
      subst more
      obtain ⟨l', front, last⟩ := ih leads
      exact ⟨l', .down named found front, last⟩
    | file => simp at more

end

def Reached (w : Workspace) (p : Path) : Prop :=
  ∃ l, Leads w.tree (w.start p) p.steps (.present l .folder)

variable {w : Workspace} {p q : Path} {name : String}

theorem Reached.of_steps (reached : w.Reached p) (absolute : q.isAbsolute = p.isAbsolute)
    (steps : q.steps = p.steps) : w.Reached q := by
  have start : w.start q = w.start p := by rw [start, start, absolute]
  rw [Reached, start, steps]
  exact reached

theorem steps_of_proper (p : Path) (proper : ProperName name) :
    (p.joinName name).isAbsolute = p.isAbsolute ∧
      (p.joinName name).steps = p.steps ++ [name] := by
  obtain ⟨absolute, steps⟩ := p.joinName_steps proper.noSlash
  rw [Path.steps_name proper.noSlash, if_neg (by simp [proper.notIdle])] at steps
  exact ⟨absolute, steps⟩

theorem reached_of_holds (proper : ProperName name) (there : w.holds (p.joinName name) = true) :
    w.Reached p := by
  obtain ⟨absolute, steps⟩ := steps_of_proper p proper
  obtain ⟨l, e, ends⟩ := holds_iff.mp there
  have leads := (leads_of_resolve ends).steps
  rw [← Path.steps_eq_filter, steps, start, absolute] at leads
  obtain ⟨l', front, _⟩ := leads.split
  exact ⟨l', front⟩

theorem reached_of_isFile (file : w.isFile p = true) : w.Reached p.folder := by
  obtain ⟨l, e, ends, kind⟩ := isFile_iff.mp file
  have leads := (leads_of_resolve ends).steps
  rw [← Path.steps_eq_filter] at leads
  rcases List.eq_nil_or_concat p.steps with none | ⟨front, last, steps⟩
  · rw [none] at leads
    cases leads
    cases kind
  · rw [List.concat_eq_append] at steps
    obtain ⟨absolute, folder⟩ := Path.folder_of_steps (p := p) (by simp [steps])
    rw [steps, List.dropLast_concat] at folder
    rw [steps] at leads
    rw [Reached, folder, start, absolute]
    obtain ⟨l', front, _⟩ := leads.split
    exact ⟨l', front⟩

theorem makeFolders_of_reached (reached : w.Reached p) : (w.makeFolders p).1 = [] := by
  obtain ⟨l, leads⟩ := reached
  obtain ⟨rest, chain⟩ := List.head?_eq_some_iff.mp p.ancestors_head
  by_cases askable : Askable p
  · rw [makeFolders_of_folder (resolve_ok_iff.mpr ⟨askable, leads.of_steps⟩)]
  · -- A path that cannot be asked for is refused before anything is looked up.
    have refused : p.text ≠ "" → ∃ cause, w.resolve p = .error cause ∧ cause ≠ .missing ∧
        cause ≠ .occupied := by
      intro notEmpty
      rw [resolve_eq]
      split_ifs with nul empty long
      · exact ⟨_, rfl, by simp, by simp⟩
      · exact absurd (by simpa using empty) notEmpty
      · exact ⟨_, rfl, by simp, by simp⟩
      · exact absurd ⟨by simpa using nul, notEmpty, Nat.not_lt.mp long⟩ askable
    by_cases empty : p.text = ""
    · simp [makeFolders, chain, unmade, empty, makeEach]
    · obtain ⟨cause, resolve, notMissing, notOccupied⟩ := refused empty
      simp [makeFolders, chain, unmade, empty, makeFolder, resolve, notOccupied]

end Files.Workspace

namespace Writer

open Files (ProperName Workspace)
open Files.Workspace (Reached steps_of_proper makeFolders_of_reached)

variable {w : Workspace} {p : Path} {name : String}

theorem reached_targetFolder (reached : w.Reached p) (proper : ProperName name) :
    w.Reached (targetFolder (p.joinName name)) := by
  obtain ⟨absolute, steps⟩ := steps_of_proper p proper
  obtain ⟨absolute', folder⟩ := Path.folder_of_steps (p := p.joinName name) (by simp [steps])
  rw [absolute] at absolute'
  rw [steps, List.dropLast_concat] at folder
  unfold targetFolder
  split
  · next empty =>
    -- The empty path and `.` mean the same folder.
    have none : (p.joinName name).folder = ⟨""⟩ := congrArg Path.mk (beq_iff_eq.mp empty)
    rw [none] at absolute' folder
    have here : (Path.mk ".").isAbsolute = (Path.mk "").isAbsolute ∧
        (Path.mk ".").steps = (Path.mk "").steps := by decide +kernel
    exact reached.of_steps (here.1.trans absolute') (here.2.trans folder)
  · exact reached.of_steps absolute' folder

theorem run_ending (reached : w.Reached p) (proper : ProperName name) (faults : Faults)
    (content : String) :
    let r := run faults w (p.joinName name) content
    Ending w (p.joinName name) (Workspace.utf8 content) (latest w.tree r.trees) r.moved
      r.result := by
  obtain ⟨r, course, whole⟩ := run_course faults w (p.joinName name) content
  have none : folders faults w (p.joinName name) = [] := by
    have made := makeFolders_of_reached (reached_targetFolder reached proper)
    unfold folders makeFolders
    split <;> simp [made]
  rw [none] at course whole
  rw [whole]
  exact course.ending

end Writer

end ClassDiagram
