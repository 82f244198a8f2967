import ClassDiagram.Proofs.CommandLine.Session
import ClassDiagram.Proofs.Toggle.Unit

/-! Switching the units of a solution. They are switched one after the other up to the first one that
fails; those before it stay switched, and all else stays as it was. -/

namespace ClassDiagram.CommandLine.Switch

open Files (Location ProperName Tree Workspace)
open Files.Workspace (location_of_cwd)
open Places (unitDocument)
open Toggle (IsSet Step setUnit setUnit_step)

/-- All units are switched, one after the other. -/
inductive Switched (enabled : Bool) : Workspace → List Path → Workspace → Prop
  | nil {w : Workspace} : Switched enabled w [] w
  | cons {w w₁ w' : Workspace} {unit : Path} {rest : List Path} {outcome : Writer.Outcome}
      (set : setUnit w unit enabled = (w₁, .ok outcome)) (later : Switched enabled w₁ rest w') :
      Switched enabled w (unit :: rest) w'

namespace Switched

variable {enabled : Bool} {w w' : Workspace} {paths front back : List Path} {p : Path}

/-- What one step keeps, switching all units keeps. -/
theorem preserves {P : Workspace → Prop} (switched : Switched enabled w paths w') (start : P w)
    (next : ∀ {v v' unit outcome}, unit ∈ paths → v.cwd = w.cwd →
      Step v enabled unit (v', .ok outcome) → P v → P v') : P w' := by
  induction switched with
  | nil => exact start
  | @cons w w₁ _ unit rest outcome set _ ih =>
    have step : Step w enabled unit (w₁, .ok outcome) := set ▸ setUnit_step w enabled unit
    exact ih (next List.mem_cons_self rfl step start) fun mem cwd =>
      next (List.mem_cons_of_mem _ mem) (cwd.trans step.cwd)

theorem cwd (switched : Switched enabled w paths w') : w'.cwd = w.cwd :=
  switched.preserves (P := fun v => v.cwd = w.cwd) rfl fun _ _ step same => step.cwd.trans same

theorem keeps (switched : Switched enabled w paths w') (set : IsSet w enabled p) :
    IsSet w' enabled p :=
  switched.preserves (P := fun v => IsSet v enabled p) set fun _ _ step => step.keeps

theorem isFile (switched : Switched enabled w paths w') (file : w.isFile p = true) :
    w'.isFile p = true :=
  switched.preserves (P := fun v => v.isFile p = true) file fun _ _ step => step.isFile

theorem enlarges (switched : Switched enabled w paths w') (proper : ∀ name ∈ w.cwd, ProperName name) :
    w.tree.Enlarges w'.tree :=
  switched.preserves (P := fun v => w.tree.Enlarges v.tree) (.refl _) fun _ cwd step enlarges =>
    enlarges.trans (step.enlarges (cwd ▸ proper))

theorem find?_other (switched : Switched enabled w paths w') {loc : Location}
    (apart : ∀ unit ∈ paths, loc ≠ w.location (unitDocument unit)) :
    w'.tree.find? loc = w.tree.find? loc :=
  switched.preserves (P := fun v => v.tree.find? loc = w.tree.find? loc) rfl
    fun mem cwd step same =>
      (step.find?_other (location_of_cwd cwd _ ▸ apart _ mem)).trans same

theorem read_other {bytes : Files.Bytes} (switched : Switched enabled w paths w')
    (read : w.read p = .ok bytes)
    (apart : ∀ unit ∈ paths, w.location p ≠ w.location (unitDocument unit)) :
    w'.read p = .ok bytes :=
  switched.preserves (P := fun v => v.read p = .ok bytes) read fun mem cwd step read => by
    refine step.read_other read ?_
    rw [location_of_cwd cwd, location_of_cwd cwd]
    exact apart _ mem

theorem load_other (switched : Switched enabled w paths w') (reached : w'.Reached p.folder)
    (apart : ∀ unit ∈ paths, w.location (unitDocument p) ≠ w.location (unitDocument unit)) :
    BuildDocument.load w' (unitDocument p) = BuildDocument.load w (unitDocument p) := by
  have loads : w'.Reached p.folder →
      BuildDocument.load w' (unitDocument p) = BuildDocument.load w (unitDocument p) :=
    switched.preserves (P := fun v => v.Reached p.folder →
        BuildDocument.load v (unitDocument p) = BuildDocument.load w (unitDocument p))
      (fun _ => rfl) fun mem cwd step same reached => by
        have before := step.reached reached
        refine (step.load_other before ?_).trans (same before)
        rw [location_of_cwd cwd, location_of_cwd cwd]
        exact apart _ mem
  exact loads reached

theorem later {w'' : Workspace} {rest : List Path} (first : Switched enabled w paths w')
    (all : Switched enabled w (paths ++ rest) w'') : Switched enabled w' rest w'' := by
  induction first with
  | nil => exact all
  | cons set _ ih =>
    cases all with
    | cons set' all =>
      cases set.symm.trans set'
      exact ih all

theorem split (switched : Switched enabled w (front ++ p :: back) w') :
    ∃ v v' outcome, Switched enabled w front v ∧ Step v enabled p (v', .ok outcome) ∧
      Switched enabled v' back w' := by
  induction front generalizing w with
  | nil =>
    cases switched with
    | cons set later => exact ⟨_, _, _, .nil, set ▸ setUnit_step w enabled p, later⟩
  | cons first front ih =>
    cases switched with
    | cons set later =>
      obtain ⟨v, v', outcome, before, own, after⟩ := ih later
      exact ⟨v, v', outcome, .cons set before, own, after⟩

theorem isSet (switched : Switched enabled w paths w') (mem : p ∈ paths) : IsSet w' enabled p := by
  obtain ⟨front, back, rfl⟩ := List.append_of_mem mem
  obtain ⟨_, _, _, _, step, after⟩ := switched.split
  exact after.keeps (step.isSet rfl)

theorem there (switched : Switched enabled w paths w') (mem : p ∈ paths) : w'.isFile p = true := by
  obtain ⟨front, back, rfl⟩ := List.append_of_mem mem
  obtain ⟨_, _, _, _, step, after⟩ := switched.split
  exact after.isFile (step.there rfl)

theorem written (switched : Switched enabled w (front ++ p :: back) w')
    (alone : ∀ q ∈ front ++ back, w.location (unitDocument p) ≠ w.location (unitDocument q)) :
    ∃ d, BuildDocument.load w (unitDocument p) = .ok d ∧ (d.setEnabled enabled).2 = .ok () ∧
      w'.read (unitDocument p) = .ok (Workspace.utf8 (d.setEnabled enabled).1.text) := by
  obtain ⟨v, v', outcome, before, step, after⟩ := switched.split
  have reached : v.Reached p.folder :=
    step.reached (Workspace.reached_of_isFile (step.there rfl))
  obtain ⟨d, opened, done, read⟩ := step.written rfl
  obtain ⟨apartBefore, apartAfter⟩ := List.forall_mem_append.mp alone
  refine ⟨d, (before.load_other reached apartBefore).symm.trans opened, done,
    after.read_other read fun q mem => ?_⟩
  have cwd : v'.cwd = w.cwd := step.cwd.trans before.cwd
  rw [location_of_cwd cwd, location_of_cwd cwd]
  exact apartAfter q mem

end Switched

/-- What the loop over the units comes to. In JSON mode it prints nothing. -/
inductive Pass (mode : OutputMode) (enabled : Bool) (s : Session) (paths : List Path) :
    EStateM.Result Failure Session (List String) → Prop
  | done {shown : List String} {s' : Session} (switched : Switched enabled s.files paths s'.files)
      (silent : mode = .json → s'.out = s.out) : Pass mode enabled s paths (.ok shown s')
  | stopped {failure : Failure} {s' : Session} {before rest : List Path} {unit : Path}
      (split : paths = before ++ unit :: rest)
      (switched : Switched enabled s.files before s'.files)
      (refused : setUnit s'.files unit enabled = (s'.files, .error failure))
      (silent : mode = .json → s'.out = s.out) : Pass mode enabled s paths (.error failure s')

theorem Pass.cons {mode : OutputMode} {enabled : Bool} {s t : Session} {unit : Path}
    {rest : List Path} {outcome : Writer.Outcome} {m : Task (List String)}
    (set : setUnit s.files unit enabled = (t.files, .ok outcome))
    (silent : mode = .json → t.out = s.out) (pass : Pass mode enabled t rest (m.run t))
    (first : String) :
    Pass mode enabled s (unit :: rest) ((do return first :: (← m)).run t) := by
  rw [EStateM.run_bind]
  cases result : m.run t with
  | ok shown s' =>
    rw [result] at pass
    cases pass with
    | done switched quiet => exact .done (.cons set switched) fun json => (quiet json).trans (silent json)
  | error failure s' =>
    rw [result] at pass
    cases pass with
    | stopped split switched refused quiet =>
      exact .stopped (congrArg _ split) (.cons set switched) refused fun json =>
        (quiet json).trans (silent json)

theorem units_pass (theme : Theme) (mode : OutputMode) (enabled : Bool) (paths : List Path)
    (s : Session) : Pass mode enabled s paths ((units theme mode enabled paths).run s) := by
  induction paths generalizing s with
  | nil => exact .done .nil fun _ => rfl
  | cons unit rest ih =>
    have step := setUnit_step s.files enabled unit
    cases result : setUnit s.files unit enabled with
    | mk files outcome =>
      rw [result] at step
      rw [units, EStateM.run_bind, run_change, result]
      cases outcome with
      | error failure =>
        obtain rfl : files = s.files := step.failed rfl
        exact .stopped (show _ = [] ++ unit :: rest from rfl) .nil result fun _ => rfl
      | ok outcome =>
        cases mode with
        | human => exact Pass.cons (t := Session.printLine { s with files } _) result (by simp) (ih _) _
        | json => exact Pass.cons (t := { s with files }) result (fun _ => rfl) (ih _) _

/-- The manifest of the working folder lists these units. -/
def Lists (w : Workspace) (manifest : Path) (paths : List Path) : Prop :=
  Places.manifest? w w.cwdPath = .ok (some manifest) ∧ Manifest.units w manifest = .ok paths

/-- What switching a solution comes to. In JSON mode it prints one envelope or fails without a
word. -/
inductive Course (mode : OutputMode) (enabled : Bool) (s : Session) :
    EStateM.Result Failure Session ExitCode → Prop
  | switched {manifest : Path} {paths : List Path} {s' : Session}
      (lists : Lists s.files manifest paths) (switched : Switched enabled s.files paths s'.files)
      (printed : mode = .json → ∃ data, s'.out = s.out ++
        ((Envelope.mk (name enabled) true data).text ++ "\n")) : Course mode enabled s (.ok .ok s')
  | noManifest {s' : Session} (unlisted : ∀ manifest paths, ¬Lists s.files manifest paths)
      (files : s'.files = s.files)
      (printed : mode = .json → ∃ data, s'.out = s.out ++
        ((Envelope.mk (name enabled) false data).text ++ "\n")) :
      Course mode enabled s (.ok .failure s')
  | unlisted {failure : Failure} (unlisted : ∀ manifest paths, ¬Lists s.files manifest paths) :
      Course mode enabled s (.error failure s)
  | stopped {manifest : Path} {before rest : List Path} {unit : Path} {failure : Failure}
      {s' : Session} (lists : Lists s.files manifest (before ++ unit :: rest))
      (switched : Switched enabled s.files before s'.files)
      (refused : setUnit s'.files unit enabled = (s'.files, .error failure))
      (silent : mode = .json → s'.out = s.out) : Course mode enabled s (.error failure s')

theorem runSolution_course (theme : Theme) (mode : OutputMode) (enabled : Bool) (s : Session) :
    Course mode enabled s ((runSolution theme mode enabled).run s) := by
  unfold runSolution
  rw [EStateM.run_bind, run_look]
  cases found : Places.manifest? s.files s.files.cwdPath with
  | error failure => exact .unlisted (by simp [Lists, found])
  | ok manifest? =>
    cases manifest? with
    | none =>
      have unlisted : ∀ manifest paths, ¬Lists s.files manifest paths := by simp [Lists, found]
      cases mode with
      | human => exact .noManifest unlisted rfl nofun
      | json => exact .noManifest unlisted rfl fun _ => ⟨_, rfl⟩
    | some manifest =>
      dsimp only
      rw [EStateM.run_bind, run_look]
      cases listed : Manifest.units s.files manifest with
      | error failure => exact .unlisted fun other paths ⟨same, units⟩ => by grind
      | ok paths =>
        have pass := units_pass theme mode enabled paths s
        dsimp only
        rw [EStateM.run_bind]
        cases result : (units theme mode enabled paths).run s with
        | ok shown s' =>
          rw [result] at pass
          cases pass with
          | done switched silent =>
            cases mode with
            | human => exact .switched ⟨found, listed⟩ switched nofun
            | json => exact .switched ⟨found, listed⟩ switched fun _ => ⟨_, by
                rw [← silent rfl]; rfl⟩
        | error failure s' =>
          rw [result] at pass
          cases pass with
          | stopped split switched refused silent =>
            exact .stopped ⟨found, split ▸ listed⟩ switched refused silent

/-- What is left where switching has stopped at a unit. Units may share an override document, so that
of a unit that was not reached can be one that was written before. -/
structure Stopped (w w' : Workspace) (enabled : Bool) (done : List Path) (unit : Path)
    (rest : List Path) : Prop where
  refused : ∃ failure, setUnit w' unit enabled = (w', .error failure)
  /-- The files are those that setting the units before, one after the other, has left. -/
  course : Switched enabled w done w'
  /-- The document of a unit before has been written with the switch set, and where it can be read
  again it shows that. -/
  switched : ∀ p ∈ done, IsSet w' enabled p ∧
    ∀ state, Toggle.unitState w' p = .ok state → state = if enabled then .enabled else .disabled
  /-- It is the one that was there, with the switch set, if it is of no other unit before. -/
  alone : ∀ front p back, done = front ++ p :: back →
    (∀ q ∈ front ++ back, w.location (unitDocument p) ≠ w.location (unitDocument q)) →
      ∃ d, BuildDocument.load w (unitDocument p) = .ok d ∧ (d.setEnabled enabled).2 = .ok () ∧
        w'.read (unitDocument p) = .ok (Workspace.utf8 (d.setEnabled enabled).1.text)
  unreached : ∀ p ∈ unit :: rest,
    (∀ q ∈ done, w.location (unitDocument p) ≠ w.location (unitDocument q)) →
      w'.tree.find? (w.location (unitDocument p)) =
        w.tree.find? (w.location (unitDocument p))
  others : ∀ loc, (∀ p ∈ done, loc ≠ w.location (unitDocument p)) →
    w'.tree.find? loc = w.tree.find? loc

theorem perform_solution {theme : Theme} {i : Invocation} {enabled : Bool}
    (asked : i.command = .toggle enabled true none) :
    perform theme i = runSolution theme i.mode enabled := by
  rw [perform, asked]
  rfl

/-- A command that fails has switched the units before the one that failed, and nothing else; where
no units are listed it has changed nothing. -/
theorem runSolution_failed {theme : Theme} {w : Workspace} {i : Invocation} {enabled : Bool}
    (asked : i.command = .toggle enabled true none) (failed : (execute theme w i).2.code ≠ .ok) :
    (∃ manifest done unit rest, Lists w manifest (done ++ unit :: rest) ∧
        Stopped w (execute theme w i).1 enabled done unit rest) ∨
      (∀ manifest paths, ¬Lists w manifest paths) ∧ (execute theme w i).1 = w := by
  have course := runSolution_course theme i.mode enabled ⟨w, "", ""⟩
  rw [execute, perform_solution asked] at failed ⊢
  generalize (runSolution theme i.mode enabled).run ⟨w, "", ""⟩ = result at course failed ⊢
  cases course with
  | switched => exact absurd rfl failed
  | noManifest unlisted files => exact .inr ⟨unlisted, files⟩
  | unlisted unlisted => exact .inr ⟨unlisted, files_report ..⟩
  | stopped lists switched refused =>
    simp only [files_report]
    refine .inl ⟨_, _, _, _, lists, ⟨_, refused⟩, switched, fun p mem => ?_, ?_,
      fun p _ apart => ?_, fun loc => ?_⟩
    · exact ⟨switched.isSet mem, fun state =>
        Toggle.unitState_of_isSet (switched.there mem) (switched.isSet mem)⟩
    · rintro front p back rfl alone
      exact switched.written alone
    · exact switched.find?_other apart
    · exact switched.find?_other

/-- A manifest of two units, of which the second one is missing. -/
def halfThere : Workspace :=
  ⟨⟨[(["S.solution.toml"], .file (Workspace.utf8
      "units = [\"A.symbols.json\", \"Gone.symbols.json\"]")),
    (["A.symbols.json"], .file [])]⟩, []⟩

def enableSolution : Invocation := ⟨false, none, .human, .toggle true true none⟩

theorem halfThere_stopped :
    (execute .plain halfThere enableSolution).2.code ≠ .ok ∧
      Stopped halfThere (execute .plain halfThere enableSolution).1 true [⟨"/A.symbols.json"⟩]
        ⟨"/Gone.symbols.json"⟩ [] := by
  have failed : (execute .plain halfThere enableSolution).2.code ≠ .ok := by decide +kernel
  have written : (execute .plain halfThere enableSolution).1.tree.find? ["A.typediagram.toml"] ≠
      halfThere.tree.find? ["A.typediagram.toml"] := by decide +kernel
  have found : (Places.manifest? halfThere halfThere.cwdPath).toOption =
      some (some ⟨"/S.solution.toml"⟩) := by decide +kernel
  have listed : (Manifest.units halfThere ⟨"/S.solution.toml"⟩).toOption =
      some [⟨"/A.symbols.json"⟩, ⟨"/Gone.symbols.json"⟩] := by decide +kernel
  refine ⟨failed, ?_⟩
  rcases runSolution_failed rfl failed with ⟨manifest, done, unit, rest, lists, stopped⟩ | ⟨_, same⟩
  · rw [lists.1] at found
    obtain rfl : manifest = ⟨"/S.solution.toml"⟩ := by simpa [Except.toOption] using found
    rw [lists.2] at listed
    have split : done ++ unit :: rest = [⟨"/A.symbols.json"⟩, ⟨"/Gone.symbols.json"⟩] := by
      simpa [Except.toOption] using listed
    rcases done with _ | ⟨first, _ | ⟨second, more⟩⟩
    · exact absurd (stopped.others _ (by simp)) written
    · obtain ⟨rfl, rfl, rfl⟩ : first = ⟨"/A.symbols.json"⟩ ∧ unit = ⟨"/Gone.symbols.json"⟩ ∧
        rest = [] := by simpa using split
      exact stopped
    · simp at split
  · exact absurd (by rw [same]) written

/-- The unit before the missing one is switched all the same. -/
theorem halfThere_switched :
    (execute .plain halfThere enableSolution).2.code = .failure ∧
      halfThere.tree.find? ["A.typediagram.toml"] = none ∧
      (execute .plain halfThere enableSolution).1.tree.find? ["A.typediagram.toml"] ≠ none := by
  decide +kernel

end ClassDiagram.CommandLine.Switch
