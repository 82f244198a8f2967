import ClassDiagram.Proofs.Drift.Comparison
import ClassDiagram.Proofs.Toggle.Solution

/-! What the program answers in JSON mode. The command that is run is named by one of the arguments,
since an argument either leaves the command as it is or names it. A command prints one envelope of
its own, or fails before it has printed anything and has its failure reported; and it ends with an
exit code that says whether the files let it do what was asked. -/

namespace ClassDiagram

open Files (Workspace)

namespace Drift

variable {reads : Reads} {w : Workspace} {old new : Path} {r : Report}

theorem read_of_digest {p : Path} {events : List ReadEvent} {hash : String}
    (digested : digest w p events = .ok hash) : ∃ contents, w.read p = .ok contents := by
  obtain ⟨contents, read, _⟩ := Failure.bind_ok digested
  exact ⟨contents, read_of_bytes read⟩

theorem read_of_compareUnder (compared : compareUnder reads w old new = .ok r) :
    ∃ before after, w.read old = .ok before ∧ w.read new = .ok after := by
  obtain ⟨equal, asked, compared⟩ := Failure.bind_ok compared
  cases equal with
  | true =>
    obtain ⟨contents, readOld, readNew⟩ := read_of_filesEqual asked
    exact ⟨contents, contents, readOld, readNew⟩
  | false =>
    obtain ⟨_, oldDigest, compared⟩ := Failure.bind_ok compared
    obtain ⟨_, newDigest, _⟩ := Failure.bind_ok compared
    obtain ⟨before, readOld⟩ := read_of_digest oldDigest
    obtain ⟨after, readNew⟩ := read_of_digest newDigest
    exact ⟨before, after, readOld, readNew⟩

theorem compareUnder_of_read {before after : Files.Bytes} (readOld : w.read old = .ok before)
    (readNew : w.read new = .ok after) :
    compareUnder reads w old new = .ok ⟨old, new, if before = after then none
      else some (Blake3.hex before, Blake3.hex after)⟩ := by
  rw [compareUnder, filesEqual_of_read readOld readNew, digest_of_read readOld,
    digest_of_read readNew]
  by_cases same : before = after <;> simp [same, bind, pure, Except.bind, Except.pure]

end Drift

namespace CommandLine

theorem bind_ok {α β : Type} {x : Except Stop α} {f : α → Except Stop β} {b : β}
    (done : x.bind f = .ok b) : ∃ a, x = .ok a ∧ f a = .ok b := by
  cases x with
  | error stop => cases done
  | ok a => exact ⟨a, rfl, done⟩

namespace CommandForm

def name : CommandForm → String
  | emit => "emit"
  | diff => "diff"
  | install => "install"
  | enable => "enable"
  | disable => "disable"
  | status => "status"
  | uninstall => "uninstall"

theorem name_of_ofName? {text : String} {form : CommandForm} (named : ofName? text = some form) :
    form.name = text := by
  unfold ofName? at named
  split at named <;> cases named <;> rfl

end CommandForm

namespace Scan

variable {s s' : Scan} {o : Opt} {text : String}

theorem form_record (done : s.record o text = .ok s') : s'.form = s.form := by
  unfold record at done
  split at done <;> cases done
  rfl

theorem form_supply (done : s.supply o text = .ok s') : s'.form = s.form := by
  unfold supply at done
  split at done
  · exact form_record done
  · cases done

theorem form_meet (done : s.meet o = .ok s') : s'.form = s.form := by
  unfold meet at done
  split at done
  · exact form_record done
  · cases done
    rfl

theorem form_long {value : Option String} (done : s.long text value = .ok s') :
    s'.form = s.form := by
  unfold long at done
  split at done
  · exact form_supply done
  · exact form_meet done
  · cases done
  · split at done
    · cases done
    · split at done <;> cases done

theorem form_letters {cs : List Char} (done : s.letters cs = .ok s') : s'.form = s.form := by
  induction cs generalizing s with
  | nil => cases done; rfl
  | cons c rest ih =>
    unfold letters at done
    split at done
    · split at done
      · obtain ⟨_, recorded, done⟩ := bind_ok done
        exact (ih done).trans (form_record recorded)
      · split at done
        · exact form_meet done
        · exact form_supply done
        · exact form_supply done
    · split at done
      · cases done
      · split at done <;> cases done

def Names (text : String) (s : Scan) : Prop := s.form.map CommandForm.name = some text

theorem form_operand (done : s.operand text = .ok s') : s'.form = s.form ∨ s'.Names text := by
  unfold operand at done
  split at done
  · split at done <;> cases done
    exact .inl rfl
  · split at done
    · cases done
    · split at done
      next named =>
        cases done
        exact .inr (congrArg some (CommandForm.name_of_ofName? named))
      next =>
        split at done <;> cases done
        exact .inl rfl

theorem form_name {named : Bool} (done : s.name named text = .ok s') : s'.form = s.form := by
  unfold name at done
  split at done <;> cases done
  rfl

theorem form_option (done : s.option text = .ok s') : s'.form = s.form ∨ s'.Names text := by
  unfold option at done
  split at done
  · cases done
  · cases done
    exact .inl rfl
  · exact .inl (form_long done)
  · exact .inl (form_letters done)
  · exact .inl (form_supply done)
  · exact form_operand done

theorem form_step (done : s.step text = .ok s') : s'.form = s.form ∨ s'.Names text := by
  unfold step at done
  split at done
  · exact .inl (form_name done)
  · split at done
    · exact form_operand done
    · exact form_option done

/-- By induction on the arguments: the command is the one there was, or one of them names it. -/
theorem form_run {args : List String} (done : args.foldlM step s = .ok s') :
    s'.form = s.form ∨ ∃ text ∈ args, s'.Names text := by
  induction args generalizing s with
  | nil => cases done; exact .inl rfl
  | cons arg args ih =>
    rw [List.foldlM_cons] at done
    obtain ⟨next, first, rest⟩ := bind_ok done
    rcases ih rest with kept | ⟨text, mem, names⟩
    · refine (form_step first).imp kept.trans fun names => ⟨arg, List.mem_cons_self, ?_⟩
      rwa [Names, kept]
    · exact .inr ⟨text, List.mem_cons_of_mem _ mem, names⟩

theorem name_command {form : CommandForm} {given : Given} {operands : List String} {c : Command}
    (made : command form given operands = some c) : c.name = form.name := by
  unfold command at made
  split at made <;> cases made <;> rfl

theorem invocation_ok {i : Invocation} (done : s.invocation = .ok i) :
    ∃ form, s.form = some form ∧ i.command.name = form.name := by
  unfold invocation at done
  dsimp only at done
  split at done
  next made _ =>
    cases done
    obtain ⟨form, there, made⟩ := Option.bind_eq_some_iff.mp made
    exact ⟨form, there, name_command made⟩
  next => cases done

end Scan

theorem name_mem_of_parse {args : List String} {i : Invocation} (accepted : parse args = .ok i) :
    i.command.name ∈ args := by
  obtain ⟨last, scanned, finished⟩ := bind_ok accepted
  unfold Scan.finish at finished
  split at finished
  · cases finished
  · obtain ⟨form, there, name⟩ := Scan.invocation_ok finished
    rcases Scan.form_run scanned with kept | ⟨text, mem, names⟩
    · rw [there] at kept
      cases kept
    · rw [Scan.Names, there] at names
      rw [name, Option.some.inj names]
      exact mem

/-! ### The exit codes -/

def Diff.Drifted (w : Workspace) (old new : Path) : Prop :=
  ∃ before after, w.read old = .ok before ∧ w.read new = .ok after ∧ before ≠ after

/-- The files let a command do what it is asked to do. Files that are compared are to be the same. -/
def Succeeds (w : Workspace) (i : Invocation) : Prop :=
  match i.command with
  | .emit descriptor flags =>
    ∃ drawn, (Emission.emit .none .builtin w ⟨descriptor, i.config, flags⟩).2 = .ok drawn
  | .diff old new => ∃ contents, w.read old = .ok contents ∧ w.read new = .ok contents
  | .install version => ∃ document, (Toggle.install w w.cwdPath version).2 = .ok document
  | .toggle enabled _ (some unit) => ∃ outcome, (Toggle.setUnit w unit enabled).2 = .ok outcome
  | .toggle enabled true none =>
    ∃ manifest paths w', Switch.Lists w manifest paths ∧ Switch.Switched enabled w paths w'
  | .toggle enabled false none =>
    ∃ document, (Toggle.setDefault w w.cwdPath enabled).2 = .ok document
  | .status => ∃ status, Status.gather w w.cwdPath = .ok status
  | .uninstall => ∃ document, (Toggle.uninstall w w.cwdPath).2 = .ok document

/-- The exit codes, each with the runs that end with it. -/
structure Coded (w : Workspace) (i : Invocation) (code : ExitCode) : Prop where
  ok : code.number = 0 ↔ Succeeds w i
  emitFailed : code.number = 3 ↔
    (∃ descriptor flags, i.command = .emit descriptor flags) ∧ ¬Succeeds w i
  drift : code.number = 5 ↔ ∃ old new, i.command = .diff old new ∧ Diff.Drifted w old new
  /-- Every other failure. -/
  failure : code.number = 1 ↔ ¬Succeeds w i ∧
    (∀ descriptor flags, i.command ≠ .emit descriptor flags) ∧
      ∀ old new, i.command = .diff old new → ¬Diff.Drifted w old new

section

variable {w : Workspace} {i : Invocation}

def Plain (i : Invocation) : Prop :=
  (∀ descriptor flags, i.command ≠ .emit descriptor flags) ∧ ∀ old new, i.command ≠ .diff old new

theorem coded_ok_of_plain (plain : Plain i) (succeeds : Succeeds w i) : Coded w i .ok where
  ok := by simp [succeeds]
  emitFailed := by simp [succeeds]
  drift := by simp [plain.2]
  failure := by simp [succeeds]

theorem coded_failure_of_plain (plain : Plain i) (fails : ¬Succeeds w i) : Coded w i .failure where
  ok := by simp [fails]
  emitFailed := by simp [plain.1]
  drift := by simp [plain.2]
  failure := by simp [fails, plain.1, plain.2]

variable {old new : Path}

theorem succeeds_diff (asked : i.command = .diff old new) : Succeeds w i ↔
    ∃ contents, w.read old = .ok contents ∧ w.read new = .ok contents := by
  rw [Succeeds, asked]

theorem coded_failure_of_unread (asked : i.command = .diff old new)
    (unread : ∀ before after, w.read old = .ok before → w.read new ≠ .ok after) :
    Coded w i .failure := by
  have fails : ¬Succeeds w i := fun succeeds => by
    obtain ⟨contents, readOld, readNew⟩ := (succeeds_diff asked).mp succeeds
    exact unread _ _ readOld readNew
  have apart : ¬Diff.Drifted w old new :=
    fun ⟨_, _, readOld, readNew, _⟩ => unread _ _ readOld readNew
  constructor <;> simp [asked, fails, apart]

theorem coded_of_read {before after : Files.Bytes} (asked : i.command = .diff old new)
    (readOld : w.read old = .ok before) (readNew : w.read new = .ok after) :
    Coded w i (if before = after then .ok else .drift) := by
  have succeeds : Succeeds w i ↔ before = after := by
    rw [succeeds_diff asked, readOld, readNew]
    simp [eq_comm]
  have drifted : Diff.Drifted w old new ↔ before ≠ after := by
    simp [Diff.Drifted, readOld, readNew]
  by_cases same : before = after
  · rw [if_pos same]
    constructor <;> simp [asked, succeeds, drifted, same]
  · rw [if_neg same]
    constructor <;> simp [asked, succeeds, drifted, same]

end

/-! ### What is printed -/

/-- What a command comes to in JSON mode: with its exit code it has printed one envelope, and where it
fails it has printed nothing. The exit code is one that is due; for a failure it is the common one. -/
inductive Meets (command : String) (due : ExitCode → Prop) (s : Session) :
    EStateM.Result Failure Session ExitCode → Prop
  | success {code : ExitCode} {s' : Session} (coded : due code) (good : code = .ok ∨ code = .drift)
      (data : Json.Value)
      (printed : s'.out = s.out ++ ((Envelope.mk command true data).text ++ "\n")) :
      Meets command due s (.ok code s')
  | refusal {code : ExitCode} {s' : Session} (coded : due code)
      (bad : code = .failure ∨ code = .emitFailed) (data : Json.Value)
      (printed : s'.out = s.out ++ ((Envelope.mk command false data).text ++ "\n")) :
      Meets command due s (.ok code s')
  | failure {failure : Failure} {s' : Session} (coded : due .failure) (silent : s'.out = s.out) :
      Meets command due s (.error failure s')

section

variable {theme : Theme} {i : Invocation} {s : Session}

theorem meets_change {α : Type} {command : String} {f : Workspace → Workspace × Except Failure α}
    (plain : Plain i) (succeeds : Succeeds s.files i ↔ ∃ a, (f s.files).2 = .ok a)
    (data : Session → α → Json.Value) :
    Meets command (Coded s.files i) s (EStateM.run (do
      let a ← change f
      emitSuccess .json command (data (← get) a)
      return ExitCode.ok) s) := by
  rw [EStateM.run_bind, run_change]
  cases step : f s.files with
  | mk files result =>
    rw [step] at succeeds
    cases result with
    | error failure =>
      exact .failure (coded_failure_of_plain plain (by simp [succeeds])) rfl
    | ok a => exact .success (coded_ok_of_plain plain (succeeds.mpr ⟨a, rfl⟩)) (.inl rfl) _ rfl

theorem meets_emit {descriptor : Path} {flags : Overrides}
    (asked : i.command = .emit descriptor flags) :
    Meets "emit" (Coded s.files i) s
      ((Emit.run .none theme .json ⟨descriptor, i.config, flags⟩).run s) := by
  have succeeds : Succeeds s.files i ↔ ∃ drawn,
      (Emission.emit .none .builtin s.files ⟨descriptor, i.config, flags⟩).2 = .ok drawn := by
    rw [Succeeds, asked]
  cases step : Emission.emit .none .builtin s.files ⟨descriptor, i.config, flags⟩ with
  | mk files result =>
    rw [step] at succeeds
    cases result with
    | error failure =>
      obtain ⟨s', ran, _, printed⟩ := Emit.run_of_emit_error theme .json step
      obtain ⟨data, printed⟩ := printed rfl
      rw [ran]
      refine .refusal ?_ (.inr rfl) data printed
      constructor <;> simp [asked, succeeds]
    | ok drawn =>
      rw [Emit.run_of_emit_ok step]
      refine .success ?_ (.inl rfl) _ rfl
      constructor <;> simp [asked, succeeds]

theorem meets_diff {old new : Path} (asked : i.command = .diff old new) :
    Meets "diff" (Coded s.files i) s ((Diff.run theme .json old new).run s) := by
  rw [Diff.run, EStateM.run_bind, EStateM.run_get]
  dsimp only
  by_cases read : ∃ before after, s.files.read old = .ok before ∧ s.files.read new = .ok after
  · obtain ⟨before, after, readOld, readNew⟩ := read
    have coded := coded_of_read asked readOld readNew
    rw [Drift.compare, Drift.compareUnder_of_read readOld readNew]
    by_cases same : before = after
    · rw [if_pos same] at coded ⊢
      exact .success coded (.inl rfl) _ rfl
    · rw [if_neg same] at coded ⊢
      exact .success coded (.inr rfl) _ rfl
  · have coded : Coded s.files i .failure :=
      coded_failure_of_unread asked fun _ _ readOld readNew => read ⟨_, _, readOld, readNew⟩
    cases compared : Drift.compare s.files old new with
    | ok r => exact absurd (Drift.read_of_compareUnder compared) read
    | error failure =>
      cases failure with
      | notFound path => exact .refusal coded (.inl rfl) _ rfl
      | _ => exact .failure coded rfl

theorem meets_install {version : String} (asked : i.command = .install version) :
    Meets "install" (Coded s.files i) s ((runInstall theme .json version).run s) := by
  have plain : Plain i := by simp [Plain, asked]
  exact meets_change plain (by rw [Succeeds, asked]) fun _ document => _

namespace Switch

theorem meets_runProject {enabled solution : Bool} {unit : Path}
    (asked : i.command = .toggle enabled solution (some unit)) :
    Meets (name enabled) (Coded s.files i) s ((runProject theme .json enabled unit).run s) := by
  have plain : Plain i := by simp [Plain, asked]
  exact meets_change plain (by rw [Succeeds, asked])
    fun s _ => unitsData enabled "project" [shown s.files unit]

theorem meets_runDefault {enabled : Bool} (asked : i.command = .toggle enabled false none) :
    Meets (name enabled) (Coded s.files i) s ((runDefault theme .json enabled).run s) := by
  have plain : Plain i := by simp [Plain, asked]
  exact meets_change plain (by rw [Succeeds, asked]) fun _ _ => _

theorem meets_runSolution {enabled : Bool} (asked : i.command = .toggle enabled true none) :
    Meets (name enabled) (Coded s.files i) s ((runSolution theme .json enabled).run s) := by
  have plain : Plain i := by simp [Plain, asked]
  have succeeds : Succeeds s.files i ↔
      ∃ manifest paths w', Lists s.files manifest paths ∧ Switched enabled s.files paths w' := by
    rw [Succeeds, asked]
  have course := runSolution_course theme .json enabled s
  generalize (runSolution theme .json enabled).run s = result at course ⊢
  cases course with
  | switched lists switched printed =>
    obtain ⟨data, printed⟩ := printed rfl
    exact .success (coded_ok_of_plain plain (succeeds.mpr ⟨_, _, _, lists, switched⟩)) (.inl rfl)
      data printed
  | noManifest unlisted files printed =>
    obtain ⟨data, printed⟩ := printed rfl
    exact .refusal (coded_failure_of_plain plain (by simp [succeeds, unlisted])) (.inl rfl) data printed
  | unlisted unlisted =>
    exact .failure (coded_failure_of_plain plain (by simp [succeeds, unlisted])) rfl
  | stopped lists switched refused silent =>
    refine .failure (coded_failure_of_plain plain fun good => ?_) (silent rfl)
    obtain ⟨manifest, paths, w', others, all⟩ := succeeds.mp good
    cases lists.1.symm.trans others.1
    cases lists.2.symm.trans others.2
    cases switched.later all with
    | cons set => cases refused.symm.trans set

end Switch

theorem meets_status (asked : i.command = .status) :
    Meets "status" (Coded s.files i) s ((Overview.run theme .json).run s) := by
  have plain : Plain i := by simp [Plain, asked]
  have succeeds : Succeeds s.files i ↔ ∃ status, Status.gather s.files s.files.cwdPath = .ok status := by
    rw [Succeeds, asked]
  rw [Overview.run, EStateM.run_bind, run_look]
  cases gathered : Status.gather s.files s.files.cwdPath with
  | error failure =>
    exact .failure (coded_failure_of_plain plain (by simp [succeeds, gathered])) rfl
  | ok status =>
    exact .success (coded_ok_of_plain plain (succeeds.mpr ⟨status, gathered⟩)) (.inl rfl) _ rfl

theorem meets_uninstall (asked : i.command = .uninstall) :
    Meets "uninstall" (Coded s.files i) s ((runUninstall theme .json).run s) := by
  have plain : Plain i := by simp [Plain, asked]
  exact meets_change plain (by rw [Succeeds, asked]) fun _ _ => _

theorem name_toggle (enabled solution : Bool) (project : Option Path) :
    (Command.toggle enabled solution project).name = Switch.name enabled := by
  cases enabled <;> rfl

theorem meets_perform (theme : Theme) (s : Session) (json : i.mode = .json) :
    Meets i.command.name (Coded s.files i) s ((perform theme i).run s) := by
  rw [perform, json]
  split
  next descriptor flags asked => rw [asked]; exact meets_emit asked
  next old new asked => rw [asked]; exact meets_diff asked
  next version asked => rw [asked]; exact meets_install asked
  next enabled solution project asked =>
    rw [asked, name_toggle]
    cases project with
    | some unit => exact Switch.meets_runProject asked
    | none =>
      cases solution with
      | true => exact Switch.meets_runSolution asked
      | false => exact Switch.meets_runDefault asked
  next asked => rw [asked]; exact meets_status asked
  next asked => rw [asked]; exact meets_uninstall asked

end

/-- What the program owes in JSON mode. -/
structure Answered (w : Workspace) (args : List String) (i : Invocation) (reply : Reply) :
    Prop where
  named : i.command.name ∈ args
  /-- One envelope and the end of its line. -/
  printed : ∃ ok data,
    reply.out = (Envelope.mk i.command.name ok data).text ++ "\n" ∧
      (ok = true ↔ reply.code.number = 0 ∨ reply.code.number = 5)
  coded : Coded w i reply.code

theorem execute_json (theme : Theme) (w : Workspace) {i : Invocation} (json : i.mode = .json) :
    (∃ ok data, (execute theme w i).2.out = (Envelope.mk i.command.name ok data).text ++ "\n" ∧
        (ok = true ↔
          (execute theme w i).2.code.number = 0 ∨ (execute theme w i).2.code.number = 5)) ∧
      Coded w i (execute theme w i).2.code := by
  have meets := meets_perform theme ⟨w, "", ""⟩ json
  rw [execute]
  generalize (perform theme i).run ⟨w, "", ""⟩ = result at meets ⊢
  cases meets with
  | success coded good data printed =>
    refine ⟨⟨true, data, printed.trans String.empty_append, ?_⟩, coded⟩
    rcases good with rfl | rfl <;> simp
  | refusal coded bad data printed =>
    refine ⟨⟨false, data, printed.trans String.empty_append, ?_⟩, coded⟩
    rcases bad with rfl | rfl <;> simp
  | @failure failure s' coded silent =>
    refine ⟨⟨false, errorData failure.fullMessage, ?_, by simp⟩, coded⟩
    simp only [report, json, OutputMode.isHuman_json, Bool.false_eq_true, if_false,
      Session.out_printEnvelope, silent, String.empty_append]

end CommandLine

end ClassDiagram
