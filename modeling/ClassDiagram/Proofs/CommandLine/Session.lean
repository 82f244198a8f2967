import ClassDiagram.CommandLine.Run

/-! How the parts of a command run. Each part has one equation, and a command is evaluated with
them step by step. -/

namespace ClassDiagram

@[simp] theorem OutputMode.isHuman_json : OutputMode.json.isHuman = false := rfl

namespace CommandLine

open Files (Workspace)

namespace Session

variable (s : Session) (text command : String) (ok : Bool) (data : Json.Value)

@[simp] theorem files_printLine : (s.printLine text).files = s.files := rfl

theorem out_printEnvelope : (s.printEnvelope command ok data).out =
    s.out ++ ((Envelope.mk command ok data).text ++ "\n") := rfl

end Session

section

variable {α : Type} {s : Session}

@[simp] theorem run_look (f : Workspace → Except Failure α) :
    (look f).run s = match f s.files with
      | .ok a => .ok a s
      | .error failure => .error failure s := rfl

@[simp] theorem run_change (f : Workspace → Workspace × Except Failure α) :
    (change f).run s = match f s.files with
      | (files, .ok a) => .ok a { s with files }
      | (files, .error failure) => .error failure { s with files } := rfl

@[simp] theorem run_tryCatch (m : Task α) (handle : Failure → Task α) :
    (tryCatch m handle).run s = match m.run s with
      | .ok a s' => .ok a s'
      | .error failure s' => (handle failure).run s' := by
  change EStateM.tryCatch m handle s = _
  delta EStateM.tryCatch EStateM.run
  cases m s <;> rfl

end

section

variable (theme : Theme) (mode : OutputMode) (command : String) (failure : Failure) (s : Session)

@[simp] theorem files_report : (report theme mode command failure s).files = s.files := by
  unfold report
  split <;> rfl

end

namespace Emit

variable {faults : Writer.Faults} {theme : Theme} {mode : OutputMode} {r : Emission.Request}
  {s : Session} {files : Workspace}

/-- What is printed of a diagram that is drawn. -/
def told (theme : Theme) (r : Emission.Request) (p : Emission.Plan) (outcome : Writer.Outcome) :
    OutputMode → String
  | .human => line theme p.settings.out outcome
  | .json => (Envelope.mk "emit" true (data r.descriptor p outcome)).text

theorem run_of_emit_ok {p : Emission.Plan} {outcome : Writer.Outcome}
    (drawn : Emission.emit faults .builtin s.files r = (files, .ok (p, outcome))) :
    (run faults theme mode r).run s =
      .ok .ok (Session.printLine { s with files } (told theme r p outcome mode)) := by
  rw [run, run_tryCatch, EStateM.run_bind, draw, EStateM.run_bind, run_change, drawn]
  cases mode <;> rfl

theorem run_of_emit_error (theme : Theme) (mode : OutputMode) {failure : Failure}
    (refused : Emission.emit faults .builtin s.files r = (files, .error failure)) :
    ∃ s', (run faults theme mode r).run s = .ok .emitFailed s' ∧ s'.files = files ∧
      (mode = .json → ∃ data, s'.out = s.out ++ ((Envelope.mk "emit" false data).text ++ "\n")) := by
  rw [run, run_tryCatch, EStateM.run_bind, draw, EStateM.run_bind, run_change, refused]
  cases mode with
  | human => exact ⟨_, rfl, rfl, nofun⟩
  | json => exact ⟨_, rfl, rfl, fun _ => ⟨_, rfl⟩⟩

end Emit

end CommandLine

end ClassDiagram
