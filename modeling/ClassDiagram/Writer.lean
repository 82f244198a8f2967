import ClassDiagram.Drift

/-! Writing a file only if it changes. The content first goes to a new file beside the target.
If the target holds the same bytes, the new file is dropped and the target stays as it is;
otherwise the new file is moved over the target. So the target holds either what it held before
or the whole content, at any time. Every operation on files may fail; what has been written
beside the target is then dropped. -/

namespace ClassDiagram.Writer

open Files (Bytes IoCause Location Tree Workspace)

inductive Outcome where
  | unchanged
  | written
  deriving DecidableEq

def Outcome.label : Outcome → String
  | unchanged => "unchanged"
  | written => "wrote"

/-- What goes wrong beyond what the files themselves forbid, and how reads fall. -/
structure Faults where
  /-- So many folders are made, then the next one fails. -/
  folders : Option (Nat × IoCause)
  create : Option IoCause
  /-- So many bytes are written, then the rest fails. -/
  fill : Option (Nat × IoCause)
  compare : Option IoCause
  metadata : Option IoCause
  permissions : Option IoCause
  replace : Option IoCause
  oldReads : List Drift.ReadEvent
  newReads : List Drift.ReadEvent

namespace Faults

/-- Nothing goes wrong; only the reads fall as they like. -/
def reads (oldReads newReads : List Drift.ReadEvent) : Faults :=
  ⟨.none, .none, .none, .none, .none, .none, .none, oldReads, newReads⟩

def none : Faults := reads [] []

end Faults

structure Run where
  /-- The tree after each operation that changes it. -/
  trees : List Tree
  /-- Whether a new file has been moved over the target. -/
  moved : Bool
  result : Except Failure Outcome

namespace Run

def fails (failure : Failure) : Run := ⟨[], false, .error failure⟩

def after (trees : List Tree) (r : Run) : Run := { r with trees := trees ++ r.trees }

end Run

def latest (before : Tree) (trees : List Tree) : Tree := trees.getLastD before

def targetFolder (target : Path) : Path :=
  if target.folder.text == "" then ⟨"."⟩ else target.folder

def makeFolders (faults : Faults) (w : Workspace) (folder : Path) : List Tree × Option IoCause :=
  match faults.folders with
  | some (made, cause) => ((w.makeFolders folder).1.take made, some cause)
  | none => w.makeFolders folder

/-- The names that a new file may get, all of different lengths. The first one is as long as a
name with six letters drawn by lot. -/
def draftName (k : Nat) : String := ".tmp" ++ "".pushn 'x' (k + 6)

/-- The shortest name for a new file that is none of the others. Among one name more than there
are others, one is new. -/
def freshName (others : List String) : String :=
  (((List.range (others.length + 1)).map draftName).find? fun name => !others.contains name).getD
    (draftName 0)

structure Draft where
  path : Path
  loc : Location

/-- The path of a new file in a folder that holds the given names. Its own name is none of them, and
the way to the target does not lead through it. -/
def draftPath (w : Workspace) (folder target : Path) (names : List String) : Path :=
  folder.joinName (freshName (w.cwd ++ target.segments ++ names))

/-- The system is asked for the new file by its path from the root. -/
def draft (faults : Faults) (w : Workspace) (folder target : Path) : Except IoCause Draft :=
  match faults.create, w.list folder with
  | some cause, _ => .error cause
  | none, .error cause => .error cause
  | none, .ok names =>
    if Workspace.pathLimit <
        (w.cwdPath.join (draftPath w folder target names)).text.utf8ByteSize then
      .error .nameTooLong
    else match w.resolve (draftPath w folder target names) with
      | .ok (.free loc _) => .ok ⟨draftPath w folder target names, loc⟩
      | .ok (.present _ _) => .error .occupied
      | .error cause => .error cause

def differs (faults : Faults) (w : Workspace) (target : Path) (d : Draft) :
    Except Failure Bool :=
  if w.holds target then
    match faults.compare with
    | some cause => .error (Drift.fault target cause)
    | none => do
      let same ← Drift.filesEqual w target d.path faults.oldReads faults.newReads
      return !same
  else .ok true

def keepPermissions (faults : Faults) (w : Workspace) (target : Path) (d : Draft) :
    Except Failure Unit :=
  if w.holds target then
    match faults.metadata, faults.permissions with
    | some cause, _ => .error (.io target cause)
    | none, some cause => .error (.io d.path cause)
    | none, none => .ok ()
  else .ok ()

def replace (faults : Faults) (w : Workspace) (target : Path) (d : Draft) (bytes : Bytes) :
    Except Failure Tree :=
  match keepPermissions faults w target d with
  | .error failure => .error failure
  | .ok () =>
    match faults.replace, w.moveTarget target with
    | some cause, _ => .error (.io target cause)
    | none, .error cause => .error (.io target cause)
    | none, .ok loc => .ok ((w.tree.erase d.loc).place loc (.file bytes))

def settle (faults : Faults) (w : Workspace) (target : Path) (d : Draft) (bytes : Bytes) : Run :=
  let dropped := w.tree.erase d.loc
  match differs faults w target d with
  | .error failure => ⟨[dropped], false, .error failure⟩
  | .ok false => ⟨[dropped], false, .ok .unchanged⟩
  | .ok true =>
    match replace faults w target d bytes with
    | .error failure => ⟨[dropped], false, .error failure⟩
    | .ok replaced => ⟨[replaced], true, .ok .written⟩

def fill (faults : Faults) (w : Workspace) (target : Path) (d : Draft) (bytes : Bytes) : Run :=
  let opened := w.tree.place d.loc (.file [])
  match faults.fill with
  | some (count, cause) =>
    let partly := w.tree.place d.loc (.file (bytes.take count))
    ⟨[opened, partly, partly.erase d.loc], false, .error (.io d.path cause)⟩
  | none =>
    let filled := w.tree.place d.loc (.file bytes)
    (settle faults (w.onTree filled) target d bytes).after [opened, filled]

def save (faults : Faults) (w : Workspace) (target : Path) (bytes : Bytes) : Run :=
  match draft faults w (targetFolder target) target with
  | .error cause => .fails (.io (targetFolder target) cause)
  | .ok d => fill faults w target d bytes

/-- Writes a text to a file unless the file holds just its bytes. -/
def run (faults : Faults) (w : Workspace) (target : Path) (content : String) : Run :=
  match makeFolders faults w (targetFolder target) with
  | (trees, some cause) => (Run.fails (.io (targetFolder target) cause)).after trees
  | (trees, none) =>
    (save faults (w.onTree (latest w.tree trees)) target (Workspace.utf8 content)).after trees

/-- A write, with the files that it leaves. -/
def writeUnder (faults : Faults) (w : Workspace) (target : Path) (content : String) :
    Workspace × Except Failure Outcome :=
  (w.onTree (latest w.tree (run faults w target content).trees), (run faults w target content).result)

def write : Workspace → Path → String → Workspace × Except Failure Outcome := writeUnder .none

end ClassDiagram.Writer
