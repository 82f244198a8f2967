import ClassDiagram.Path
import ClassDiagram.Files.Tree

/-! A tree of files seen from a folder, and what the operating system answers about a path
there. A path is walked segment by segment: every segment but the last has to name a folder,
`..` goes up, and a slash at the end asks for a folder. All questions are answered from the
spot that the walk ends on. -/

namespace ClassDiagram.Files

inductive IoCause where
  | missing
  | occupied
  | notFolder
  | isFolder
  | busy
  | invalid
  | nameTooLong
  | nulInPath
  | notUtf8
  deriving DecidableEq

namespace IoCause

def message : IoCause → String
  | missing => "No such file or directory (os error 2)"
  | occupied => "File exists (os error 17)"
  | notFolder => "Not a directory (os error 20)"
  | isFolder => "Is a directory (os error 21)"
  | busy => "Device or resource busy (os error 16)"
  | invalid => "Invalid argument (os error 22)"
  | nameTooLong => "File name too long (os error 36)"
  | nulInPath => "file name contained an unexpected NUL byte"
  | notUtf8 => "stream did not contain valid UTF-8"

end IoCause

/-- Where a path leads: to an entry, or to a name that is free in an existing folder. -/
inductive Spot where
  | present (loc : Location) (entry : Entry)
  | free (loc : Location) (slashed : Bool)

structure Workspace where
  tree : Tree
  cwd : Location

namespace Workspace

def cwdPath (w : Workspace) : Path := ⟨"/" ++ "/".intercalate w.cwd⟩

def nameLimit : Nat := 255

def pathLimit : Nat := 4095

/-- A folder on a walk, with what lies in it as seen from there, and the same for the folders
above it. -/
structure Stand where
  loc : Location
  view : List (Location × Entry)
  above : List (List (Location × Entry))

namespace Stand

def root (t : Tree) : Stand := ⟨[], t.entries, []⟩

def down (s : Stand) (name : String) : Stand :=
  ⟨s.loc ++ [name], Tree.inFolder name s.view, s.view :: s.above⟩

/-- Above the root is the root again. -/
def up (s : Stand) : Stand :=
  match s.above with
  | [] => s
  | view :: above => ⟨s.loc.dropLast, view, above⟩

end Stand

def walk (s : Stand) : Entry → List String → Except IoCause Spot
  | entry, [] => .ok (.present s.loc entry)
  | .file _, _ :: _ => .error .notFolder
  | .folder, segment :: rest =>
    if Path.isIdle segment then walk s .folder rest
    else if segment = ".." then walk s.up .folder rest
    else if nameLimit < segment.utf8ByteSize then .error .nameTooLong
    else match Tree.findIn [segment] s.view with
      | some entry => walk (s.down segment) entry rest
      | none =>
        if rest.all (· == "") then .ok (.free (s.loc ++ [segment]) (!rest.isEmpty))
        else .error .missing

def hasNul (p : Path) : Bool := p.text.toList.contains '\x00'

def resolve (w : Workspace) (p : Path) : Except IoCause Spot :=
  if hasNul p then .error .nulInPath
  else if p.text == "" then .error .missing
  else if pathLimit < p.text.utf8ByteSize then .error .nameTooLong
  else
    let root := Stand.root w.tree
    walk (if p.isAbsolute then root else w.cwd.foldl Stand.down root) .folder p.segments

def entry (w : Workspace) (p : Path) : Except IoCause Entry :=
  match w.resolve p with
  | .ok (.present _ e) => .ok e
  | .ok (.free _ _) => .error .missing
  | .error cause => .error cause

def holds (w : Workspace) (p : Path) : Bool := (w.entry p).toBool

def isFile (w : Workspace) (p : Path) : Bool :=
  match w.entry p with
  | .ok (.file _) => true
  | _ => false

def isFolder (w : Workspace) (p : Path) : Bool :=
  match w.entry p with
  | .ok .folder => true
  | _ => false

def read (w : Workspace) (p : Path) : Except IoCause Bytes :=
  match w.entry p with
  | .ok (.file bytes) => .ok bytes
  | .ok .folder => .error .isFolder
  | .error cause => .error cause

def text? (bytes : Bytes) : Option String := String.fromUTF8? ⟨bytes.toArray⟩

def utf8 (text : String) : Bytes := text.toUTF8.toList

def readText (w : Workspace) (p : Path) : Except IoCause String :=
  match w.read p with
  | .ok bytes => match text? bytes with
    | some text => .ok text
    | none => .error .notUtf8
  | .error cause => .error cause

def folderSize : Nat := 4096

def size (w : Workspace) (p : Path) : Except IoCause Nat :=
  match w.entry p with
  | .ok (.file bytes) => .ok bytes.length
  | .ok .folder => .ok folderSize
  | .error cause => .error cause

def list (w : Workspace) (p : Path) : Except IoCause (List String) :=
  match w.resolve p with
  | .ok (.present loc .folder) => .ok (w.tree.names loc)
  | .ok (.present _ (.file _)) => .error .notFolder
  | .ok (.free _ _) => .error .missing
  | .error cause => .error cause

def makeFolder (w : Workspace) (p : Path) : Except IoCause Tree :=
  match w.resolve p with
  | .ok (.present _ _) => .error .occupied
  | .ok (.free loc _) => .ok (w.tree.place loc .folder)
  | .error cause => .error cause

def onTree (w : Workspace) (t : Tree) : Workspace := { w with tree := t }

/-- Makes the folders of a chain, outermost first. One that is already there is no fault. Gives
the tree after each folder that is made. -/
def makeEach (w : Workspace) : List Path → List Tree × Option IoCause
  | [] => ([], none)
  | p :: ps =>
    match w.makeFolder p with
    | .ok t =>
      let (later, cause) := makeEach (w.onTree t) ps
      (t :: later, cause)
    | .error cause =>
      if cause = .occupied && w.isFolder p then makeEach w ps else ([], some cause)

/-- The folders to be made for a path, innermost first: from the path up to the first ancestor
that is there already, or cannot be made. -/
def unmade (w : Workspace) : List Path → Except IoCause (List Path)
  | [] => .ok []
  | p :: ps =>
    if p.text == "" then .ok []
    else match w.makeFolder p with
      | .ok _ => .ok [p]
      | .error .missing => (unmade w ps).map (p :: ·)
      | .error cause => if cause = .occupied && w.isFolder p then .ok [] else .error cause

def makeFolders (w : Workspace) (p : Path) : List Tree × Option IoCause :=
  match w.unmade p.ancestors with
  | .error cause => ([], some cause)
  | .ok ps => w.makeEach ps.reverse

/-- Whether the last segment names an entry of its own: it is there, and neither `.` nor `..`. -/
def endsInName (p : Path) : Bool :=
  match (p.segments.reverse.dropWhile (· == "")).head? with
  | some segment => segment != "." && segment != ".."
  | none => false

/-- Where a file that is moved to `p` comes to lie. A slash at the end asks for a folder, which
a file is not. -/
def moveTarget (w : Workspace) (p : Path) : Except IoCause Location :=
  if hasNul p then .error .invalid
  else match w.resolve p with
  | .error cause => .error cause
  | .ok (.present loc entry) =>
    if !endsInName p then .error .busy
    else if p.text.endsWith "/" then .error .notFolder
    else match entry with
      | .folder => .error .isFolder
      | .file _ => .ok loc
  | .ok (.free loc slashed) => if slashed then .error .notFolder else .ok loc

theorem readText_of_read {w : Workspace} {p : Path} {bytes : Bytes} {text : String}
    (read : w.read p = .ok bytes) (decoded : text? bytes = some text) :
    w.readText p = .ok text := by
  simp [readText, read, decoded]

end Workspace

end ClassDiagram.Files
