import ClassDiagram.CommandLine.Run

/-! The program on a real machine. The files that a command may look at are read into a tree
first; then the command runs on the tree, and what it has changed there is written back. -/

namespace ClassDiagram.Machine

open Files (Bytes Entry Location Tree Workspace)

def pathText (loc : Location) : String := "/" ++ "/".intercalate loc

def look (loc : Location) : IO (Option Entry) := do
  let path := (← IO.currentDir) / pathText loc
  try
    match (← path.metadata).type with
    | .dir => return some .folder
    | .file => return some (.file (← IO.FS.readBinFile path).data.toList)
    | _ => return none
  catch _ => return none

def names (loc : Location) : IO (List String) := do
  let path := (← IO.currentDir) / pathText loc
  try return (← path.readDir).toList.map fun entry => entry.fileName
  catch _ => return []

def add (t : Tree) (loc : Location) : IO Tree := do
  if (t.find? loc).isSome then return t
  match ← look loc with
  | some entry => return t.place loc entry
  | none => return t

def addFolder (t : Tree) (loc : Location) : IO Tree := do
  (← names loc).foldlM (fun t name => add t (loc ++ [name])) t

/-- Adds a folder and all below it, but nothing in the store of a repository. -/
partial def addAll (t : Tree) (loc : Location) : IO Tree := do
  if loc.getLast? = some ".git" then return t
  let t ← addFolder t loc
  (← names loc).foldlM (fun t name => do
    match t.find? (loc ++ [name]) with
    | some .folder => addAll t (loc ++ [name])
    | _ => return t) t

def addPath (cwd : Location) (t : Tree) (path : Path) : IO (Tree × Location) := do
  let start := if path.isAbsolute then [] else cwd
  path.components.foldlM (fun (t, loc) component => do
    match component with
    | .name name => return (← add t (loc ++ [name]), loc ++ [name])
    | .up => return (t, loc.dropLast)
    | _ => return (t, loc)) (t, start)

def addStart (cwd : Location) : IO Tree := do
  let (t, _) ← addPath cwd .empty ⟨pathText cwd⟩
  let t ← (List.range (cwd.length + 1)).foldlM (fun t n => do
    let t ← add t (cwd.take n ++ [".git"])
    add t (cwd.take n ++ [Places.documentName])) t
  addFolder t cwd

/-- The folder that an entry of a manifest leads to, up to the first pattern in it. -/
def fixedPart (path : Path) : Path :=
  let fixed := path.segments.takeWhile fun segment => !Glob.isPattern segment
  Path.ofTrailing path.isAbsolute fixed.reverse

def addManifest (cwd : Location) (t : Tree) (path : Path) : IO Tree := do
  match ((Workspace.mk t cwd).readText path).toOption.bind Manifest.entries? with
  | none => return t
  | some entries => entries.foldlM (fun t entry => do
    let unit := path.folder.joinName entry
    if Glob.isPattern entry then
      let (t, loc) ← addPath cwd t (fixedPart unit)
      addAll t loc
    else
      let (t, _) ← addPath cwd t unit
      let (t, loc) ← addPath cwd t unit.folder
      addFolder t loc) t

def addBeside (cwd : Location) (t : Tree) (path : Path) : IO Tree := do
  let (t, _) ← addPath cwd t path
  let (t, loc) ← addPath cwd t path.folder
  let t ← addFolder t loc
  if Descriptor.kind? path = some .aggregate then addManifest cwd t path else return t

def paths (i : CommandLine.Invocation) : List Path :=
  match i.command with
  | .emit descriptor _ => descriptor :: i.config.toList
  | .diff old new => [old, new]
  | .toggle _ _ project => project.toList
  | .install _ | .status | .uninstall => []

def target? (w : Workspace) (i : CommandLine.Invocation) : Option Path :=
  match i.command with
  | .emit descriptor flags =>
    match Emission.plan .builtin w ⟨descriptor, i.config, flags⟩ with
    | .ok plan => some plan.settings.out
    | .error _ => none
  | _ => none

def survey (args : List String) : IO Workspace := do
  let cwd := (Path.segments ⟨toString (← IO.currentDir)⟩).filter fun s => !Path.isIdle s
  let t ← addStart cwd
  match CommandLine.parse args with
  | .error _ => return ⟨t, cwd⟩
  | .ok i =>
    let t ← (paths i).foldlM (addBeside cwd) t
    let w : Workspace := ⟨t, cwd⟩
    let manifest := (Places.manifest? w w.cwdPath).toOption.bind id
    let t ← manifest.toList.foldlM (addManifest cwd) t
    let t ← (target? ⟨t, cwd⟩ i).toList.foldlM (addBeside cwd) t
    return ⟨t, cwd⟩

/-- Writes a file beside its target first, and then moves it there. -/
def writeFile (loc : Location) (bytes : Bytes) : IO Unit := do
  let draft := pathText loc ++ ".new"
  IO.FS.writeBinFile draft ⟨bytes.toArray⟩
  IO.FS.rename draft (pathText loc)

def writeBack (before after : Tree) : IO Unit :=
  after.entries.forM fun (loc, entry) => do
    if before.find? loc ≠ some entry then
      match entry with
      | .folder => IO.FS.createDir (pathText loc)
      | .file bytes => writeFile loc bytes

def theme : IO Theme := do
  return .detect (← IO.getEnv "NO_COLOR") (← (← IO.getStdout).isTty)

end ClassDiagram.Machine

open ClassDiagram in
def main (args : List String) : IO UInt32 := do
  let w ← Machine.survey args
  let (after, reply) := CommandLine.respond (← Machine.theme) w args
  Machine.writeBack w.tree after.tree
  IO.print reply.out
  IO.eprint reply.err
  return reply.code.number.toUInt32
