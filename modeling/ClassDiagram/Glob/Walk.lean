import ClassDiagram.Files.Workspace
import ClassDiagram.Glob.Matching

/-! The files and folders that a pattern of paths matches. A relative pattern starts in the
working folder, and names found there are paths by themselves. -/

namespace ClassDiagram.Glob

open Files (Workspace)

def parts? (pattern : Path) : Option (List Part) :=
  let segments := pattern.segments
  let named := if segments.getLast? = some "" then segments.dropLast else segments
  named.mapM fun segment => part? segment.toList

/-- Folders in each other, again and again, are the same as once. -/
def collapse : List Part → List Part
  | .folders :: .folders :: rest => collapse (.folders :: rest)
  | part :: rest => part :: collapse rest
  | [] => []

def isHere (p : Path) : Bool := p.same ⟨"."⟩

def inside (folder : Path) (name : String) : Path :=
  if isHere folder then ⟨name⟩ else folder.joinName name

def children (w : Workspace) (folder : Path) : List (Path × String) :=
  match w.list folder with
  | .ok names => (names.mergeSort (· ≤ ·)).map fun name => (inside folder name, name)
  | .error _ => []

def descendants (w : Workspace) : Nat → Path → List (Path × String)
  | 0, _ => []
  | depth + 1, folder =>
    (children w folder).flatMap fun child =>
      child :: if w.isFolder child.1 then descendants w depth child.1 else []

def depth (w : Workspace) : Nat :=
  w.tree.entries.foldl (fun deepest e => max deepest e.1.length) 0

def isSpecial (name : String) : Bool := name == "." || name == ".."

def leads (w : Workspace) (p : Path) (name : String) : Bool :=
  if isSpecial name then w.isFolder p else w.holds (inside p name)

/-- The folders `.` and `..` are found only by patterns that start with a dot. -/
def specials : List Token → List String
  | tokens@(.char '.' :: _) => ["..", "."].filter fun name => fits tokens name.toList
  | _ => []

def expand (w : Workspace) : List Part → Path → List Path
  | [], p => [p]
  | [.folders], p => ((descendants w (depth w) p).map Prod.fst).filter w.isFolder
  | .folders :: .folders :: _, _ => []
  | .folders :: .name tokens :: rest, p =>
    (descendants w (depth w) p).flatMap fun (q, name) =>
      if fits tokens name.toList then expand w rest q else []
  | .name tokens :: rest, p =>
    match literal? tokens with
    | some cs =>
      if leads w p (String.ofList cs) then expand w rest (inside p (String.ofList cs)) else []
    | none =>
      if !w.isFolder p then []
      else
        ((specials tokens).flatMap fun name => expand w rest (p.joinName name)) ++
          (children w p).flatMap fun (q, name) =>
            if fits tokens name.toList then expand w rest q else []

def byComponents (p q : Path) : Bool := !q.precedes p

/-- The matches of a path pattern, in order; none for an invalid pattern. A slash at the end asks
for folders. Paths of the same components stay in the order in which they are found. -/
def matches? (w : Workspace) (pattern : Path) : Option (List Path) :=
  (parts? pattern).map fun parts =>
    let start : Path := if pattern.isAbsolute then ⟨"/"⟩ else ⟨"."⟩
    let found := expand w (collapse parts) start
    let wanted := if pattern.text.endsWith "/" then found.filter w.isFolder else found
    wanted.mergeSort byComponents

end ClassDiagram.Glob
