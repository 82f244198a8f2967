import ClassDiagram.Text.Split

/-! Paths as texts, with the lexical rules on them. A path is a list of segments between
slashes; empty segments and `.` segments carry no meaning, apart from a `.` that opens a
relative path. Two paths are the same when their components are. Nothing here looks at a
file: `..` stays where it stands. -/

namespace ClassDiagram

structure Path where
  text : String
  deriving DecidableEq, Inhabited

namespace Path

inductive Component where
  | root
  | here
  | up
  | name (text : String)
  deriving DecidableEq

namespace Component

/-- Rank of the kinds of component in the order of paths, then the name. -/
def key : Component → Nat × String
  | root => (0, "")
  | here => (1, "")
  | up => (2, "")
  | name text => (3, text)

def text : Component → String
  | root => "/"
  | here => "."
  | up => ".."
  | name text => text

def precedes (a b : Component) : Bool :=
  a.key.1 < b.key.1 || (a.key.1 == b.key.1 && a.key.2 < b.key.2)

end Component

def isAbsolute (p : Path) : Bool := p.text.startsWith "/"

/-- The segments between slashes, the opening slash of an absolute path apart. -/
def segments (p : Path) : List String :=
  if p.isAbsolute then (Text.split '/' p.text).drop 1 else Text.split '/' p.text

def isIdle (segment : String) : Bool := segment == "" || segment == "."

def Component.ofSegment (segment : String) : Component :=
  if segment = ".." then .up else .name segment

def components (p : Path) : List Component :=
  let meaningful := fun ss : List String =>
    (ss.filter fun s => !isIdle s).map Component.ofSegment
  if p.isAbsolute then .root :: meaningful p.segments
  else match p.segments with
    | "." :: rest => .here :: meaningful rest
    | all => meaningful all

def precedesAll : List Component → List Component → Bool
  | [], [] => false
  | [], _ :: _ => true
  | _ :: _, [] => false
  | a :: as, b :: bs => a.precedes b || (a == b && precedesAll as bs)

def precedes (p q : Path) : Bool := precedesAll p.components q.components

def same (p q : Path) : Bool := p.components == q.components

/-- The segments, last first, without the idle ones at the end. The `.` that opens a relative
path is kept. -/
def trailing (p : Path) : List String :=
  match p.isAbsolute, p.segments with
  | false, "." :: rest => (rest.reverse.dropWhile isIdle) ++ ["."]
  | _, ss => ss.reverse.dropWhile isIdle

def ofTrailing (isAbsolute : Bool) (reversed : List String) : Path :=
  let body := "/".intercalate reversed.reverse
  ⟨if isAbsolute then "/" ++ body else body⟩

def parent? (p : Path) : Option Path :=
  match p.trailing with
  | [] => none
  | _ :: rest =>
    let kept := match p.isAbsolute, rest.reverse with
      | false, "." :: inner => (inner.reverse.dropWhile isIdle) ++ ["."]
      | _, _ => rest.dropWhile isIdle
    some (ofTrailing p.isAbsolute kept)

/-- The parent, or the empty path where there is none. -/
def folder (p : Path) : Path := p.parent?.getD ⟨""⟩

def fileName? (p : Path) : Option String :=
  match p.components.getLast? with
  | some (.name text) => some text
  | _ => none

/-- The parts of a file name before and after its last dot. A name whose only dot opens it
has no second part. -/
def splitName (name : String) : String × Option String :=
  let after := Text.afterLast '.' name.toList
  let before := name.toList.take (name.toList.length - after.length - 1)
  if before.isEmpty then (name, none) else (String.ofList before, some (String.ofList after))

def fileStem? (p : Path) : Option String := p.fileName?.map fun name => (splitName name).1

def extension? (p : Path) : Option String := p.fileName?.bind fun name => (splitName name).2

/-- `q` below `p`, or `q` itself when it is absolute. -/
def join (p q : Path) : Path :=
  if q.isAbsolute || p.text == "" then q
  else if p.text.endsWith "/" then ⟨p.text ++ q.text⟩
  else ⟨p.text ++ "/" ++ q.text⟩

def joinName (p : Path) (name : String) : Path := p.join ⟨name⟩

def ancestors (p : Path) : List Path :=
  match p.parent? with
  | none => [p]
  | some q => if q.text.length < p.text.length then p :: ancestors q else [p]
termination_by p.text.length

/-- The path from the root, as seen from the folder `base`: without idle segments, but with a
closing slash where there was one. The empty path stays empty. -/
def absolute (p base : Path) : Path :=
  if p.text == "" then p
  else
    let named := (p.components.filter fun c => c != .here && c != .root).map Component.text
    let opening :=
      if !p.isAbsolute then base
      else if p.text.startsWith "//" && !p.text.startsWith "///" then ⟨"//"⟩
      else ⟨"/"⟩
    let whole := named.foldl joinName opening
    if p.text.endsWith "/" then whole.join ⟨""⟩ else whole

theorem ancestors_head (p : Path) : p.ancestors.head? = some p := by
  unfold ancestors
  split
  · rfl
  · split <;> rfl

theorem mem_ancestors_self (p : Path) : p ∈ p.ancestors := by
  have := p.ancestors_head
  cases h : p.ancestors with
  | nil => simp [h] at this
  | cons q qs => simp [h] at this; simp [this]

theorem slash_notMem_segments {p : Path} {segment : String} (mem : segment ∈ p.segments) :
    '/' ∉ segment.toList := by
  unfold segments at mem
  split at mem
  · exact Text.notMem_of_mem_split (List.mem_of_mem_drop mem)
  · exact Text.notMem_of_mem_split mem

theorem slash_of_endsWith {p : Path} (closed : p.text.endsWith "/" = true) :
    ∃ front, p.text = front ++ "/" := by
  rw [← String.endsWith_toSlice, String.Slice.endsWith_string_iff, String.copy_toSlice] at closed
  obtain ⟨front, eq⟩ := closed
  exact ⟨String.ofList front, String.toList_inj.mp (by simp [← eq])⟩

theorem isAbsolute_of_notMem {p : Path} (noSlash : '/' ∉ p.text.toList) :
    p.isAbsolute = false := by
  rw [isAbsolute, String.startsWith_string_eq_false_iff]
  exact fun opening => noSlash (opening.subset (by decide))

theorem segments_slash (front : String) {name : String} (noSlash : '/' ∉ name.toList) :
    ∃ before, (Path.mk (front ++ "/" ++ name)).segments = before ++ [name] := by
  have parts : Text.split '/' (front ++ "/" ++ name) = Text.split '/' front ++ [name] := by
    rw [← Text.split_of_notMem noSlash]
    exact Text.split_append '/' front name
  unfold segments
  rw [parts]
  split
  · exact ⟨_, List.drop_append_of_le_length (Text.length_split_pos '/' front)⟩
  · exact ⟨_, rfl⟩

theorem segments_joinName (p : Path) {name : String} (noSlash : '/' ∉ name.toList) :
    ∃ before, (p.joinName name).segments = before ++ [name] := by
  have alone : (Path.mk name).isAbsolute = false := isAbsolute_of_notMem noSlash
  unfold joinName join
  split
  · rw [segments, alone]
    exact ⟨[], Text.split_of_notMem noSlash⟩
  · split
    · next closed =>
      obtain ⟨front, eq⟩ := slash_of_endsWith closed
      rw [eq]
      exact segments_slash front noSlash
    · exact segments_slash p.text noSlash

end Path

end ClassDiagram
