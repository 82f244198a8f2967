import ClassDiagram.Blake3
import ClassDiagram.Failure

/-! Whether two files hold the same bytes. A read may give less than is asked for and may be
interrupted, and a reader may read ahead into a buffer of its own. A chunk is filled until the
file ends, so the answer does not depend on how the reads fall. The length of the files is looked
at first. -/

namespace ClassDiagram.Drift

open Files (Bytes Workspace IoCause)

/-- What one read does: it is interrupted, or gives one byte and up to `more` others. -/
inductive ReadEvent where
  | interrupted
  | upTo (more : Nat)
  deriving DecidableEq

/-- An open file. When the events are over, every read gives all that is asked for. -/
structure Source where
  rest : Bytes
  events : List ReadEvent

namespace Source

def read (size : Nat) (s : Source) : Option Bytes × Source :=
  match s.events with
  | [] => (some (s.rest.take size), ⟨s.rest.drop size, []⟩)
  | .interrupted :: events => (none, ⟨s.rest, events⟩)
  | .upTo more :: events =>
    (some (s.rest.take (min (more + 1) size)), ⟨s.rest.drop (min (more + 1) size), events⟩)

theorem read_none {size : Nat} {s later : Source} (event : s.read size = (none, later)) :
    later.rest = s.rest ∧ later.events.length < s.events.length := by
  unfold read at event
  split at event <;> simp only [Prod.mk.injEq, reduceCtorEq, false_and, true_and] at event
  next shape =>
    subst event
    exact ⟨rfl, by simp [shape]⟩

theorem read_some {size : Nat} {s later : Source} {got : Bytes}
    (event : s.read size = (some got, later)) :
    got ++ later.rest = s.rest ∧ got.length ≤ size ∧ (got = [] → size = 0 ∨ s.rest = []) := by
  unfold read at event
  split at event
  · simp only [Prod.mk.injEq, Option.some.injEq] at event
    obtain ⟨rfl, rfl⟩ := event
    exact ⟨List.take_append_drop _ _, List.length_take_le _ _, List.take_eq_nil_iff.mp⟩
  · simp at event
  · simp only [Prod.mk.injEq, Option.some.injEq] at event
    obtain ⟨rfl, rfl⟩ := event
    refine ⟨List.take_append_drop _ _, ?_, fun none => ?_⟩
    · rw [List.length_take]
      omega
    · rcases List.take_eq_nil_iff.mp none with zero | none
      · omega
      · exact .inr none

theorem events_read (size : Nat) (s : Source) : (s.read size).2.events = s.events.tail := by
  unfold read
  split <;> simp_all

end Source

/-- A reader of a file. It reads ahead so many bytes at a time, unless as many are asked for; it
then passes the read on to the file. -/
structure Reader where
  source : Source
  held : Bytes
  ahead : Nat

namespace Reader

def direct (bytes : Bytes) (events : List ReadEvent) : Reader := ⟨⟨bytes, events⟩, [], 0⟩

def left (r : Reader) : Bytes := r.held ++ r.source.rest

def read (size : Nat) (r : Reader) : Option Bytes × Reader :=
  if r.held.isEmpty then
    if r.ahead ≤ size then
      let (got, source) := r.source.read size
      (got, { r with source })
    else
      match r.source.read r.ahead with
      | (none, source) => (none, { r with source })
      | (some got, source) => (some (got.take size), { r with source, held := got.drop size })
  else (some (r.held.take size), { r with held := r.held.drop size })

theorem read_none {size : Nat} {r later : Reader} (event : r.read size = (none, later)) :
    later.left = r.left ∧ later.source.events.length < r.source.events.length := by
  unfold read at event
  split at event
  next empty =>
    split at event
    · simp only [Prod.mk.injEq] at event
      obtain ⟨none, rfl⟩ := event
      simpa [left] using Source.read_none (Prod.ext none rfl)
    · split at event
      next none =>
        obtain rfl : _ = later := by simpa using event
        simpa [left] using Source.read_none none
      next => simp at event
  next => simp at event

theorem events_read_le (size : Nat) (r : Reader) :
    (r.read size).2.source.events.length ≤ r.source.events.length := by
  have fewer : ∀ asked, (r.source.read asked).2.events.length ≤ r.source.events.length := by
    intro asked
    simp [Source.events_read]
  unfold read
  split
  · split
    · exact fewer size
    · have fewer := fewer r.ahead
      split <;> simp_all
  · exact Nat.le_refl _

theorem read_some {size : Nat} {r later : Reader} {got : Bytes}
    (event : r.read size = (some got, later)) :
    got ++ later.left = r.left ∧ got.length ≤ size ∧ (got = [] → size = 0 ∨ r.left = []) := by
  unfold read at event
  split at event
  next empty =>
    have nothing : r.held = [] := List.isEmpty_iff.mp empty
    split at event
    · simp only [Prod.mk.injEq] at event
      obtain ⟨got, rfl⟩ := event
      simpa [left, nothing] using Source.read_some (Prod.ext got rfl)
    next small =>
      split at event
      next => simp at event
      next ahead source read =>
        obtain ⟨front, _, ended⟩ := Source.read_some read
        simp only [Prod.mk.injEq, Option.some.injEq] at event
        obtain ⟨rfl, rfl⟩ := event
        refine ⟨by simp [left, nothing, ← front, ← List.append_assoc], List.length_take_le _ _,
          fun none => ?_⟩
        rcases List.take_eq_nil_iff.mp none with zero | none
        · exact .inl zero
        · refine .inr ?_
          simpa [left, nothing] using (ended none).resolve_left (by omega)
  next some =>
    simp only [Prod.mk.injEq, Option.some.injEq] at event
    obtain ⟨rfl, rfl⟩ := event
    refine ⟨by simp [left, ← List.append_assoc], List.length_take_le _ _, fun none => .inl ?_⟩
    exact (List.take_eq_nil_iff.mp none).resolve_right (by simpa using some)

end Reader

/-- Reads until there is no space left or the file ends. An interrupted read is made again. -/
def fill (space : Nat) (r : Reader) : Bytes × Reader :=
  if space = 0 then ([], r)
  else
    match event : r.read space with
    | (none, later) =>
      have := (Reader.read_none event).2
      fill space later
    | (some got, later) =>
      if ended : got = [] then ([], later)
      else
        have := List.length_pos_iff.mpr ended
        have := (Reader.read_some event).2.1
        have : later.source.events.length ≤ r.source.events.length := by
          simpa [event] using r.events_read_le space
        let (more, last) := fill (space - got.length) later
        (got ++ more, last)
termination_by space + r.source.events.length

def chunkSize : Nat := 64 * 1024

namespace Reader

def buffered (bytes : Bytes) (events : List ReadEvent) : Reader := ⟨⟨bytes, events⟩, [], chunkSize⟩

def chunk (r : Reader) : Bytes × Reader := fill chunkSize r

end Reader

/-- However the reads fall, a chunk is as long as the file and the space allow. -/
theorem fill_eq (space : Nat) (r : Reader) :
    (fill space r).1 = r.left.take space ∧ (fill space r).2.left = r.left.drop space := by
  fun_induction fill space r with
  | case1 r => simp
  | case2 space r _ later event _ ih => simpa [(Reader.read_none event).1] using ih
  | case3 space r some later event =>
    obtain ⟨front, _, ended⟩ := Reader.read_some event
    have empty : r.left = [] := (ended rfl).resolve_left some
    simp_all
  | case4 space r _ got later event _ _ fits _ more last rest ih =>
    obtain ⟨front, _, _⟩ := Reader.read_some event
    rw [rest] at ih
    rw [← front, List.take_append, List.drop_append, List.take_of_length_le fits,
      List.drop_of_length_le fits, List.nil_append]
    exact ⟨congrArg (got ++ ·) ih.1, ih.2⟩

theorem Reader.chunk_left_lt {r : Reader} (more : r.chunk.1.isEmpty = false) :
    r.chunk.2.left.length < r.left.length := by
  obtain ⟨chunk, left⟩ := fill_eq chunkSize r
  unfold Reader.chunk at *
  rw [left, List.length_drop]
  rw [chunk] at more
  have : 0 < r.left.length := by
    cases empty : r.left with
    | nil => simp [empty] at more
    | cons => simp
  unfold chunkSize
  omega

/-- Whether two readers give the same bytes up to their ends, chunk by chunk. -/
def sameBytes (a b : Reader) : Bool :=
  if a.chunk.1 = b.chunk.1 then
    if ended : a.chunk.1.isEmpty then true else
      have := a.chunk_left_lt (by simpa using ended)
      sameBytes a.chunk.2 b.chunk.2
  else false
termination_by a.left.length

def chunks (r : Reader) : List Bytes :=
  if ended : r.chunk.1.isEmpty then [] else
    have := r.chunk_left_lt (by simpa using ended)
    r.chunk.1 :: chunks r.chunk.2
termination_by r.left.length

/-- A path that leads nowhere is reported as such; other causes are kept. -/
def fault (path : Path) : IoCause → Failure
  | .missing => .notFound path
  | cause => .io path cause

def size (w : Workspace) (path : Path) : Except Failure Nat := (w.size path).mapError (fault path)

def bytes (w : Workspace) (path : Path) : Except Failure Bytes :=
  (w.read path).mapError (fault path)

def filesEqual (w : Workspace) (a b : Path) (eventsA eventsB : List ReadEvent) :
    Except Failure Bool := do
  let sizeA ← size w a
  let sizeB ← size w b
  if sizeA = sizeB then
    let bytesA ← bytes w a
    let bytesB ← bytes w b
    return sameBytes (.buffered bytesA eventsA) (.buffered bytesB eventsB)
  else return false

def digest (w : Workspace) (path : Path) (events : List ReadEvent) : Except Failure String := do
  let bytes ← bytes w path
  return Blake3.hex (chunks (.direct bytes events)).flatten

/-- Two files compared. Their digests are there only if they differ. -/
structure Report where
  old : Path
  new : Path
  digests : Option (String × String)

def Report.isIdentical (r : Report) : Bool := r.digests.isNone

/-- How the reads of a comparison fall: those that compare the files, and those of the digests. -/
structure Reads where
  old : List ReadEvent
  new : List ReadEvent
  oldDigest : List ReadEvent
  newDigest : List ReadEvent

def Reads.whole : Reads := ⟨[], [], [], []⟩

def compareUnder (reads : Reads) (w : Workspace) (old new : Path) : Except Failure Report := do
  if ← filesEqual w old new reads.old reads.new then return ⟨old, new, none⟩
  else
    let oldDigest ← digest w old reads.oldDigest
    let newDigest ← digest w new reads.newDigest
    return ⟨old, new, some (oldDigest, newDigest)⟩

def compare : Workspace → Path → Path → Except Failure Report := compareUnder .whole

end ClassDiagram.Drift
