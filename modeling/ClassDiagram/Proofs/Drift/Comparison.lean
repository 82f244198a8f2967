import ClassDiagram.Drift
import Mathlib.Data.List.Basic

/-! The comparison of two files says whether they hold the same bytes, however their reads fall: two
readers give the same chunks exactly when they have the same bytes left. Where a file cannot be
looked up, the first one in the order of the arguments says why. -/

namespace ClassDiagram.Drift

open Files (Bytes Entry IoCause Workspace)

theorem Reader.chunk_fst (r : Reader) : r.chunk.1 = r.left.take chunkSize :=
  (fill_eq chunkSize r).1

theorem Reader.chunk_left (r : Reader) : r.chunk.2.left = r.left.drop chunkSize :=
  (fill_eq chunkSize r).2

theorem left_eq_nil_of_chunk {r : Reader} (ended : r.chunk.1 = []) : r.left = [] := by
  rw [r.chunk_fst] at ended
  exact (List.take_eq_nil_iff.mp ended).resolve_left (by decide)

theorem sameBytes_iff (a b : Reader) : sameBytes a b = true ↔ a.left = b.left := by
  fun_induction sameBytes a b with
  | case1 a b same ended =>
    have empty := List.isEmpty_iff.mp ended
    simp [left_eq_nil_of_chunk empty, left_eq_nil_of_chunk (same.symm.trans empty)]
  | case2 a b same _ _ ih =>
    rw [a.chunk_fst, b.chunk_fst] at same
    rw [ih, a.chunk_left, b.chunk_left]
    constructor
    · intro later
      rw [← List.take_append_drop chunkSize a.left, same, later, List.take_append_drop]
    · intro whole
      rw [whole]
  | case3 a b other =>
    rw [a.chunk_fst, b.chunk_fst] at other
    simp only [Bool.false_eq_true, false_iff]
    exact fun whole => other (by rw [whole])

theorem flatten_chunks (r : Reader) : (chunks r).flatten = r.left := by
  fun_induction chunks r with
  | case1 r ended => rw [left_eq_nil_of_chunk (List.isEmpty_iff.mp ended), List.flatten_nil]
  | case2 r _ _ ih =>
    rw [List.flatten_cons, ih, r.chunk_fst, r.chunk_left, List.take_append_drop]

theorem size_of_read {w : Workspace} {p : Path} {contents : Bytes}
    (read : w.read p = .ok contents) : size w p = .ok contents.length := by
  unfold Workspace.read at read
  split at read
  · next found =>
    cases read
    rw [size, Workspace.size, found]
    rfl
  · cases read
  · cases read

theorem bytes_of_read {w : Workspace} {p : Path} {contents : Bytes}
    (read : w.read p = .ok contents) : bytes w p = .ok contents := by
  rw [bytes, read]
  rfl

theorem filesEqual_of_read {w : Workspace} {a b : Path} {bytesA bytesB : Bytes}
    (readA : w.read a = .ok bytesA) (readB : w.read b = .ok bytesB)
    (eventsA eventsB : List ReadEvent) :
    filesEqual w a b eventsA eventsB = .ok (decide (bytesA = bytesB)) := by
  have same : sameBytes (.buffered bytesA eventsA) (.buffered bytesB eventsB) =
      decide (bytesA = bytesB) :=
    Bool.eq_iff_iff.mpr ((sameBytes_iff _ _).trans decide_eq_true_iff.symm)
  rw [filesEqual, size_of_read readA, size_of_read readB, bytes_of_read readA, bytes_of_read readB]
  by_cases long : bytesA.length = bytesB.length
  · simp [long, same, bind, pure, Except.bind, Except.pure]
  · have other : bytesA ≠ bytesB := fun eq => long (by rw [eq])
    simp [long, other, bind, pure, Except.bind, Except.pure]

theorem read_of_bytes {w : Workspace} {p : Path} {contents : Bytes}
    (read : bytes w p = .ok contents) : w.read p = .ok contents := by
  unfold bytes at read
  cases found : w.read p with
  | error cause => rw [found] at read; cases read
  | ok contents' => rw [found] at read; cases read; rfl

theorem read_of_filesEqual {w : Workspace} {a b : Path} {eventsA eventsB : List ReadEvent}
    (equal : filesEqual w a b eventsA eventsB = .ok true) :
    ∃ contents, w.read a = .ok contents ∧ w.read b = .ok contents := by
  obtain ⟨sizeA, _, equal⟩ := Failure.bind_ok equal
  obtain ⟨sizeB, _, equal⟩ := Failure.bind_ok equal
  split at equal
  · obtain ⟨contentsA, readA, equal⟩ := Failure.bind_ok equal
    obtain ⟨contentsB, readB, equal⟩ := Failure.bind_ok equal
    have same : contentsA = contentsB := (sameBytes_iff _ _).mp (Except.ok.inj equal)
    exact ⟨contentsA, read_of_bytes readA, same ▸ read_of_bytes readB⟩
  · cases equal

theorem digest_of_read {w : Workspace} {p : Path} {contents : Bytes}
    (read : w.read p = .ok contents) (events : List ReadEvent) :
    digest w p events = .ok (Blake3.hex contents) := by
  simp [digest, bytes_of_read read, flatten_chunks, Reader.left, Reader.direct, bind, pure,
    Except.bind, Except.pure]

theorem size_of_entry_error {w : Workspace} {p : Path} {cause : IoCause}
    (refused : w.entry p = .error cause) : size w p = .error (fault p cause) := by
  rw [size, Workspace.size, refused]
  rfl

theorem size_of_entry {w : Workspace} {p : Path} {entry : Entry} (found : w.entry p = .ok entry) :
    ∃ count, size w p = .ok count := by
  rw [size, Workspace.size, found]
  cases entry <;> exact ⟨_, rfl⟩

section

variable {w : Workspace} {old new : Path}

theorem filesEqual_of_old {cause : IoCause} (refused : w.entry old = .error cause) (new : Path)
    (oldReads newReads : List ReadEvent) :
    filesEqual w old new oldReads newReads = .error (fault old cause) := by
  rw [filesEqual, size_of_entry_error refused]
  rfl

theorem filesEqual_of_new {entry : Entry} {cause : IoCause} (found : w.entry old = .ok entry)
    (refused : w.entry new = .error cause) (oldReads newReads : List ReadEvent) :
    filesEqual w old new oldReads newReads = .error (fault new cause) := by
  obtain ⟨count, size⟩ := size_of_entry found
  rw [filesEqual, size, size_of_entry_error refused]
  rfl

theorem compareUnder_of_error {reads : Reads} {failure : Failure}
    (failed : filesEqual w old new reads.old reads.new = .error failure) :
    compareUnder reads w old new = .error failure := by
  rw [compareUnder, failed]
  rfl

/-- What a comparison owes two files, however their reads fall. -/
structure Exact (reads : Reads) (w : Workspace) (old new : Path) : Prop where
  /-- Of two files the report says whether they hold the same bytes; if not, it has both digests. -/
  files : ∀ contents contents', w.read old = .ok contents → w.read new = .ok contents' →
    filesEqual w old new reads.old reads.new = .ok (decide (contents = contents')) ∧
      digest w old reads.oldDigest = .ok (Blake3.hex contents) ∧
      digest w new reads.newDigest = .ok (Blake3.hex contents') ∧
      ∃ report, compareUnder reads w old new = .ok report ∧ report.old = old ∧
        report.new = new ∧ (report.isIdentical = true ↔ contents = contents') ∧
        report.digests = if contents = contents' then none
          else some (Blake3.hex contents, Blake3.hex contents')
  oldMissing : w.entry old = .error .missing →
    filesEqual w old new reads.old reads.new = .error (.notFound old) ∧
      compareUnder reads w old new = .error (.notFound old)
  newMissing : ∀ entry, w.entry old = .ok entry → w.entry new = .error .missing →
    filesEqual w old new reads.old reads.new = .error (.notFound new) ∧
      compareUnder reads w old new = .error (.notFound new)
  /-- A first file that cannot be looked up for another reason hides that the second one is missing. -/
  oldRefused : ∀ cause, w.entry old = .error cause → cause ≠ .missing →
    filesEqual w old new reads.old reads.new = .error (.io old cause) ∧
      compareUnder reads w old new = .error (.io old cause)

theorem compareUnder_exact (reads : Reads) (w : Workspace) (old new : Path) :
    Exact reads w old new := by
  constructor
  · intro contents contents' readOld readNew
    have equal := filesEqual_of_read readOld readNew reads.old reads.new
    have oldDigest := digest_of_read readOld reads.oldDigest
    have newDigest := digest_of_read readNew reads.newDigest
    refine ⟨equal, oldDigest, newDigest, ?_⟩
    rw [compareUnder, equal, oldDigest, newDigest]
    by_cases same : contents = contents'
    · exact ⟨⟨old, new, none⟩, by simp [same, bind, pure, Except.bind, Except.pure], rfl, rfl,
        by simp [same, Report.isIdentical], by simp [same]⟩
    · exact ⟨⟨old, new, some (Blake3.hex contents, Blake3.hex contents')⟩,
        by simp [same, bind, pure, Except.bind, Except.pure], rfl, rfl,
        by simp [same, Report.isIdentical], by simp [same]⟩
  · intro missing
    have failed := filesEqual_of_old missing new reads.old reads.new
    exact ⟨failed, compareUnder_of_error failed⟩
  · intro entry found missing
    have failed := filesEqual_of_new found missing reads.old reads.new
    exact ⟨failed, compareUnder_of_error failed⟩
  · intro cause refused other
    have failed := filesEqual_of_old refused new reads.old reads.new
    have io : fault old cause = .io old cause := by
      cases cause <;> first | rfl | exact absurd rfl other
    rw [io] at failed
    exact ⟨failed, compareUnder_of_error failed⟩

end

/-- The path of the first file goes through a file, so that the second one is missing is not said. -/
theorem compare_missing_unsaid :
    (⟨⟨[(["f"], .file [])]⟩, []⟩ : Workspace).entry ⟨"gone"⟩ = .error .missing ∧
      compare ⟨⟨[(["f"], .file [])]⟩, []⟩ ⟨"f/x"⟩ ⟨"gone"⟩ = .error (.io ⟨"f/x"⟩ .notFolder) := by
  have refused : (⟨⟨[(["f"], .file [])]⟩, []⟩ : Workspace).entry ⟨"f/x"⟩ = .error .notFolder := by
    decide +kernel
  have failed := filesEqual_of_old refused ⟨"gone"⟩ [] []
  exact ⟨by decide +kernel, compareUnder_of_error failed⟩

end ClassDiagram.Drift
