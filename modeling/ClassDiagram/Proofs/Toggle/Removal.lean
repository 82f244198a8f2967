import ClassDiagram.Proofs.BuildDocument.Again
import ClassDiagram.Proofs.Toggle.Repository

/-! What the removal of a package tells. It is about whatever stands under the name, while a package
is only what stands there as a table; and a table of packages that holds nothing goes in any case.
Where neither makes a difference, the answer is whether the package was there, and a removal that
finds nothing leaves the document as it was. -/

namespace ClassDiagram

open Files (Workspace)

namespace Toml

variable {name : String} {item item' : Item} {entries : Entries} {path : List Key}

/-! ### Entries around a name -/

theorem Entries.cut (found : entries.find? name = some item) :
    ∃ front key back, entries = front ++ (key, item) :: back ∧ key.name = name ∧
      ∀ e ∈ front, e.1.name ≠ name := by
  induction entries with
  | nil => cases found
  | cons e rest ih =>
    obtain ⟨key, first⟩ := e
    by_cases here : key.name = name
    · obtain rfl : first = item := by simpa [find?, here] using found
      exact ⟨[], key, rest, rfl, here, by simp⟩
    · simp only [find?, if_neg here] at found
      obtain ⟨front, key', back, rfl, same, other⟩ := ih found
      exact ⟨(key, first) :: front, key', back, rfl, same, List.forall_mem_cons.mpr ⟨here, other⟩⟩

theorem Entries.replace_cut {front back : Entries} {key : Key} (here : key.name = name)
    (other : ∀ e ∈ front, e.1.name ≠ name) (item' : Item) :
    (front ++ (key, item) :: back).replace name item' = front ++ (key, item') :: back := by
  induction front with
  | nil => simp [replace, here]
  | cons e front ih =>
    obtain ⟨first, rest⟩ := List.forall_mem_cons.mp other
    rw [List.cons_append, replace, if_neg first, ih rest]
    rfl

theorem Entries.remove_cut {front back : Entries} {key : Key} (here : key.name = name)
    (other : ∀ e ∈ front, e.1.name ≠ name)
    (distinct : ((front ++ (key, item) :: back).map (·.1.name)).Nodup) :
    (front ++ (key, item) :: back).remove name = front ++ back := by
  have later : ∀ e ∈ back, e.1.name ≠ name := by
    intro e mem same
    rw [List.map_append, List.map_cons] at distinct
    have fresh := (List.nodup_cons.mp (List.nodup_append.mp distinct).2.1).1
    exact fresh (List.mem_map.mpr ⟨e, mem, same.trans here.symm⟩)
  have kept : ∀ es : Entries, (∀ e ∈ es, e.1.name ≠ name) → es.remove name = es := fun es other =>
    List.filter_eq_self.mpr fun e mem => by simpa using other e mem
  have parts : (front ++ (key, item) :: back).remove name = front.remove name ++ back.remove name := by
    rw [remove, List.filter_append, List.filter_cons_of_neg (by simp [here])]
    rfl
  rw [parts, kept front other, kept back later]

theorem Entries.remove_of_none (none : entries.find? name = none) : entries.remove name = entries := by
  refine List.filter_eq_self.mpr fun e mem => ?_
  have other : e.1.name ≠ name := fun same =>
    Entries.find?_eq_none_iff.mp none (List.mem_map.mpr ⟨e, mem, same⟩)
  simpa using other

theorem linesOf_append (path : List Key) (front back : Entries) :
    linesOf path (front ++ back) = linesOf path front ++ linesOf path back := by
  induction front with
  | nil => rfl
  | cons e front ih => rw [List.cons_append, linesOf, linesOf, ih, List.append_assoc]

theorem sectionsOf_append (path : List Key) (front back : Entries) :
    sectionsOf path (front ++ back) = sectionsOf path front ++ sectionsOf path back := by
  induction front with
  | nil => rfl
  | cons e front ih => rw [List.cons_append, sectionsOf, sectionsOf, ih, List.append_assoc]

/-! ### The length of what is written -/

namespace Section

/-- The number of characters of a section that is not the first one. -/
def weight (s : Section) : Nat :=
  (if s.path.isEmpty || !s.isVisible then 0 else (s.header false).length) + s.body.length

def weights : List Section → Nat
  | [] => 0
  | s :: ss => s.weight + weights ss

theorem length_header (s : Section) : (s.header true).length ≤ (s.header false).length ∧
    (s.header false).length ≤ (s.header true).length + 1 := by
  have front : (s.style.decor.left ⟨"", ""⟩).length ≤ (s.style.decor.left ⟨"\n", ""⟩).length ∧
      (s.style.decor.left ⟨"\n", ""⟩).length ≤ (s.style.decor.left ⟨"", ""⟩).length + 1 := by
    cases before : s.style.decor.before with
    | none => exact ⟨by simp [Decor.left, before, withoutReturns], by simp [Decor.left, before]; decide⟩
    | some text => simp [Decor.left, before]
  simp only [header, Decor.wrap, String.length_append, if_true, Bool.false_eq_true, if_false]
  simp only [Decor.right] at front ⊢
  omega

/-- Only the first header may be a character shorter than it is anywhere else. -/
theorem length_write (first : Bool) (ss : List Section) :
    (write first ss).length ≤ weights ss ∧ weights ss ≤ (write first ss).length + first.toNat := by
  induction ss generalizing first with
  | nil => simp [write, weights]
  | cons s rest ih =>
    rw [weights, write, weight]
    split
    next top =>
      have later := ih (first && s.lines.isEmpty)
      have le : (first && s.lines.isEmpty).toNat ≤ first.toNat := by
        cases first <;> cases s.lines.isEmpty <;> decide
      simp only [top, Bool.true_or, if_true, String.length_append]
      omega
    next below =>
      split
      next visible =>
        have later := ih false
        have shorter : (header first s).length ≤ (header false s).length ∧
            (header false s).length ≤ (header first s).length + first.toNat := by
          cases first with
          | true => exact s.length_header
          | false => exact ⟨le_refl _, Nat.le_add_right _ _⟩
        simp only [below, visible, Bool.not_true, Bool.or_false, String.length_append,
          Bool.false_eq_true, if_false, Bool.toNat_false] at later ⊢
        omega
      next hidden =>
        have later := ih first
        simp only [hidden, Bool.not_false, Bool.or_true, if_true, String.length_append]
        omega

theorem weights_append (ss ss' : List Section) : weights (ss ++ ss') = weights ss + weights ss' := by
  induction ss with
  | nil => rw [List.nil_append, weights, Nat.zero_add]
  | cons s ss ih => rw [List.cons_append, weights, weights, ih, Nat.add_assoc]

theorem weights_perm {ss ss' : List Section} (perm : ss.Perm ss') : weights ss = weights ss' := by
  induction perm with
  | nil => rfl
  | cons s _ ih => rw [weights, weights, ih]
  | swap s s' ss =>
    simp only [weights]
    omega
  | trans _ _ ih ih' => exact ih.trans ih'

theorem weights_ordered (ss : List Section) : weights (ordered ss) = weights ss := by
  have same := (List.mergeSort_perm (numbered 0 ss) (fun a b => decide (a.1 ≤ b.1))).map Prod.snd
  rw [map_numbered] at same
  exact weights_perm same

end Section

open Section (weights)

namespace Table

variable {t inner inner' : Table}

theorem weights_bare (bare : inner.entries = [])
    (own : inner.style.implicit = false ∧ inner.style.dotted = false) (path : List Key)
    (key : Key) : 3 ≤ weights (inner.sections (path ++ [key]) false) := by
  obtain ⟨style, entries⟩ := inner
  obtain rfl : entries = [] := bare
  have implicit : style.implicit = false := own.1
  have dotted : style.dotted = false := own.2
  have brackets : "[".length = 1 ∧ "]".length = 1 ∧ "\n".length = 1 := ⟨rfl, rfl, rfl⟩
  simp [sections, sectionsOf, dotted, weights, Section.weight, Section.isVisible, implicit,
    Section.header, Decor.wrap]
  omega

theorem weights_sections_eq {entries entries' : Entries} (style : TableStyle) (path : List Key)
    (isArray : Bool) (lines : ∀ path, linesOf path entries' = linesOf path entries)
    (less : weights (sectionsOf path entries') + 3 ≤ weights (sectionsOf path entries)) :
    weights ((mk style entries').sections path isArray) + 3 ≤
      weights ((mk style entries).sections path isArray) := by
  have own : (mk style entries').lines [] = (mk style entries).lines [] := lines []
  rw [sections, sections, own, Section.weights_append, Section.weights_append]
  omega

theorem weights_remove (distinct : (t.entries.map (·.1.name)).Nodup)
    (found : t.find? name = some (.table inner)) (bare : inner.entries = [])
    (own : inner.style.implicit = false ∧ inner.style.dotted = false) :
    (∀ path, (t.remove name).lines path = t.lines path) ∧ ∀ path isArray,
      weights ((t.remove name).sections path isArray) + 3 ≤ weights (t.sections path isArray) := by
  obtain ⟨style, entries⟩ := t
  obtain ⟨front, key, back, rfl, here, other⟩ := Entries.cut found
  have left : (mk style (front ++ (key, .table inner) :: back)).remove name = mk style (front ++ back) :=
    congrArg (mk style) (Entries.remove_cut here other distinct)
  have lines : ∀ path, linesOf path (front ++ back) =
      linesOf path (front ++ (key, .table inner) :: back) := by
    intro path
    rw [linesOf_append, linesOf_append, linesOf, Item.lines, own.2, if_neg (by simp), List.nil_append]
  rw [left]
  refine ⟨lines, fun path isArray => weights_sections_eq style path isArray lines ?_⟩
  have header := weights_bare bare own path key
  rw [sectionsOf_append, sectionsOf_append, sectionsOf, Section.weights_append, Section.weights_append,
    Section.weights_append, Item.sections]
  omega

theorem weights_replace (found : t.find? name = some (.table inner)) (style : inner'.style = inner.style)
    (lines : ∀ path, inner'.lines path = inner.lines path)
    (less : ∀ path, weights (inner'.sections path false) + 3 ≤ weights (inner.sections path false))
    (path : List Key) (isArray : Bool) :
    weights ((t.replace name (.table inner')).sections path isArray) + 3 ≤
      weights (t.sections path isArray) := by
  obtain ⟨own, entries⟩ := t
  obtain ⟨front, key, back, rfl, here, other⟩ := Entries.cut found
  have changed : (mk own (front ++ (key, .table inner) :: back)).replace name (.table inner') =
      mk own (front ++ (key, .table inner') :: back) :=
    congrArg (mk own) (Entries.replace_cut here other _)
  rw [changed]
  refine weights_sections_eq own path isArray (fun path => ?_) ?_
  · rw [linesOf_append, linesOf_append, linesOf, linesOf, Item.lines, Item.lines, style, lines]
  · have less := less (path ++ [key])
    simp only [sectionsOf_append, sectionsOf, Section.weights_append, Item.sections]
    omega

end Table

theorem Document.text_ne_of_weights {d d' : Document} (trailing : d'.trailing = d.trailing)
    (less : weights (d'.root.sections [] false) + 3 ≤ weights (d.root.sections [] false)) :
    d'.text ≠ d.text := by
  intro same
  have short := (Section.length_write true (ordered (d'.root.sections [] false))).1
  have long := (Section.length_write true (ordered (d.root.sections [] false))).2
  rw [Section.weights_ordered] at short long
  have same := congrArg String.length same
  rw [text, text, String.length_append, String.length_append, trailing] at same
  have one : true.toNat = 1 := rfl
  omega

end Toml

namespace BuildDocument

open Toml (Document Entries Item Table)

variable {d : BuildDocument} {name : String} {packages : Table}

/-- What stands under the name of a package, be it a package or not. -/
def packageItem? (d : BuildDocument) (name : String) : Option Item := d.packages?.bind (Table.find? name)

/-- The table of packages is there and holds nothing. -/
def Vacant (d : BuildDocument) : Prop := ∃ packages, d.packages? = some packages ∧ packages.entries = []

theorem package?_eq_some_iff {package : Table} :
    d.package? name = some package ↔ d.packageItem? name = some (.table package) := by
  rw [package?, ← packages?, packageItem?, Option.bind_eq_some_iff, Option.bind_eq_some_iff]
  simp only [Table.child?_eq_some_iff]

theorem removePackage_eq (known : d.packages? = some packages) (name : String) :
    ∃ build, d.document.root.find? ConfigKey.build = some (.table build) ∧
      build.find? ConfigKey.packages = some (.table packages) ∧
      d.removePackage name = (d.withRoot (d.document.root.replace ConfigKey.build (.table
        (if (packages.remove name).entries.isEmpty then build.remove ConfigKey.packages
          else build.replace ConfigKey.packages (.table (packages.remove name))))),
        (d.packageItem? name).isSome) := by
  obtain ⟨build, here, found⟩ := Option.bind_eq_some_iff.mp known
  refine ⟨build, Table.child?_eq_some_iff.mp here, Table.child?_eq_some_iff.mp found, ?_⟩
  rw [packageItem?, known, Option.bind_some]
  simp only [removePackage, here, found]

theorem removed_eq (d : BuildDocument) (name : String) :
    (d.removePackage name).2 = (d.packageItem? name).isSome := by
  cases known : d.packages? with
  | some packages =>
    obtain ⟨build, _, _, same⟩ := removePackage_eq known name
    rw [same]
  | none =>
    rw [packageItem?, known]
    unfold removePackage
    split
    · rfl
    next build here =>
      have none : build.child? ConfigKey.packages = none := by simpa [packages?, here] using known
      simp [none]

theorem removePackage_of_absent (absent : d.packageItem? name = none) (some : ¬d.Vacant) :
    (d.removePackage name).1 = d := by
  cases known : d.packages? with
  | none => exact removePackage_of_none known
  | some packages =>
    obtain ⟨build, here, found, same⟩ := removePackage_eq known name
    have gone : packages.find? name = none := by simpa [packageItem?, known] using absent
    have kept : packages.remove name = packages := by
      cases packages
      exact congrArg (Table.mk _) (Entries.remove_of_none gone)
    have filled : packages.entries ≠ [] := fun empty => some ⟨packages, known, empty⟩
    rw [same, kept, if_neg (by simpa using filled), Table.replace_of_find? found,
      Table.replace_of_find? here]
    rfl

theorem removePackage_of_vacant (vacant : d.Vacant) (name : String) :
    ∃ build packages, d.document.root.find? ConfigKey.build = some (.table build) ∧
      build.find? ConfigKey.packages = some (.table packages) ∧ packages.entries = [] ∧
      (d.removePackage name).1 = d.withRoot (d.document.root.replace ConfigKey.build
        (.table (build.remove ConfigKey.packages))) := by
  obtain ⟨packages, known, bare⟩ := vacant
  obtain ⟨build, here, found, same⟩ := removePackage_eq known name
  have empty : (packages.remove name).entries.isEmpty = true := by
    rw [Table.remove, Table.mapEntries, bare]
    rfl
  rw [if_pos empty] at same
  exact ⟨build, packages, here, found, bare, congrArg Prod.fst same⟩

theorem removePackage_ne_of_vacant (vacant : d.Vacant) : (d.removePackage name).1 ≠ d := by
  obtain ⟨build, _, here, _, _, same⟩ := removePackage_of_vacant vacant name
  obtain ⟨packages, known, _⟩ := vacant
  intro unchanged
  have gone : (d.removePackage name).1.packages? = none := by
    have child : (d.removePackage name).1.build? = some (build.remove ConfigKey.packages) := by
      rw [same]
      exact Table.child?_replace (Table.child?_eq_some_iff.mpr here) _
    rw [packages?, child, Option.bind_some, Table.child?_remove]
  rw [unchanged, known] at gone
  cases gone

theorem text_ne_of_vacant (kept : d.document.Kept) (vacant : d.Vacant) :
    (d.removePackage name).1.text ≠ d.text := by
  obtain ⟨build, packages, here, found, bare, same⟩ := removePackage_of_vacant vacant name
  have upheld := kept.child (Table.child?_eq_some_iff.mpr here)
  have distinct := (Table.kept_iff.mp upheld.kept).2.1
  have own : packages.style.implicit = false ∧ packages.style.dotted = false := by
    have full := (Table.full_of_find? upheld.sound found).1
    by_contra hidden
    refine full ?_ bare
    cases implicit : packages.style.implicit <;> cases dotted : packages.style.dotted <;> simp_all
  obtain ⟨lines, less⟩ := Table.weights_remove distinct found bare own
  have style : (build.remove ConfigKey.packages).style = build.style := rfl
  rw [same]
  exact Document.text_ne_of_weights rfl
    (Table.weights_replace here style lines (fun path => less path false) [] false)

theorem removed_eq_hasPackage_iff : (d.removePackage name).2 = d.hasPackage name ↔
    ∀ item, d.packageItem? name = some item → ∃ package, item = .table package := by
  rw [removed_eq, hasPackage, Bool.eq_iff_iff, Option.isSome_iff_exists, Option.isSome_iff_exists]
  simp only [package?_eq_some_iff]
  constructor
  · intro told item found
    obtain ⟨package, package?⟩ := told.mp ⟨item, found⟩
    exact ⟨package, Option.some.inj (found.symm.trans package?)⟩
  · intro tables
    constructor
    · rintro ⟨item, found⟩
      obtain ⟨package, rfl⟩ := tables item found
      exact ⟨package, found⟩
    · rintro ⟨package, found⟩
      exact ⟨_, found⟩

theorem unchanged_iff (absent : (d.removePackage name).2 = false) :
    (d.removePackage name).1 = d ↔ ¬d.Vacant := by
  rw [removed_eq, Option.isSome_eq_false_iff, Option.isNone_iff_eq_none] at absent
  exact ⟨fun same vacant => removePackage_ne_of_vacant vacant same, removePackage_of_absent absent⟩

theorem unchanged_text_iff (kept : d.document.Kept) (absent : (d.removePackage name).2 = false) :
    (d.removePackage name).1.text = d.text ↔ ¬d.Vacant := by
  refine ⟨fun same vacant => text_ne_of_vacant kept vacant same, fun some => ?_⟩
  rw [(unchanged_iff absent).mpr some]

theorem uninstalled {w w' : Workspace} {start : Path} {answer : BuildDocument}
    (done : Toggle.uninstall w start = (w', .ok (some answer))) :
    ∃ d, load w answer.path = .ok d ∧ answer = (d.removePackage Toggle.packageName).1 ∧
      if (d.removePackage Toggle.packageName).2 then w'.readText answer.path = .ok answer.text
      else w' = w := by
  unfold Toggle.uninstall at done
  split at done
  · cases done
  next path nearest =>
    cases opened : load w path with
    | error failure =>
      rw [opened] at done
      cases done
    | ok d =>
      simp only [opened] at done
      have target : (d.removePackage Toggle.packageName).1.path = path :=
        (path_run d (.removePackage Toggle.packageName)).trans (path_of_load opened)
      cases removal : d.removePackage Toggle.packageName with
      | mk d' removed =>
        rw [removal] at done target
        cases removed with
        | false =>
          cases done
          refine ⟨d, target ▸ opened, by rw [removal], ?_⟩
          rw [removal, if_neg (by simp)]
        | true =>
          cases saved : d'.save w with
          | mk w₁ result =>
            simp only [saved] at done
            cases result with
            | error failure => cases done
            | ok outcome =>
              cases done
              refine ⟨d, target ▸ opened, by rw [removal], ?_⟩
              rw [removal, if_pos rfl]
              exact Workspace.readText_of_utf8 (read_of_save saved)

/-- The removal of a package tells whether anything stands under its name. That is whether the
package was there, unless what stands there is no table. A removal that tells that nothing was there
leaves the document and its text as they were, unless the table of packages is there and holds
nothing; and with the same exception the document that is answered when the package is uninstalled is
the one on disk. -/
theorem removal_told (w : Workspace) :
    (∀ (path : Path) (opened : BuildDocument), load w path = .ok opened →
      ∀ (edits : List Edit) (name : String),
        let d := opened.after edits
        ((d.removePackage name).2 = true ↔ ∃ item, d.packageItem? name = some item) ∧
        ((d.removePackage name).2 = d.hasPackage name ↔
          ∀ item, d.packageItem? name = some item → ∃ package, item = .table package) ∧
        ((d.removePackage name).2 = false → ((d.removePackage name).1 = d ↔ ¬d.Vacant) ∧
          ((d.removePackage name).1.text = d.text ↔ ¬d.Vacant))) ∧
      ∀ (w' : Workspace) (start : Path) (answer : BuildDocument),
        Toggle.uninstall w start = (w', .ok (some answer)) →
          ∃ d, load w answer.path = .ok d ∧ answer = (d.removePackage Toggle.packageName).1 ∧
            ((d.removePackage Toggle.packageName).2 = true →
              w'.readText answer.path = .ok answer.text) ∧
            ((d.removePackage Toggle.packageName).2 = false →
              w' = w ∧ (load w' answer.path = .ok answer ↔ ¬d.Vacant)) := by
  constructor
  · intro path opened loaded edits name d
    have kept : d.document.Kept := kept_after (kept_load loaded) edits
    refine ⟨?_, removed_eq_hasPackage_iff, fun absent =>
      ⟨unchanged_iff absent, unchanged_text_iff kept absent⟩⟩
    rw [removed_eq, Option.isSome_iff_exists]
  · intro w' start answer done
    obtain ⟨d, opened, same, left⟩ := uninstalled done
    refine ⟨d, opened, same, fun removed => by rwa [if_pos removed] at left, fun absent => ?_⟩
    rw [if_neg (by simp [absent])] at left
    rw [left, opened, Except.ok.injEq, ← unchanged_iff absent, ← same]
    exact ⟨rfl, eq_comm⟩

def stocked : Workspace := holding "[build.packages.fmt]\nversion = \"2\"\n"

theorem removal_told_stocked :
    ∃ d, load stocked ⟨"typediagram.toml"⟩ = .ok d ∧ d.hasPackage Toggle.packageName = false ∧
      (d.removePackage Toggle.packageName).2 = false ∧
      (d.removePackage Toggle.packageName).1.text = d.text ∧
      ∃ answer, Toggle.uninstall stocked ⟨""⟩ = (stocked, .ok (some answer)) ∧
        load stocked answer.path = .ok answer := by
  have known : (load stocked ⟨"typediagram.toml"⟩).toOption.map (fun d =>
      (d.packages?.map fun packages => packages.entries.length,
        (d.removePackage Toggle.packageName).2, d.hasPackage Toggle.packageName)) =
      some (some 1, false, false) := by decide +kernel
  have left : (Toggle.uninstall stocked ⟨""⟩).2.toOption.map (Option.map BuildDocument.path) =
      some (some ⟨"typediagram.toml"⟩) := by decide +kernel
  obtain ⟨told, answers⟩ := removal_told stocked
  obtain ⟨d, opened, known⟩ := Option.map_eq_some_iff.mp known
  have opened := ok_of_toOption opened
  simp only [Prod.mk.injEq] at known
  obtain ⟨count, absent, package⟩ := known
  have some : ¬d.Vacant := by
    rintro ⟨packages, table, bare⟩
    simp [table, bare] at count
  obtain ⟨_, _, same⟩ := told _ d opened [] Toggle.packageName
  refine ⟨d, opened, package, absent, (same absent).2.mpr some, ?_⟩
  cases done : Toggle.uninstall stocked ⟨""⟩ with
  | mk w' result =>
    rw [done] at left
    obtain ⟨answer?, succeeded, here⟩ := Option.map_eq_some_iff.mp left
    obtain ⟨answer, rfl, path⟩ := Option.map_eq_some_iff.mp here
    obtain rfl : result = .ok (.some answer) := ok_of_toOption succeeded
    obtain ⟨d', opened', _, _, kept⟩ := answers w' ⟨""⟩ answer done
    rw [path, opened] at opened'
    cases opened'
    obtain ⟨rfl, loads⟩ := kept absent
    exact ⟨answer, rfl, loads.mpr some⟩

def pinned : Workspace := holding "[build.packages]\ntypediagram-build = \"1.1.0\"\n"

def vacated : Workspace := holding "[build.packages]\n"

/-- The removal tells of a package that was not there, and one that tells of none changes the
document. -/
theorem removal_mistold :
    (∃ d, load pinned ⟨"typediagram.toml"⟩ = .ok d ∧ d.hasPackage Toggle.packageName = false ∧
      (d.removePackage Toggle.packageName).2 = true) ∧
    ∃ d, load vacated ⟨"typediagram.toml"⟩ = .ok d ∧
      (d.removePackage Toggle.packageName).2 = false ∧ d.text = "[build.packages]\n" ∧
      (d.removePackage Toggle.packageName).1.text = "" := by
  have first : (load pinned ⟨"typediagram.toml"⟩).toOption.map (fun d =>
      (d.hasPackage Toggle.packageName, (d.removePackage Toggle.packageName).2)) =
      some (false, true) := by decide +kernel
  have second : (load vacated ⟨"typediagram.toml"⟩).toOption.map (fun d =>
      ((d.removePackage Toggle.packageName).2, d.orderedText?,
        (d.removePackage Toggle.packageName).1.orderedText?)) =
      some (false, some "[build.packages]\n", some "") := by decide +kernel
  obtain ⟨d, opened, same⟩ := Option.map_eq_some_iff.mp first
  obtain ⟨d', opened', same'⟩ := Option.map_eq_some_iff.mp second
  simp only [Prod.mk.injEq] at same same'
  exact ⟨⟨d, ok_of_toOption opened, same⟩, d', ok_of_toOption opened', same'.1,
    text_of_orderedText? same'.2.1, text_of_orderedText? same'.2.2⟩

end BuildDocument

end ClassDiagram
