import ClassDiagram.Proofs.BuildDocument.Tables
import Mathlib.Logic.Function.Basic

/-! A document under edits. What it says of builds is a switch and a map of packages, and an edit
changes one entry of them. An edit that is refused leaves the document as it was, tables that
would have been made for it included, so a session comes to what its accepted edits come to. -/

namespace ClassDiagram

open Toml (Table)
open Toml.Table (opening Below)

/-- What a document says of builds: the switch, and the version of each package that has one. -/
structure Switches where
  enabled : Option Bool
  packages : String → Option (Option String)

namespace BuildDocument

def packages? (d : BuildDocument) : Option Table :=
  d.build?.bind (Table.child? ConfigKey.packages)

def switches (d : BuildDocument) : Switches where
  enabled := d.enabled?
  packages name := (d.package? name).map fun package =>
    (package.find? ConfigKey.version).bind Toml.Item.text?

section

variable {d d' : BuildDocument} {name : String}

theorem hasPackage_eq : d.hasPackage name = (d.switches.packages name).isSome := by
  rw [switches, hasPackage, Option.isSome_map]

theorem packageVersion?_eq : d.packageVersion? name = (d.switches.packages name).join := by
  simp only [packageVersion?, switches]
  cases d.package? name <;> rfl

theorem package?_of_packages? (same : d'.packages? = d.packages?) (name : String) :
    d'.package? name = d.package? name :=
  congrArg (fun packages : Option Table => packages.bind (Table.child? name)) same

theorem enabled?_of_find? (same : d'.build?.bind (Table.find? ConfigKey.enabled) =
    d.build?.bind (Table.find? ConfigKey.enabled)) : d'.enabled? = d.enabled? := by
  rw [enabled?, enabled?, same]

end

section Edits

variable {d : BuildDocument} {change : Table → Table × Except Failure Unit} {path : List String}

theorem build?_edit (done : (d.edit change).2 = .ok ()) :
    let edited := change (d.build?.getD (.empty false false))
    edited.2 = .ok () ∧ (d.edit change).1.build? = some edited.1 :=
  Table.child?_editChild done

theorem result_edit (below : Below path change) :
    (d.edit change).2 = opening (ConfigKey.build :: path) d.document.root :=
  (below.editChild ConfigKey.build false).result d.document.root

theorem edit_refused (below : Below path change) {failure : Failure}
    (refused : (d.edit change).2 = .error failure) : (d.edit change).1 = d := by
  have kept := (below.editChild ConfigKey.build false).kept d.document.root failure refused
  exact congrArg d.withRoot kept

end Edits

section SetEnabled

variable {d : BuildDocument} {enabled : Bool}

theorem result_setEnabled :
    (d.setEnabled enabled).2 = opening [ConfigKey.build] d.document.root :=
  result_edit (.here _)

theorem setEnabled_refused {failure : Failure} (refused : (d.setEnabled enabled).2 = .error failure) :
    (d.setEnabled enabled).1 = d :=
  edit_refused (.here _) refused

theorem enabled?_setEnabled (done : (d.setEnabled enabled).2 = .ok ()) :
    (d.setEnabled enabled).1.enabled? = some enabled := by
  have build : (d.setEnabled enabled).1.build? = _ := (build?_edit done).2
  rw [enabled?, build, Option.bind_some, Table.find?_set_self]
  rfl

theorem packages?_setEnabled (done : (d.setEnabled enabled).2 = .ok ()) :
    (d.setEnabled enabled).1.packages? = d.packages? := by
  have build : (d.setEnabled enabled).1.build? = _ := (build?_edit done).2
  rw [packages?, build, Option.bind_some, Table.child?_congr (Table.find?_set_other (by decide) _),
    Table.child?_getD]
  rfl

end SetEnabled

section UpsertPackage

variable {d : BuildDocument} {name version : String}

theorem below_pin (name version : String) :
    Below [ConfigKey.packages, name] (Table.editChild ConfigKey.packages true
      (Table.editChild name false fun package => (pin version package, .ok ()))) :=
  ((Below.here (pin version)).editChild name false).editChild ConfigKey.packages true

theorem result_upsertPackage :
    (d.upsertPackage name version).2 =
      opening [ConfigKey.build, ConfigKey.packages, name] d.document.root :=
  result_edit (below_pin name version)

theorem upsertPackage_refused {failure : Failure}
    (refused : (d.upsertPackage name version).2 = .error failure) :
    (d.upsertPackage name version).1 = d :=
  edit_refused (below_pin name version) refused

theorem enabled?_upsertPackage (done : (d.upsertPackage name version).2 = .ok ()) :
    (d.upsertPackage name version).1.enabled? = d.enabled? := by
  have build : (d.upsertPackage name version).1.build? = _ := (build?_edit done).2
  refine enabled?_of_find? ?_
  rw [build, Option.bind_some, Table.find?_editChild_other (by decide), Table.bind_find?_getD]

theorem packages?_upsertPackage (done : (d.upsertPackage name version).2 = .ok ()) :
    let edited := (d.packages?.getD (.empty true false)).editChild name false
      fun package => (pin version package, .ok ())
    edited.2 = .ok () ∧ (d.upsertPackage name version).1.packages? = some edited.1 := by
  obtain ⟨done, build⟩ := build?_edit done
  obtain ⟨done, packages⟩ := Table.child?_editChild done
  rw [Table.child?_getD] at done packages
  refine ⟨done, ?_⟩
  rw [upsertPackage, BuildDocument.packages?, build]
  exact packages

theorem find?_pin (package : Table) :
    (pin version package).find? ConfigKey.version = some (.value (.new (.text version))) := by
  rw [pin, Table.find?_set_other (by decide), Table.find?_set_self]

theorem package?_upsertPackage (done : (d.upsertPackage name version).2 = .ok ())
    (other : String) :
    (d.upsertPackage name version).1.package? other =
      if other = name then some (pin version ((d.package? name).getD (.empty false false)))
      else d.package? other := by
  obtain ⟨done, packages⟩ := packages?_upsertPackage done
  rw [package?, ← BuildDocument.packages?, packages, Option.bind_some]
  split
  next same =>
    obtain ⟨_, package⟩ := Table.child?_editChild done
    rw [Table.child?_getD] at package
    rw [same]
    exact package
  next ne =>
    rw [Table.child?_congr (Table.find?_editChild_other ne), Table.child?_getD]
    rfl

end UpsertPackage

section RemovePackage

variable {d : BuildDocument} {name : String}

theorem removePackage_of_none (none : d.packages? = none) : (d.removePackage name).1 = d := by
  unfold removePackage
  cases known : d.build? with
  | none => rfl
  | some build =>
    have none : build.child? ConfigKey.packages = Option.none := by
      simpa [packages?, known] using none
    simp only [none]

theorem build?_removePackage (name : String) {build packages : Table} (here : d.build? = some build)
    (found : build.child? ConfigKey.packages = some packages) :
    ∃ build', (d.removePackage name).1.build? = some build' ∧
      (∀ other, other ≠ ConfigKey.packages → build'.find? other = build.find? other) ∧
      ∀ other, (build'.child? ConfigKey.packages).bind (Table.child? other) =
        (packages.remove name).child? other := by
  simp only [removePackage, here, found]
  refine ⟨_, Table.child?_replace here _, ?_, ?_⟩
  · intro other ne
    split
    · exact Toml.Entries.find?_remove_other ne build.entries
    · exact Toml.Entries.find?_replace_other ne _ build.entries
  · intro other
    split
    next empty =>
      have none : (packages.remove name).find? other = none := by
        rw [Table.find?, List.isEmpty_iff.mp empty]
        rfl
      rw [Table.child?_remove, Table.child?, none]
      rfl
    next => rw [Table.child?_replace found, Option.bind_some]

theorem enabled?_removePackage : (d.removePackage name).1.enabled? = d.enabled? := by
  cases known : d.packages? with
  | none => rw [removePackage_of_none known]
  | some packages =>
    obtain ⟨build, here, found⟩ := Option.bind_eq_some_iff.mp known
    obtain ⟨build', changed, kept, _⟩ := build?_removePackage name here found
    refine enabled?_of_find? ?_
    rw [changed, here, Option.bind_some, Option.bind_some, kept _ (by decide)]

theorem package?_removePackage (other : String) :
    (d.removePackage name).1.package? other = if other = name then none else d.package? other := by
  cases known : d.packages? with
  | none =>
    have none : d.package? other = none := by rw [package?, ← packages?, known]; rfl
    rw [removePackage_of_none known, none, ite_self]
  | some packages =>
    obtain ⟨build, here, found⟩ := Option.bind_eq_some_iff.mp known
    obtain ⟨build', changed, _, left⟩ := build?_removePackage name here found
    rw [package?, changed, Option.bind_some, left]
    split
    next same => rw [same, Table.child?_remove]
    next ne =>
      have before : d.package? other = packages.child? other := by
        rw [package?, here, Option.bind_some, found, Option.bind_some]
      rw [before]
      exact Table.child?_congr (Toml.Entries.find?_remove_other ne packages.entries)

end RemovePackage

theorem path_of_load {w : Files.Workspace} {path : Path} {d : BuildDocument}
    (opened : load w path = .ok d) : d.path = path := by
  unfold load at opened
  grind

theorem load_of_readText {w : Files.Workspace} {path : Path} {text : String}
    (read : w.readText path = .ok text) :
    load w path = match Toml.Document.parse text with
      | some document => .ok ⟨path, document⟩
      | none => .error (.malformedConfig path) := by
  cases parsed : Toml.Document.parse text <;> simp only [load, read, parsed]

theorem load_eq_ok_iff {w : Files.Workspace} {path : Path} {text : String} {d : BuildDocument}
    (read : w.readText path = .ok text) :
    load w path = .ok d ↔ Toml.Document.parse text = some d.document ∧ d.path = path := by
  rw [load_of_readText read]
  obtain ⟨own, document⟩ := d
  cases Toml.Document.parse text <;> simp [and_comm, eq_comm]

inductive Edit where
  | setEnabled (enabled : Bool)
  | upsertPackage (name version : String)
  | removePackage (name : String)

namespace Edit

def run (d : BuildDocument) : Edit → BuildDocument × Except Failure Unit
  | setEnabled enabled => d.setEnabled enabled
  | upsertPackage name version => d.upsertPackage name version
  | removePackage name => ((d.removePackage name).1, .ok ())

/-- What an edit does to a switch and a map of packages. -/
def effect (s : Switches) : Edit → Switches
  | setEnabled enabled => { s with enabled := some enabled }
  | upsertPackage name version =>
    { s with packages := Function.update s.packages name (some (some version)) }
  | removePackage name => { s with packages := Function.update s.packages name none }

def path : Edit → List String
  | setEnabled _ => [ConfigKey.build]
  | upsertPackage name _ => [ConfigKey.build, ConfigKey.packages, name]
  | removePackage _ => []

end Edit

section Run

variable {d : BuildDocument} {e : Edit}

theorem result_run : (e.run d).2 = opening e.path d.document.root := by
  cases e with
  | setEnabled enabled => exact result_setEnabled
  | upsertPackage name version => exact result_upsertPackage
  | removePackage name => rfl

theorem run_refused {failure : Failure} (refused : (e.run d).2 = .error failure) :
    (e.run d).1 = d := by
  cases e with
  | setEnabled enabled => exact setEnabled_refused refused
  | upsertPackage name version => exact upsertPackage_refused refused
  | removePackage name => cases refused

theorem switches_run (done : (e.run d).2 = .ok ()) :
    (e.run d).1.switches = e.effect d.switches := by
  cases e with
  | setEnabled enabled =>
    have switch : (d.setEnabled enabled).1.enabled? = some enabled := enabled?_setEnabled done
    have packages : ∀ name, (d.setEnabled enabled).1.package? name = d.package? name :=
      package?_of_packages? (packages?_setEnabled done)
    simp only [Edit.run, switches, switch, packages, Edit.effect]
  | upsertPackage name version =>
    have switch : (d.upsertPackage name version).1.enabled? = d.enabled? :=
      enabled?_upsertPackage done
    simp only [Edit.run, switches, switch, Edit.effect, Switches.mk.injEq, true_and]
    funext other
    rw [package?_upsertPackage done, Function.update_apply]
    split
    · rw [Option.map_some, find?_pin]
      rfl
    · rfl
  | removePackage name =>
    simp only [Edit.run, switches, enabled?_removePackage, Edit.effect, Switches.mk.injEq,
      true_and]
    funext other
    rw [package?_removePackage, Function.update_apply]
    split <;> rfl

theorem path_run (d : BuildDocument) (e : Edit) : (e.run d).1.path = d.path := by
  cases e with
  | setEnabled enabled => rfl
  | upsertPackage name version => rfl
  | removePackage name =>
    simp only [Edit.run, removePackage]
    grind [withRoot]

end Run

/-- What edits make of a document, refused ones included. -/
def after (edits : List Edit) (d : BuildDocument) : BuildDocument :=
  edits.foldl (fun d e => (e.run d).1) d

theorem path_after (d : BuildDocument) (edits : List Edit) : (d.after edits).path = d.path := by
  induction edits generalizing d with
  | nil => rfl
  | cons e edits ih => exact (ih _).trans (path_run d e)

theorem after_refused {d : BuildDocument} {e : Edit} {failure : Failure}
    (refused : (e.run d).2 = .error failure) (edits : List Edit) :
    d.after (e :: edits) = d.after edits :=
  congrArg (after edits) (run_refused refused)

def accepted (d : BuildDocument) : List Edit → List Edit
  | [] => []
  | e :: edits =>
    match (e.run d).2 with
    | .ok _ => e :: accepted (e.run d).1 edits
    | .error _ => accepted (e.run d).1 edits

theorem after_accepted (d : BuildDocument) (edits : List Edit) :
    d.after (d.accepted edits) = d.after edits := by
  induction edits generalizing d with
  | nil => rfl
  | cons e edits ih =>
    rw [accepted]
    cases done : (e.run d).2 with
    | ok _ => exact ih (e.run d).1
    | error failure =>
      rw [after_refused done edits]
      simp only [run_refused done]
      exact ih d

theorem switches_after (d : BuildDocument) (edits : List Edit) :
    (d.after edits).switches = (d.accepted edits).foldl Edit.effect d.switches := by
  induction edits generalizing d with
  | nil => rfl
  | cons e edits ih =>
    rw [accepted]
    cases done : (e.run d).2 with
    | ok _ =>
      rw [List.foldl_cons, ← switches_run done]
      exact ih (e.run d).1
    | error failure =>
      rw [after_refused done edits]
      simp only [run_refused done]
      exact ih d

/-- How a document answers its edits, each of them told by the questions that it leaves as they
were and by the one that it settles. -/
structure Answers (d : BuildDocument) : Prop where
  setEnabled : ∀ enabled, (d.setEnabled enabled).2 = .ok () →
    let later := (d.setEnabled enabled).1
    later.enabled? = some enabled ∧ ∀ name, later.hasPackage name = d.hasPackage name ∧
      later.packageVersion? name = d.packageVersion? name
  upsertPackage : ∀ name version, (d.upsertPackage name version).2 = .ok () →
    let later := (d.upsertPackage name version).1
    later.hasPackage name = true ∧ later.packageVersion? name = some version ∧
      later.enabled? = d.enabled? ∧ ∀ other, other ≠ name →
        later.hasPackage other = d.hasPackage other ∧
          later.packageVersion? other = d.packageVersion? other
  removePackage : ∀ name,
    let later := (d.removePackage name).1
    later.hasPackage name = false ∧ later.packageVersion? name = none ∧
      later.enabled? = d.enabled? ∧ ∀ other, other ≠ name →
        later.hasPackage other = d.hasPackage other ∧
          later.packageVersion? other = d.packageVersion? other
  refused : ∀ e failure, (Edit.run d e).2 = .error failure →
    (e.run d).1 = d ∧ (e.run d).1.text = d.text
  /-- An edit is refused only where something else than a table stands on its way. -/
  result : ∀ e, (Edit.run d e).2 = opening e.path d.document.root

theorem answers (d : BuildDocument) : Answers d := by
  constructor
  case setEnabled =>
    intro enabled done
    have told : (d.setEnabled enabled).1.switches = _ := switches_run (e := .setEnabled enabled) done
    simp [hasPackage_eq, packageVersion?_eq, told, Edit.effect, enabled?_setEnabled done]
  case upsertPackage =>
    intro name version done
    have told : (d.upsertPackage name version).1.switches = _ :=
      switches_run (e := .upsertPackage name version) done
    simp +contextual [hasPackage_eq, packageVersion?_eq, told, Edit.effect,
      enabled?_upsertPackage done]
  case removePackage =>
    intro name
    have told : (d.removePackage name).1.switches = _ :=
      switches_run (e := .removePackage name) rfl
    simp +contextual [hasPackage_eq, packageVersion?_eq, told, Edit.effect, enabled?_removePackage]
  case refused =>
    intro e failure refused
    have same := run_refused refused
    exact ⟨same, congrArg text same⟩
  case result => exact fun _ => result_run

/-- However often a document is edited, it answers as a switch and a map of packages, and it is as
its accepted edits alone would have made it. -/
theorem answers_after (d : BuildDocument) (edits : List Edit) :
    Answers (d.after edits) ∧ d.after edits = d.after (d.accepted edits) ∧
      (d.after edits).switches = (d.accepted edits).foldl Edit.effect d.switches :=
  ⟨answers _, (after_accepted d edits).symm, switches_after d edits⟩

end BuildDocument

end ClassDiagram
