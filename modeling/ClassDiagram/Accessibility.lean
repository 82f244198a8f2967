import ClassDiagram.Failure
import ClassDiagram.Text.Blank

/-! Declared accessibility and the floor that a drawn type has to reach. The four ranks are
public 4, internal 3, protected 2, private 1; each of the two compound levels shares the rank
of one simple level. -/

namespace ClassDiagram

inductive Accessibility where
  | pub
  | intern
  | protIntern
  | prot
  | privProt
  | priv
  deriving DecidableEq

namespace Accessibility

def all : List Accessibility := [pub, intern, protIntern, prot, privProt, priv]

def label : Accessibility → String
  | pub => "public"
  | intern => "internal"
  | protIntern => "protected internal"
  | prot => "protected"
  | privProt => "private protected"
  | priv => "private"

def rank : Accessibility → Nat
  | pub => 4
  | intern | protIntern => 3
  | prot => 2
  | privProt | priv => 1

def ofTag? (tag : String) : Option Accessibility :=
  match tag with
  | "public" => some pub
  | "internal" => some intern
  | "protected internal" | "protected_internal" | "protectedorinternal" => some protIntern
  | "protected" => some prot
  | "private protected" | "private_protected" | "protectedandinternal" => some privProt
  | "private" => some priv
  | _ => none

def ofText? (text : String) : Option Accessibility := ofTag? (Text.trim text).toLower

def parse (text : String) : Except Failure Accessibility :=
  match ofText? text with
  | some access => .ok access
  | none => .error (.unknownAccess text)

end Accessibility

/-- The least rank that is drawn. -/
inductive AccessFloor where
  | pub
  | intern
  | prot
  | priv
  deriving DecidableEq

namespace AccessFloor

def rank : AccessFloor → Nat
  | pub => 4
  | intern => 3
  | prot => 2
  | priv => 1

def label : AccessFloor → String
  | pub => "public"
  | intern => "internal"
  | prot => "protected"
  | priv => "private"

/-- Any other text means that public types alone are drawn. -/
def parse (text : String) : AccessFloor :=
  match (Text.trim text).toLower with
  | "internal" => intern
  | "protected" => prot
  | "private" => priv
  | _ => pub

def admits (floor : AccessFloor) (access : Accessibility) : Bool := floor.rank ≤ access.rank

theorem admits_mono {f g : AccessFloor} (h : g.rank ≤ f.rank) {access : Accessibility}
    (admitted : f.admits access = true) : g.admits access = true := by
  simp only [admits, decide_eq_true_eq] at *
  omega

end AccessFloor

end ClassDiagram
