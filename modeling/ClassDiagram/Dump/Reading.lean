import ClassDiagram.Dump.TypeDecl
import ClassDiagram.Json.Number
import ClassDiagram.Json.Reading

/-! A symbol dump read from JSON. A record may be written as an object, with unknown members
ignored, or as an array of its fields in order, the last ones left out. What is decoded may be
nested so far and no further; what is ignored may be nested at will. -/

namespace ClassDiagram.Dump

open Json (Source)

def levels : Nat := 127

def fields? (names : List String) : Source → Option (List (Option Source))
  | .object members =>
    let sound := members.all fun m => m.1.isSome
    let once := names.all fun name => (members.filter fun m => m.1 = some name).length ≤ 1
    if sound && once then
      some (names.map fun name => (members.find? fun m => m.1 = some name).map Prod.snd)
    else none
  | .array items =>
    if items.length ≤ names.length then
      some (items.map some ++ List.replicate (names.length - items.length) none)
    else none
  | _ => none

def fieldOr {α : Type} (default : α) (read : Source → Option α) : Option Source → Option α
  | none => some default
  | some source => read source

def readString : Source → Option String
  | .string text => text
  | _ => none

def readBool : Source → Option Bool
  | .bool b => some b
  | _ => none

def readOpt {α : Type} (read : Source → Option α) : Source → Option (Option α)
  | .null => some none
  | source => (read source).map some

def readWord : Source → Option Nat
  | .number lexeme =>
    if lexeme.toList.all Char.isDigit then
      lexeme.toNat?.filter fun n => n < 0x100000000
    else none
  | _ => none

/-- Reads a tag, which may also be the only key of an object with the value null. -/
def readTag {α : Type} (ofTag? : String → Option α) : Source → Option α
  | .string (some tag) => ofTag? tag
  | .object [(some tag, .null)] => ofTag? tag
  | _ => none

def readKind : Source → Option TypeKind := readTag TypeKind.ofTag?

def readAccess : Source → Option Accessibility := readTag Accessibility.ofTag?

mutual

/-- Whether a value can be held as a whole before anything in it is decoded. -/
def holdable (depth : Nat) : Source → Bool
  | .string text => text.isSome
  | .number lexeme => (Json.Number.ofNumeral? lexeme.toList).isSome
  | .array items => 0 < depth && holdableItems (depth - 1) items
  | .object members => 0 < depth && holdableMembers (depth - 1) members
  | _ => true

def holdableItems (depth : Nat) : List Source → Bool
  | [] => true
  | item :: rest => holdable depth item && holdableItems depth rest

def holdableMembers (depth : Nat) : List (Option String × Source) → Bool
  | [] => true
  | (key, value) :: rest =>
    key.isSome && holdable depth value && holdableMembers depth rest

end

def readRef (depth : Nat) : Source → Option TypeRef
  | .string text => text.map fun id => .declared (some id) false
  | source@(.object _) =>
    if !holdable depth source then none
    else match fields? ["id", "root"] source with
      | some [id, root] => do
        let id ← fieldOr none (readOpt readString) id
        let root ← fieldOr false readBool root
        some (.declared id root)
      | _ => none
  | _ => none

def readRefs (depth : Nat) : Source → Option (List TypeRef)
  | .array items =>
    if depth = 0 then none
    else items.mapM fun item => (readOpt (readRef (depth - 1)) item).map fun ref =>
      ref.getD .unresolved
  | _ => none

def typeFields : List String :=
  ["name", "namespace", "id", "arity", "kind", "accessibility", "abstract", "sealed", "static",
    "in_source", "base", "interfaces", "nested"]

/-- Reads a declaration whose own entries have `depth` levels left; `nested` reads the list of
the types in it. -/
def readType (depth : Nat) (nested : Source → Option (List TypeDecl)) (source : Source) :
    Option TypeDecl :=
  match fields? typeFields source with
  | some [name, scope, id, arity, kind, access, isAbstract, isSealed, isStatic, inSource, base,
      interfaces, inner] => do
    let name ← name.bind readString
    let scope ← fieldOr "" readString scope
    let id ← fieldOr none (readOpt readString) id
    let arity ← fieldOr 0 readWord arity
    let kind ← fieldOr .classType (enclosed depth readKind) kind
    let access ← fieldOr none (readOpt (enclosed depth readAccess)) access
    let isAbstract ← fieldOr false readBool isAbstract
    let isSealed ← fieldOr false readBool isSealed
    let isStatic ← fieldOr false readBool isStatic
    let inSource ← fieldOr true readBool inSource
    let base ← fieldOr none (readOpt (readRef depth)) base
    let interfaces ← fieldOr [] (readRefs depth) interfaces
    let nested ← fieldOr [] nested inner
    some
      { name, scope, id, arity, kind, access, isAbstract, isSealed, isStatic, inSource, base,
        interfaces, nested }
  | _ => none
where
  /-- A tag that is written as an object takes a level. -/
  enclosed {α : Type} (depth : Nat) (read : Source → Option α) : Source → Option α
    | source@(.object _) => if depth = 0 then none else read source
    | source => read source

/-- Reads a list of declarations. The list takes a level, and so does each declaration. -/
def readTypes : Nat → Source → Option (List TypeDecl)
  | depth + 2, .array items => items.mapM (readType depth (readTypes depth))
  | 1, .array [] => some []
  | _, _ => none

def read (source : Source) : Option Dump :=
  match fields? ["name", "types", "references"] source with
  | some [name, types, references] => do
    let name ← fieldOr none (readOpt readString) name
    let types ← fieldOr [] (readTypes (levels - 1)) types
    let references ← fieldOr [] (readTypes (levels - 1)) references
    some { name, types, references }
  | _ => none

def parse (text : String) : Option Dump := (Json.read text).bind read

end ClassDiagram.Dump
