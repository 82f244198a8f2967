import ClassDiagram.Failure

/-! The structural kinds of a type. A kind is read in two ways: loosely from a text in any
case, and strictly from the tags that a symbol dump may hold. -/

namespace ClassDiagram

inductive TypeKind where
  | classType
  | structType
  | interfaceType
  | enumType
  | delegateType
  | recordClass
  | recordStruct
  deriving DecidableEq

namespace TypeKind

def all : List TypeKind :=
  [classType, structType, interfaceType, enumType, delegateType, recordClass, recordStruct]

def label : TypeKind → String
  | classType => "class"
  | structType => "struct"
  | interfaceType => "interface"
  | enumType => "enum"
  | delegateType => "delegate"
  | recordClass => "record_class"
  | recordStruct => "record_struct"

def ofTag? (tag : String) : Option TypeKind :=
  match tag with
  | "class" => some classType
  | "struct" => some structType
  | "interface" => some interfaceType
  | "enum" => some enumType
  | "delegate" => some delegateType
  | "record_class" | "record" => some recordClass
  | "record_struct" | "record struct" => some recordStruct
  | _ => none

def ofText? (text : String) : Option TypeKind :=
  match text.toLower with
  | "enumeration" => some enumType
  | "record class" => some recordClass
  | tag => ofTag? tag

def parse (text : String) : Except Failure TypeKind :=
  match ofText? text with
  | some kind => .ok kind
  | none => .error (.unknownKind text)

end TypeKind

end ClassDiagram
