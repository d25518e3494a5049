import Zinc.Text.Upper

/-!
The types of a host program, as far as values of them can be handed over.
-/

namespace Zinc

/-- Integer types. -/
inductive IntType where
  | int
  | int8
  | int16
  | int32
  | int64
  | uint
  | uint8
  | uint16
  | uint32
  | uint64
deriving DecidableEq, Repr, Inhabited

namespace IntType

/-- The name of an integer type. -/
def text : IntType → String
  | int => "int"
  | int8 => "int8"
  | int16 => "int16"
  | int32 => "int32"
  | int64 => "int64"
  | uint => "uint"
  | uint8 => "uint8"
  | uint16 => "uint16"
  | uint32 => "uint32"
  | uint64 => "uint64"

/-- Half as many as there are numbers of the type. -/
def half : IntType → Int
  | int8 | uint8 => 0x80
  | int16 | uint16 => 0x8000
  | int32 | uint32 => 0x80000000
  | int | int64 | uint | uint64 => 0x8000000000000000

/-- Whether the type has negative numbers. -/
def isSigned : IntType → Bool
  | int | int8 | int16 | int32 | int64 => true
  | uint | uint8 | uint16 | uint32 | uint64 => false

/-- The least number of the type. -/
def least (t : IntType) : Int :=
  if t.isSigned then -t.half else 0

/-- The greatest number of the type. -/
def greatest (t : IntType) : Int :=
  if t.isSigned then t.half - 1 else 2 * t.half - 1

/-- Whether a number belongs to the type. -/
def holds (t : IntType) (n : Int) : Bool :=
  t.least ≤ n && n ≤ t.greatest

end IntType

mutual

/-- Host types, none of which is a type that a host has defined under a name.  `any` holds a
value of any type or nothing. -/
inductive HostType where
  | int (t : IntType)
  | address
  | bool
  | string
  | float
  | func
  | any
  | handle
  | slice (elem : HostType)
  | array (size : Nat) (elem : HostType)
  | ptr (elem : HostType)
  | map (key value : HostType)
  | struct (fields : FieldTypes)
deriving DecidableEq, Repr, Inhabited

/-- The names and types of the fields of a record. -/
inductive FieldTypes where
  | nil
  | cons (name : String) (type : HostType) (rest : FieldTypes)
deriving DecidableEq, Repr, Inhabited

end

/-- The fields in a list. -/
def FieldTypes.ofList : List (String × HostType) → FieldTypes
  | [] => nil
  | (name, type) :: rest => cons name type (ofList rest)

/-- Whether a field can be seen from outside: its name starts with a capital. -/
def isExported (name : String) : Bool :=
  name.toList.head?.any Text.isUpper

mutual

/-- How a type is written. -/
def HostType.text : HostType → String
  | .int t => t.text
  | .address => "uintptr"
  | .bool => "bool"
  | .string => "string"
  | .float => "float64"
  | .func => "func()"
  | .any => "interface \x7b\x7d"
  | .handle => "wist.Handle"
  | .slice elem => "[]" ++ elem.text
  | .array size elem => "[" ++ toString size ++ "]" ++ elem.text
  | .ptr elem => "*" ++ elem.text
  | .map key value => "map[" ++ key.text ++ "]" ++ value.text
  | .struct .nil => "struct \x7b\x7d"
  | .struct (.cons name type rest) =>
    "struct \x7b " ++ name ++ " " ++ type.text ++ rest.moreText ++ " \x7d"

/-- How the fields after the first are written. -/
def FieldTypes.moreText : FieldTypes → String
  | .nil => ""
  | .cons name type rest => "; " ++ name ++ " " ++ type.text ++ rest.moreText

end

end Zinc
