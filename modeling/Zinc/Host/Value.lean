import Zinc.Handle
import Zinc.Host.Type

/-!
Values of a host program.  Texts, fractions, functions and maps cannot be handed
over, so that only their types are kept.
-/

namespace Zinc

/-- Host values.  A record has one value for each of its fields. -/
inductive HostValue where
  | int (t : IntType) (n : Int)
  | address (n : Int)
  | bool (b : Bool)
  | string (s : String)
  | float
  | func
  | any (content : Option HostValue)
  | handle (h : Handle)
  | slice (elem : HostType) (items : List HostValue)
  | array (elem : HostType) (items : List HostValue)
  | ptr (elem : HostType) (target : Option HostValue)
  | map (key value : HostType)
  | struct (fields : FieldTypes) (values : List HostValue)
deriving Repr, Inhabited

/-- The type of a value. -/
def HostValue.type : HostValue → HostType
  | int t _ => .int t
  | address _ => .address
  | bool _ => .bool
  | string _ => .string
  | float => .float
  | func => .func
  | any _ => .any
  | handle _ => .handle
  | slice elem _ => .slice elem
  | array elem items => .array items.length elem
  | ptr elem _ => .ptr elem
  | map key value => .map key value
  | struct fields _ => .struct fields

/-- What a value is once it is passed on as a value of any type: the content of an
`any` takes its place, down to one that is empty. -/
def HostValue.dynamic? : HostValue → Option HostValue
  | any none => none
  | any (some v) => v.dynamic?
  | v => some v

mutual

/-- The value that a variable of a type starts with. -/
def HostType.zero : HostType → HostValue
  | .int t => .int t 0
  | .address => .address 0
  | .bool => .bool false
  | .string => .string ""
  | .float => .float
  | .func => .func
  | .any => .any none
  | .handle => .handle {}
  | .slice elem => .slice elem []
  | .array size elem => .array elem (List.replicate size elem.zero)
  | .ptr elem => .ptr elem none
  | .map key value => .map key value
  | .struct fields => .struct fields fields.zeros

/-- The values that the fields of a record start with. -/
def FieldTypes.zeros : FieldTypes → List HostValue
  | .nil => []
  | .cons _ type rest => type.zero :: rest.zeros

end

end Zinc
