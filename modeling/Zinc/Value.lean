/-!
Machine words.  A value is an integer, the place of a closure's code, the mark
between the arguments of two calls, the empty environment, or a reference to a heap
object together with the kind that the object had when the reference was made.
-/

namespace Zinc

/-- The kind of a value, which is also the tag of a heap object. -/
inductive Kind where
  | undefined
  | int
  | closure
  | tuple
  | env
  | mark
  | other (code : UInt8)
deriving DecidableEq, Repr, Inhabited

namespace Kind

/-- The kind with the given number. -/
def ofByte (b : UInt8) : Kind :=
  match b.toNat with
  | 0 => undefined
  | 1 => int
  | 2 => closure
  | 3 => tuple
  | 4 => env
  | 5 => mark
  | _ => other b

/-- The name of a kind. -/
def text : Kind → String
  | undefined => "undefined"
  | int => "int"
  | closure => "closure"
  | tuple => "tuple"
  | env => "env"
  | mark => "mark"
  | other code => "kind(" ++ toString code.toNat ++ ")"

/-- Whether values of this kind may be handed to a host. -/
def isPublic : Kind → Bool
  | int | closure | tuple => true
  | _ => false

end Kind

/-- A machine word. -/
inductive Value where
  | undefined
  | int (n : Int64)
  /-- An offset into the code area, which only closures hold. -/
  | code (offset : Int)
  | mark
  | emptyEnv
  | ref (kind : Kind) (addr : Nat)
deriving DecidableEq, Repr, Inhabited

namespace Value

/-- The kind of a value. -/
def kind : Value → Kind
  | undefined => .undefined
  | int _ => .int
  | code _ => .int
  | mark => .mark
  | emptyEnv => .env
  | ref k _ => k

/-- Whether a value is a mark. -/
def isMark (v : Value) : Bool :=
  v.kind == .mark

/-- The integer of a value, zero if it is none. -/
def asInt : Value → Int64
  | int n => n
  | code offset => Int64.ofInt offset
  | _ => 0

/-- The place in the code area that a value names, zero if it is none. -/
def asOffset : Value → Int
  | code offset => offset
  | int n => n.toInt
  | _ => 0

/-- The object that a value refers to. -/
def address? : Value → Option Nat
  | ref _ a => some a
  | _ => none

end Value

end Zinc
