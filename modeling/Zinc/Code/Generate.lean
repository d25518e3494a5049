import Zinc.Code.Instr
import Zinc.Fault
import Zinc.Limits
import Zinc.Lir.Basic

/-!
Code generation.  The arguments of an application are computed and pushed from
the right, then its head is computed:

* `f a b` in value position: `PUSHMARK; b; PUSH; a; PUSH; f; APPLY`
* `f a b` in tail position: `b; PUSH; a; PUSH; f; APPTERM`
* a function in value position: `CLOSURE n` and a body of `n` bytes
* a function in tail position: `GRAB` and its body in tail position
* `let` around a body: `value; LET; body; ENDLET`
* a tuple: every field followed by `PUSH`, then `MKB n`

The code of an expression does not depend on where it will stand.  Generating it
also fills in the depths of the variables; when it fails, the variables met
before the failure have their depths and the others do not.
-/

namespace Zinc

/-- Where the value of an expression goes. -/
inductive Position where
  /-- Into the accumulator, and control falls through. -/
  | value
  /-- Into the accumulator, as the function of arguments already pushed. -/
  | head
  /-- Out of the current call. -/
  | tail
deriving DecidableEq, Repr

/-- Where the value of a `let` body goes. -/
def Position.ofBody : Position → Position
  | .tail => .tail
  | _ => .value

/-- An expression with the depths known so far, and its code. -/
structure Generated where
  tree : Lir
  code : Except Fault (List Instr)

namespace Lir

/-- A variable whose binder does not enclose it. -/
def looseVariable : Fault where
  kind := .internal
  op := Opcode.access.name
  cause := .unboundVariable

/-- A variable too far from its binder. -/
def indexTooLarge (index : Nat) : Fault where
  kind := .capacity
  op := Opcode.access.name
  cause := .operandRange
  detail := some ("index " ++ toString index ++ ", limit " ++ toString maxAccessIndex)

/-- A global without a slot. -/
def slotUnknown (symbol : Symbol) : Fault where
  kind := .internal
  op := Opcode.getGlobal.name
  cause := .unknownGlobal
  detail := some symbol.name

/-- A closure body too long for its operand. -/
def bodyTooLong (length : Nat) : Fault where
  kind := .capacity
  op := Opcode.closure.name
  cause := .operandRange
  detail := some ("body of " ++ toString length ++ " bytes, limit " ++ toString maxBodyLength)

/-- A block of too many fields. -/
def tooManyFields (count : Nat) : Fault where
  kind := .capacity
  op := Opcode.makeBlock.name
  cause := .operandRange
  detail := some (toString count ++ " fields, limit " ++ toString maxBlockFields)

/-- An absent node. -/
def nodeUnknown : Fault where
  kind := .internal
  op := "compile"
  cause := .unknownNode
  detail := some "<nil>"

/-- Code that leaves a value in the accumulator, made to fit a position. -/
def settle (p : Position) (code : List Instr) : List Instr :=
  match p with
  | .tail => code ++ [.ret]
  | _ => code

/-- A function body made to fit a position: taken over in tail position, wrapped
in a closure elsewhere. -/
def closeOver (p : Position) (body : List Instr) : Except Fault (List Instr) :=
  match p with
  | .tail => .ok body
  | _ =>
    let length := Instr.sizeAll body
    if maxBodyLength < length then .error (bodyTooLong length)
    else .ok (.closure (UInt16.ofNat length) :: body)

/-- The pushed arguments and the head of an application, made to fit a position. -/
def closeCall (p : Position) (spine : List Instr) : List Instr :=
  match p with
  | .value => .pushMark :: spine ++ [.apply]
  | .head => spine
  | .tail => spine ++ [.appTerm]

mutual

/-- The code of an expression whose enclosing binders are `scope`, innermost
first, where `slot` gives the slots of the globals. -/
def generate (slot : Symbol → Option Nat) (scope : List Nat) (p : Position) : Lir → Generated
  | .int value => ⟨.int value, .ok (settle p [.int64 value])⟩
  | .var origin depth =>
    match scope.idxOf? origin with
    | none => ⟨.var origin depth, .error looseVariable⟩
    | some index =>
      if maxAccessIndex < index then ⟨.var origin depth, .error (indexTooLarge index)⟩
      else ⟨.var origin index, .ok (settle p [.access (UInt8.ofNat index)])⟩
  | .global symbol =>
    match slot symbol with
    | none => ⟨.global symbol, .error (slotUnknown symbol)⟩
    | some i => ⟨.global symbol, .ok (settle p [.getGlobal (UInt16.ofNat i)])⟩
  | .app fn arg =>
    let a := generate slot scope .value arg
    match a.code with
    | .error f => ⟨.app fn a.tree, .error f⟩
    | .ok argCode =>
      let g := generate slot scope .head fn
      ⟨.app g.tree a.tree, g.code.map fun fnCode => closeCall p (argCode ++ .push :: fnCode)⟩
  | .lam id body =>
    let b := generate slot (id :: scope) .tail body
    ⟨.lam id b.tree, b.code.bind fun code => closeOver p (.grab :: code)⟩
  | .letIn id value body =>
    let v := generate slot scope .value value
    match v.code with
    | .error f => ⟨.letIn id v.tree body, .error f⟩
    | .ok valueCode =>
      let inner := match p with
        | .tail => .tail
        | _ => .value
      let b := generate slot (id :: scope) inner body
      ⟨.letIn id v.tree b.tree, b.code.map fun code => valueCode ++ .bind :: code ++ [.unbind]⟩
  | .block kind fields =>
    if maxBlockFields < fields.length then
      ⟨.block kind fields, .error (tooManyFields fields.length)⟩
    else
      let (trees, code) := generateFields slot scope fields [] []
      ⟨.block kind trees,
        code.map fun is => settle p (is ++ [.makeBlock (UInt16.ofNat fields.length)])⟩
  | .missing => ⟨.missing, .error nodeUnknown⟩

/-- The code that pushes every field; `done` and `code` hold the fields before
them and their code, both in reverse. -/
def generateFields (slot : Symbol → Option Nat) (scope : List Nat) :
    List Lir → List Lir → List Instr → List Lir × Except Fault (List Instr)
  | [], done, code => (done.reverse, .ok code.reverse)
  | field :: rest, done, code =>
    let g := generate slot scope .value field
    match g.code with
    | .error f => (done.reverse ++ g.tree :: rest, .error f)
    | .ok is => generateFields slot scope rest (g.tree :: done) (.push :: is.reverseAux code)

end

/-- The code of an expression that is run on its own. -/
def generateEntry (slot : Symbol → Option Nat) (e : Lir) : Generated :=
  let g := generate slot [] .value e
  { g with code := g.code.map (· ++ [.ret]) }

/-- A definition of a global without a slot. -/
def definitionUnknown (symbol : Symbol) : Fault where
  kind := .internal
  op := "define"
  cause := .unknownGlobal
  detail := some symbol.name

/-- The code that computes an expression and stores it in a global. -/
def generateDefinition (slot : Symbol → Option Nat) (symbol : Symbol) (e : Lir) : Generated :=
  match slot symbol with
  | none => ⟨e, .error (definitionUnknown symbol)⟩
  | some i =>
    let g := generate slot [] .value e
    { g with code := g.code.map (· ++ [.setGlobal (UInt16.ofNat i), .ret]) }

end Lir

end Zinc
