import Zinc.Code.Area
import Zinc.Code.Generate

/-!
Writing code in one pass.  An emitter appends instructions to a code area that other
units have been written to before.  The length of a closure body is not known when its
instruction is written, so a placeholder stands there until the body is complete and is
then overwritten in place.

When something cannot be encoded, writing stops where it is, with half of the unit in
the code area, with placeholders and with binders in scope.  The unit is then cut off
again, and the next one starts in an empty scope.  So what is written in the end is the
code that is generated for the unit on its own.
-/

namespace Zinc

/-- An emitter: the code area that it writes to and the nodes of the binders in scope,
innermost first. -/
structure Emitter where
  code : Code
  scope : List Nat := []

/-- How far the writing of an expression got: the tree with the depths known so far, the
fault that stopped it, and the emitter after it. -/
structure Emitted where
  tree : Lir
  fault : Option Fault
  after : Emitter

/-- A compiled unit: the tree with the depths filled in as far as compilation got, and
where its code starts. -/
structure Compiled where
  tree : Lir
  entry : Except Fault Nat

namespace Emitter

/-- Appends an instruction. -/
def write (c : Emitter) (i : Instr) : Emitter :=
  { c with code := c.code.append i.encode }

/-- Goes into the scope of a binder. -/
def enter (c : Emitter) (id : Nat) : Emitter :=
  { c with scope := id :: c.scope }

/-- Goes out of the innermost scope. -/
def leave (c : Emitter) : Emitter :=
  { c with scope := c.scope.tail }

/-- Hands on the value in the accumulator. -/
def settle (c : Emitter) (p : Position) : Emitter :=
  match p with
  | .tail => c.write .ret
  | _ => c

/-- Starts a call. -/
def openCall (c : Emitter) (p : Position) : Emitter :=
  match p with
  | .value => c.write .pushMark
  | _ => c

/-- Makes the call whose arguments are pushed and whose function is computed. -/
def closeCall (c : Emitter) (p : Position) : Emitter :=
  match p with
  | .value => c.write .apply
  | .head => c
  | .tail => c.write .appTerm

/-- Starts the code of a function.  Its length stands right after the opcode of the
closure; the placeholder there is the largest length. -/
def openBody (c : Emitter) (p : Position) : Emitter :=
  match p with
  | .tail => c.write .grab
  | _ => (c.write (.closure 0xffff)).write .grab

/-- Ends the code of a function that was started at offset `start`: the length of all that
was written behind the instruction there becomes its operand. -/
def closeBody (c : Emitter) (p : Position) (start : Nat) : Option Fault × Emitter :=
  match p with
  | .tail => (none, c)
  | _ =>
    let operand := start + 1
    let length := c.code.size - operand - 2
    if maxBodyLength < length then (some (Lir.bodyTooLong length), c)
    else
      let patched := c.code.patch16? operand (UInt16.ofNat length)
      (none, { c with code := patched.getD c.code })

end Emitter

namespace Lir

mutual

/-- Writes the code of an expression, where `slot` gives the slots of the globals. -/
def emit (slot : Symbol → Option Nat) (p : Position) (c : Emitter) : Lir → Emitted
  | .int value => ⟨.int value, none, (c.write (.int64 value)).settle p⟩
  | .var origin depth =>
    match c.scope.idxOf? origin with
    | none => ⟨.var origin depth, some looseVariable, c⟩
    | some index =>
      if maxAccessIndex < index then ⟨.var origin depth, some (indexTooLarge index), c⟩
      else ⟨.var origin index, none, (c.write (.access (UInt8.ofNat index))).settle p⟩
  | .global symbol =>
    match slot symbol with
    | none => ⟨.global symbol, some (slotUnknown symbol), c⟩
    | some i => ⟨.global symbol, none, (c.write (.getGlobal (UInt16.ofNat i))).settle p⟩
  | .app fn arg =>
    match emit slot .value (c.openCall p) arg with
    | ⟨arg, some f, c⟩ => ⟨.app fn arg, some f, c⟩
    | ⟨arg, none, c⟩ =>
      match emit slot .head (c.write .push) fn with
      | ⟨fn, some f, c⟩ => ⟨.app fn arg, some f, c⟩
      | ⟨fn, none, c⟩ => ⟨.app fn arg, none, c.closeCall p⟩
  | .lam id body =>
    let start := c.code.size
    match emit slot .tail ((c.openBody p).enter id) body with
    | ⟨body, some f, c⟩ => ⟨.lam id body, some f, c⟩
    | ⟨body, none, c⟩ =>
      let (fault, c) := c.leave.closeBody p start
      ⟨.lam id body, fault, c⟩
  | .letIn id value body =>
    match emit slot .value c value with
    | ⟨value, some f, c⟩ => ⟨.letIn id value body, some f, c⟩
    | ⟨value, none, c⟩ =>
      match emit slot p.ofBody ((c.write .bind).enter id) body with
      | ⟨body, some f, c⟩ => ⟨.letIn id value body, some f, c⟩
      | ⟨body, none, c⟩ => ⟨.letIn id value body, none, c.leave.write .unbind⟩
  | .block kind fields =>
    let count := fields.length
    if maxBlockFields < count then
      ⟨.block kind fields, some (tooManyFields count), c⟩
    else
      match emitFields slot c fields [] with
      | (fields, some f, c) => ⟨.block kind fields, some f, c⟩
      | (fields, none, c) =>
        ⟨.block kind fields, none, (c.write (.makeBlock (UInt16.ofNat count))).settle p⟩
  | .missing => ⟨.missing, some nodeUnknown, c⟩

/-- Writes the code that pushes every field; `done` holds the fields before them, the
last one first. -/
def emitFields (slot : Symbol → Option Nat) (c : Emitter) :
    List Lir → List Lir → List Lir × Option Fault × Emitter
  | [], done => (done.reverse, none, c)
  | field :: rest, done =>
    match emit slot .value c field with
    | ⟨field, some f, c⟩ => (done.reverse ++ field :: rest, some f, c)
    | ⟨field, none, c⟩ => emitFields slot (c.write .push) rest (field :: done)

end

end Lir

namespace Emitter

/-- Ends a unit, unless it was stopped: writes its last instructions. -/
def finish (r : Emitted) (is : List Instr) : Emitted :=
  match r.fault with
  | none => { r with after := is.foldl write r.after }
  | some _ => r

/-- Writes a unit, or leaves the code area as it was. -/
def compile (c : Emitter) (unit : Emitter → Emitted) : Compiled × Emitter :=
  let entry := c.code.size
  match unit { c with scope := [] } with
  | ⟨tree, none, c⟩ => (⟨tree, .ok entry⟩, c)
  | ⟨tree, some f, c⟩ => (⟨tree, .error f⟩, { code := ⟨c.code.bytes.take entry⟩ })

/-- Compiles an expression that is run on its own. -/
def compileExpr (c : Emitter) (slot : Symbol → Option Nat) (e : Lir) : Compiled × Emitter :=
  c.compile fun c => finish (e.emit slot .value c) [.ret]

/-- Compiles the code that computes an expression and stores it in a global. -/
def compileDefinition (c : Emitter) (slot : Symbol → Option Nat) (s : Symbol) (e : Lir) :
    Compiled × Emitter :=
  c.compile fun c =>
    match slot s with
    | none => ⟨e, some (Lir.definitionUnknown s), c⟩
    | some i => finish (e.emit slot .value c) [.setGlobal (UInt16.ofNat i), .ret]

end Emitter

end Zinc
