import Zinc.Machine.State

/-!
What a host can do with a machine without running code: open and close handle
frames, root values, build tuples, declare and read globals, and close the
machine.  A closed machine refuses everything.
-/

namespace Zinc.Machine

/-- An operation on a closed machine. -/
def closedFault (op : String) : Fault where
  kind := .usage
  op := op
  cause := .closed

/-- Goes on unless the machine is closed. -/
def whenOpen {α : Type} (m : Machine) (op : String) (k : Machine → Reply α) : Reply α :=
  if m.closed then (.error (closedFault op), m) else k m

/-- Goes on unless the machine is closed or has no handle frame. -/
def whenFramed {α : Type} (m : Machine) (op : String) (k : Machine → Reply α) : Reply α :=
  m.whenOpen op fun m =>
    if m.handles.depth = 0 then (.error (HandleStack.noFrame op), m) else k m

/-- Closes the machine and releases its heap. -/
def close (m : Machine) : Reply Unit :=
  m.whenOpen "close" fun m =>
    (.ok (), { m with
      heap := m.heap.destroyAll
      regs := { m.regs with acc := .undefined, env := .emptyEnv, args := .empty, returns := .empty }
      saved := #[]
      closed := true })

/-- Opens a handle frame. -/
def pushFrame (m : Machine) : Reply Unit :=
  m.whenOpen "push frame" fun m =>
    match m.handles.pushFrame with
    | .error f => (.error f, m)
    | .ok handles => (.ok (), { m with handles := handles })

/-- Closes the innermost handle frame; its handles become stale. -/
def popFrame (m : Machine) : Reply Unit :=
  m.whenOpen "pop frame" fun m =>
    match m.handles.popFrame with
    | .error f => (.error f, m)
    | .ok handles => (.ok (), { m with handles := handles })

/-- The value of a handle. -/
def value (m : Machine) (h : Handle) : Except Fault Value :=
  if m.closed then .error (closedFault "get handle") else m.handles.get h

/-- Roots a value in the innermost frame, whether the machine is open or not. -/
def addHandle (m : Machine) (v : Value) : Reply Handle :=
  match m.handles.add v with
  | .error f => (.error f, m)
  | .ok (h, handles) => (.ok h, { m with handles := handles })

/-- Roots a value in the innermost frame. -/
def newHandle (m : Machine) (v : Value) : Reply Handle :=
  m.whenOpen "add handle" fun m => m.addHandle v

/-- A tuple field that a host must not see. -/
def privateField (k : Kind) : Fault where
  kind := .internal
  op := "tuple"
  cause := .internalKind
  detail := some (k.text ++ " field")

/-- Allocates a tuple without rooting it. -/
def allocTuple (m : Machine) (fields : List Value) : Reply Value :=
  m.whenOpen "tuple" fun m =>
    match fields.find? fun v => !v.kind.isPublic with
    | some v => (.error (privateField v.kind), m)
    | none =>
      if maxObjectSlots < fields.length then (.error (Heap.tooLarge fields.length), m)
      else
        let (a, heap) := m.heap.alloc .tuple fields.toArray
        (.ok (.ref .tuple a), { m with heap := heap })

/-- Allocates a tuple and roots it in the innermost frame. -/
def newTuple (m : Machine) (fields : List Value) : Reply Handle :=
  m.whenFramed "tuple" fun m =>
    match m.allocTuple fields with
    | (.error f, m) => (.error f, m)
    | (.ok t, m) => m.addHandle t

/-- A global that a host asks for in vain. -/
def globalFault (cause : Cause) (s : Symbol) : Fault where
  kind := .usage
  op := "global"
  cause := cause
  detail := some s.name

/-- The value of a global that has been assigned. -/
def globalValue (m : Machine) (s : Symbol) : Except Fault Value :=
  if m.closed then .error (closedFault "global")
  else
    match m.globals.slot? s with
    | none => .error (globalFault .unknownGlobal s)
    | some i =>
      match m.globals.entries[i]? with
      | some g => if g.defined then .ok g.value else .error (globalFault .undefinedGlobal s)
      | none => .error (globalFault .undefinedGlobal s)

/-- Reserves a slot for a global. -/
def declare (m : Machine) (s : Symbol) : Reply Unit :=
  m.whenOpen "declare" fun m =>
    let (declared, globals) := m.globals.declare s
    (declared.map fun _ => (), { m with globals := globals })

/-- Collects garbage outside of an evaluation; the answer is the number of
objects released. -/
def collect (m : Machine) : Reply Nat :=
  m.whenOpen "collect" fun m =>
    let (freed, m) := m.collectGarbage
    (.ok freed, m)

end Zinc.Machine
