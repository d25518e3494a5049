import Zinc.Machine.Compile
import Zinc.Machine.Run

/-!
Evaluations that a host asks for.
-/

namespace Zinc.Machine

/-- A host that calls something that is not a closure. -/
def notCallable (k : Kind) : Fault where
  kind := .usage
  op := "evaluate"
  cause := .notClosure
  detail := some ("got " ++ k.text)

/-- The values of several handles, or the fault of the first that has none. -/
def handleValues (m : Machine) : List Handle → Except Fault (List Value)
  | [] => .ok []
  | h :: rest =>
    match m.handles.get h with
    | .error f => .error f
    | .ok v =>
      match m.handleValues rest with
      | .error f => .error f
      | .ok vs => .ok (v :: vs)

/-- Applies the closure of a handle to the values of other handles and roots the
result in the innermost frame. -/
def call (m : Machine) (fn : Handle) (args : List Handle) : Reply Handle :=
  m.whenOpen "evaluate" fun m =>
    match m.handles.get fn with
    | .error f => (.error f, m)
    | .ok callee =>
      if callee.kind ≠ .closure then (.error (notCallable callee.kind), m)
      else
        match m.handleValues args with
        | .error f => (.error f, m)
        | .ok vs =>
          match m.run callee vs with
          | (.error f, m) => (.error f, m)
          | (.ok v, m) => m.addHandle v

/-- Runs the closure of a handle without arguments. -/
def evaluate (m : Machine) (h : Handle) : Reply Handle :=
  m.call h []

/-- Runs the code at `entry`.  The result is not rooted. -/
def runEntry (m : Machine) (entry : Int) : Reply Value :=
  m.whenOpen "evaluate" fun m =>
    let (callee, m) := m.topClosure entry
    m.run callee []

end Zinc.Machine
