import Zinc.Machine.State

/-!
Checkpoints: several definitions can be undone together.  The values that the
globals had at the checkpoint stay reachable until it is rolled back or
committed.
-/

namespace Zinc

/-- The extent of the code and the contents of the globals at some moment. -/
structure Checkpoint where
  code : Nat := 0
  globals : Array Global := #[]
deriving DecidableEq, Repr, Inhabited

namespace Machine

/-- Records the current state. -/
def checkpoint (m : Machine) : Checkpoint × Machine :=
  (⟨m.code.size, m.globals.entries⟩, { m with saved := m.globals.entries })

/-- Discards the code and the globals that are newer than the checkpoint and
gives the older globals their recorded contents. -/
def rollback (m : Machine) (cp : Checkpoint) : Machine :=
  { m with
    code := ⟨m.code.bytes.take cp.code⟩
    globals := m.globals.restore cp.globals
    saved := #[] }

/-- Keeps everything done since the checkpoint. -/
def commit (m : Machine) : Machine :=
  { m with saved := #[] }

end Machine

end Zinc
