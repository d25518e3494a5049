import Zinc.Fault
import Zinc.Limits
import Zinc.Value

/-!
Handles: how a host holds on to values.  A handle lives in a frame and stays
valid until that frame is popped.  Each frame has a generation of its own, so a
frame that takes the place of a popped one does not revive its handles.
-/

namespace Zinc

/-- A reference that a host holds.  The zero handle belongs to nobody. -/
structure Handle where
  owner : Nat := 0
  frame : Nat := 0
  slot : Nat := 0
  generation : Nat := 0
deriving DecidableEq, Repr, Inhabited

/-- Whether a handle was never issued. -/
def Handle.isZero (h : Handle) : Bool :=
  h.generation == 0

/-- A frame: its generation and the values rooted in it, oldest first. -/
structure HandleFrame where
  generation : Nat
  slots : Array Value := #[]
deriving DecidableEq, Repr, Inhabited

/-- A stack of frames, the outermost first. -/
structure HandleStack where
  owner : Nat
  frames : Array HandleFrame := #[]
  nextGeneration : Nat := 1
deriving DecidableEq, Repr, Inhabited

namespace HandleStack

/-- The number of open frames. -/
def depth (s : HandleStack) : Nat :=
  s.frames.size

/-- Opening a frame too many. -/
def stackFull : Fault where
  kind := .capacity
  op := "push frame"
  cause := .handleStackFull
  detail := some ("limit " ++ toString maxHandleFrames ++ " frames")

/-- Opens a frame. -/
def pushFrame (s : HandleStack) : Except Fault HandleStack :=
  if maxHandleFrames ≤ s.depth then .error stackFull
  else
    .ok { s with
      frames := s.frames.push { generation := s.nextGeneration }
      nextGeneration := s.nextGeneration + 1 }

/-- An operation that needs an open frame. -/
def noFrame (op : String) : Fault where
  kind := .usage
  op := op
  cause := .noHandleFrame

/-- Closes the innermost frame; its handles become stale. -/
def popFrame (s : HandleStack) : Except Fault HandleStack :=
  if s.frames.isEmpty then .error (noFrame "pop frame")
  else .ok { s with frames := s.frames.pop }

/-- Rooting a value that a host must not see. -/
def notPublic (k : Kind) : Fault where
  kind := .internal
  op := "add handle"
  cause := .internalKind
  detail := some (k.text ++ " value")

/-- Rooting a value too many in one frame. -/
def frameFull : Fault where
  kind := .capacity
  op := "add handle"
  cause := .handleFrameFull
  detail := some ("limit " ++ toString handlesPerFrame ++ " handles")

/-- Roots a value in the innermost frame. -/
def add (s : HandleStack) (v : Value) : Except Fault (Handle × HandleStack) :=
  if !v.kind.isPublic then .error (notPublic v.kind)
  else
    match s.frames.back? with
    | none => .error (noFrame "add handle")
    | some f =>
      if handlesPerFrame ≤ f.slots.size then .error frameFull
      else
        .ok (
          { owner := s.owner
            frame := s.frames.size - 1
            slot := f.slots.size
            generation := f.generation },
          { s with frames := s.frames.pop.push { f with slots := f.slots.push v } })

/-- A handle of another machine. -/
def foreign : Fault where
  kind := .usage
  op := "get handle"
  cause := .foreignHandle

/-- A handle whose frame is gone. -/
def stale : Fault where
  kind := .usage
  op := "get handle"
  cause := .staleHandle

/-- The value that a handle refers to. -/
def get (s : HandleStack) (h : Handle) : Except Fault Value :=
  if h.owner ≠ s.owner then .error foreign
  else
    match s.frames[h.frame]? with
    | none => .error stale
    | some f =>
      if f.generation ≠ h.generation then .error stale
      else
        match f.slots[h.slot]? with
        | none => .error stale
        | some v => .ok v

/-- The values rooted in all frames. -/
def values (s : HandleStack) : List Value :=
  s.frames.toList.flatMap fun f => f.slots.toList

end HandleStack

end Zinc
