/-!
Bounds.  Some are fixed by the encoding of instructions and objects; the others
bound the resources of one machine and can be chosen.
-/

namespace Zinc

/-- The largest index of a local that an instruction can name. -/
def maxAccessIndex : Nat := 0xff

/-- The largest size of a closure body in bytes. -/
def maxBodyLength : Nat := 0xffff

/-- The largest number of fields of a block built by one instruction. -/
def maxBlockFields : Nat := 0xffff

/-- The largest slot number of a global. -/
def maxGlobalSlot : Nat := 0xffff

/-- The largest number of slots of a heap object. -/
def maxObjectSlots : Nat := 0x3fffff

/-- How many handles one frame holds. -/
def handlesPerFrame : Nat := 32

/-- How many handle frames can be open at once. -/
def maxHandleFrames : Nat := 256

/-- The capacity of either stack when none is chosen. -/
def defaultStackSize : Int := 65536

/-- The live-object count that triggers a collection when none is chosen. -/
def defaultThreshold : Int := 65536

/-- The bounds chosen for one machine.  A step limit that is not positive means
no limit, and a threshold that is not positive means no collection. -/
structure Limits where
  argStack : Int := 0
  returnStack : Int := 0
  threshold? : Option Int := none
  maxSteps : Int := 0
  trace : Bool := false
deriving DecidableEq, Repr, Inhabited

namespace Limits

/-- The threshold in force. -/
def threshold (l : Limits) : Int :=
  l.threshold?.getD defaultThreshold

/-- The bounds in force when nothing is chosen. -/
def standard : Limits :=
  { argStack := defaultStackSize, returnStack := defaultStackSize }

/-- The stack sizes that are exactly zero get their default. -/
def fillZero (l : Limits) : Limits :=
  { l with
    argStack := if l.argStack = 0 then defaultStackSize else l.argStack
    returnStack := if l.returnStack = 0 then defaultStackSize else l.returnStack }

/-- The stack sizes that are not positive get their default. -/
def fillNonpositive (l : Limits) : Limits :=
  { l with
    argStack := if l.argStack ≤ 0 then defaultStackSize else l.argStack
    returnStack := if l.returnStack ≤ 0 then defaultStackSize else l.returnStack }

end Limits

end Zinc
