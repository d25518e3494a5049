import Std.Data.ExtHashMap
import Zinc.Fault
import Zinc.Limits
import Zinc.Symbol
import Zinc.Value

/-!
The table of globals.  A global is declared once and keeps its slot; code refers
to it by slot number.  An index from symbols to slots stands beside the slots.
-/

namespace Zinc

/-- A slot of the table. -/
structure Global where
  symbol : Symbol
  value : Value := .undefined
  defined : Bool := false
deriving DecidableEq, Repr, Inhabited

/-- The table: its slots and the slot of every symbol. -/
structure Globals where
  entries : Array Global := #[]
  index : Std.ExtHashMap Symbol Nat := ∅

namespace Globals

/-- The number of slots. -/
def size (g : Globals) : Nat :=
  g.entries.size

/-- The slot of a symbol. -/
def slot? (g : Globals) (s : Symbol) : Option Nat :=
  g.index[s]?

/-- Whether a symbol is declared. -/
def isDeclared (g : Globals) (s : Symbol) : Bool :=
  g.index.contains s

/-- A table with no slot left. -/
def tableFull : Fault where
  kind := .capacity
  op := "declare"
  cause := .operandRange
  detail := some ("more than " ++ toString (maxGlobalSlot + 1) ++ " globals")

/-- The outcome of a declaration: the slot, and whether it is new. -/
structure Declared where
  slot : Nat
  fresh : Bool
deriving DecidableEq, Repr

/-- Reserves a slot for a symbol, unless it has one.  A full table stays as it
is. -/
def declare (g : Globals) (s : Symbol) : Except Fault Declared × Globals :=
  match g.slot? s with
  | some i => (.ok ⟨i, false⟩, g)
  | none =>
    let n := g.size
    if maxGlobalSlot < n then (.error tableFull, g)
    else
      (.ok ⟨n, true⟩,
        { entries := g.entries.push { symbol := s }, index := g.index.insert s n })

/-- Gives up the last slot if it belongs to the symbol and was never assigned. -/
def undeclare (g : Globals) (s : Symbol) : Globals :=
  match g.entries.back? with
  | some e =>
    if e.symbol = s ∧ !e.defined then
      { entries := g.entries.pop, index := g.index.erase s }
    else g
  | none => g

/-- Assigns a slot that exists. -/
def set? (g : Globals) (i : Nat) (v : Value) : Option Globals :=
  if i < g.size then
    some { g with
      entries := g.entries.modify i fun e => { e with value := v, defined := true } }
  else none

/-- Goes back to recorded slots: later slots are dropped and earlier ones get
their recorded contents.  A record longer than the table is ignored. -/
def restore (g : Globals) (recorded : Array Global) : Globals :=
  if g.size < recorded.size then g
  else
    { entries := recorded
      index := (g.entries.toList.drop recorded.size).foldl
        (fun index e => index.erase e.symbol) g.index }

/-- The name of a slot. -/
def nameOf? (g : Globals) (i : Nat) : Option String :=
  g.entries[i]?.map (·.symbol.name)

/-- The values of all slots. -/
def values (g : Globals) : List Value :=
  g.entries.toList.map (·.value)

/-- The declared symbols, ordered by name. -/
def symbolsByName (g : Globals) : List Symbol :=
  (g.entries.toList.map (·.symbol)).mergeSort fun a b => a.name ≤ b.name

end Globals

end Zinc
