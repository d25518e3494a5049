import Std.Data.ExtHashSet

/-!
Names of globals.  A table hands out one symbol per name; symbols of two tables
are never equal, even when they have the same name.
-/

namespace Zinc

/-- A name interned in the table numbered `table`. -/
structure Symbol where
  table : Nat
  name : String
deriving DecidableEq, Repr, Hashable, Inhabited

/-- How a symbol that may be absent is shown. -/
def Symbol.shown : Option Symbol → String
  | none => "<nil>"
  | some s => s.name

/-- A table of interned names. -/
structure SymbolTable where
  number : Nat := 0
  names : Std.ExtHashSet String := ∅

namespace SymbolTable

/-- The symbol of a name, which is added to the table if need be. -/
def intern (t : SymbolTable) (name : String) : Symbol × SymbolTable :=
  (⟨t.number, name⟩, { t with names := t.names.insert name })

/-- The symbol of a name that has been interned before. -/
def lookup? (t : SymbolTable) (name : String) : Option Symbol :=
  if t.names.contains name then some ⟨t.number, name⟩ else none

/-- How many names have been interned. -/
def size (t : SymbolTable) : Nat :=
  t.names.size

end SymbolTable

end Zinc
