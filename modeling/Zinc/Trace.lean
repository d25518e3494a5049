import Zinc.Text.Quoted

/-!
Log records: a message and attributes.  All records of the library are meant for
debugging, so a log that starts at a higher level keeps none of them.
-/

namespace Zinc

/-- The least level that a log keeps. -/
inductive LogLevel where
  | debug
  | info
deriving DecidableEq, Repr

/-- One log record. -/
structure Record where
  message : String
  attrs : List (String × String)
deriving DecidableEq, Repr

namespace Record

/-- The message followed by the attributes, nothing quoted. -/
def plain (r : Record) : String :=
  r.attrs.foldl (fun s a => s ++ " " ++ a.1 ++ "=" ++ a.2) r.message

/-- Whether a text cannot stand bare as the value of a key. -/
def needsQuotes (s : String) : Bool :=
  s.isEmpty || s.any fun c => c == ' ' || c == '"' || c == '=' || !Text.isPrintable c

/-- A text as the value of a key. -/
def keyValue (s : String) : String :=
  if needsQuotes s then Text.quoted s else s

/-- The record as a line of keys and values. -/
def keyed (r : Record) : String :=
  r.attrs.foldl (fun s a => s ++ " " ++ a.1 ++ "=" ++ keyValue a.2)
    ("level=DEBUG msg=" ++ keyValue r.message)

end Record

end Zinc
