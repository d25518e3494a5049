import Zinc.Failure
import Zinc.Host.Value
import Zinc.Machine.Access

/-!
Handing values over between a host and a machine.  Integers become integers and
truth values become 0 and 1; slices, arrays and records become tuples, item by
item.  In the other direction integers become the integer type that is asked for,
tuples become slices or records, and closures can only be held by a handle.
-/

namespace Zinc.Machine

/-- A machine value that a host value has become, and the machine after that. -/
abbrev Conversion (α : Type) := Except Failure α × Machine

/-- A failure inside a part of a value. -/
def inPart {α : Type} (part : String) (r : Conversion α) : Conversion α :=
  (r.1.mapError (.within part), r.2)

mutual

/-- The machine value of a host value.  Tuples are allocated and not rooted. -/
def ofHost : HostValue → Machine → Conversion Value
  | .int t n, m =>
    if t.isSigned ∨ n ≤ IntType.int64.greatest then (.ok (.int (Int64.ofInt n)), m)
    else (.error (.message (toString n ++ " overflows a Wist integer")), m)
  | .bool b, m => (.ok (.int (if b then 1 else 0)), m)
  | .handle h, m => ((m.value h).mapError .fault, m)
  | .any none, m => (.error (.message ("cannot convert nil " ++ HostType.any.text)), m)
  | .any (some v), m => ofHost v m
  | .ptr elem none, m => (.error (.message ("cannot convert nil " ++ (HostType.ptr elem).text)), m)
  | .ptr _ (some v), m => ofHost v m
  | .slice _ items, m | .array _ items, m =>
    match ofItems 0 items m with
    | (.error e, m) => (.error e, m)
    | (.ok vs, m) => tupleOf vs m
  | .struct fields values, m =>
    match ofFields fields values m with
    | (.error e, m) => (.error e, m)
    | (.ok vs, m) => tupleOf vs m
  | .address n, m => unsupported (.address n) m
  | .string s, m => unsupported (.string s) m
  | .float, m => unsupported .float m
  | .func, m => unsupported .func m
  | .map k v, m => unsupported (.map k v) m
where
  /-- A tuple of machine values. -/
  tupleOf (vs : List Value) (m : Machine) : Conversion Value :=
    let (r, m) := m.allocTuple vs
    (r.mapError .fault, m)
  /-- A value of a type that a machine does not know. -/
  unsupported (v : HostValue) (m : Machine) : Conversion Value :=
    (.error (.message ("unsupported type for conversion: " ++ v.type.text)), m)

/-- The machine values of items, the first of which has number `i`. -/
def ofItems (i : Nat) : List HostValue → Machine → Conversion (List Value)
  | [], m => (.ok [], m)
  | item :: rest, m =>
    match inPart ("element " ++ toString i) (ofHost item m) with
    | (.error e, m) => (.error e, m)
    | (.ok v, m) =>
      match ofItems (i + 1) rest m with
      | (.error e, m) => (.error e, m)
      | (.ok vs, m) => (.ok (v :: vs), m)

/-- The machine values of the fields that can be seen. -/
def ofFields : FieldTypes → List HostValue → Machine → Conversion (List Value)
  | .cons name _ fields, value :: rest, m =>
    if isExported name then
      match inPart ("field " ++ name) (ofHost value m) with
      | (.error e, m) => (.error e, m)
      | (.ok v, m) =>
        match ofFields fields rest m with
        | (.error e, m) => (.error e, m)
        | (.ok vs, m) => (.ok (v :: vs), m)
    else ofFields fields rest m
  | _, _, m => (.ok [], m)

end

/-- A value as it is stored in a variable of type `t`: a variable of any type takes
everything, any other one takes its own type only. -/
def stored (v : HostValue) (t : HostType) : Except Failure HostValue :=
  if t = .any then .ok (.any (some v))
  else if v.type = t then .ok v
  else .error .typeMismatch

/-- The host value of an integer.  Without a wanted type it is an `int`. -/
def hostInteger (n : Int) : Option HostType → Except Failure HostValue
  | none | some .any => .ok (.int .int n)
  | some (.int t) =>
    if t.holds n then .ok (.int t n)
    else .error (.message (toString n ++ " overflows " ++ t.text))
  | some .bool => .ok (.bool (n != 0))
  | some t => .error (.message ("cannot convert integer to " ++ t.text))

/-- The host values of items, the first of which has number `i`; `convert` gives `none`
for a closure, which cannot leave the machine inside a tuple. -/
def hostItems (convert : Value → Except Failure (Option HostValue)) (i : Nat) :
    List Value → Except Failure (List HostValue)
  | [] => .ok []
  | v :: rest => do
    let part := "element " ++ toString i
    match ← (convert v).mapError (.within part) with
    | none => .error (.within part (.message "closure inside tuple"))
    | some x => return x :: (← hostItems convert (i + 1) rest)

/-- The values of the fields of a record, those that cannot be seen being left at
zero, and how many items were used.  `tooFew` is the failure when items run out. -/
def hostFields (convert : Value → HostType → Except Failure (Option HostValue)) (tooFew : Failure) :
    FieldTypes → List Value → Except Failure (List HostValue × List Value)
  | .nil, items => .ok ([], items)
  | .cons name type fields, items =>
    if isExported name then
      match items with
      | [] => .error tooFew
      | v :: rest => do
        let part := "field " ++ name
        match ← (convert v type).mapError (.within part) with
        | none => .error (.within part (.message "closure inside tuple"))
        | some x =>
          let x ← stored x type
          let (xs, rest) ← hostFields convert tooFew fields rest
          return (x :: xs, rest)
    else do
      let (xs, rest) ← hostFields convert tooFew fields items
      return (type.zero :: xs, rest)

/-- The record that a tuple becomes.  The fields that can be seen and the items of the
tuple have to be equally many. -/
def hostRecord (convert : Value → HostType → Except Failure (Option HostValue)) (type : HostType)
    (fields : FieldTypes) (items : List Value) : Except Failure (List HostValue) := do
  let count := "tuple has " ++ toString items.length ++ " fields, " ++ type.text
  let (values, rest) ← hostFields convert (.message (count ++ " needs more")) fields items
  if rest.isEmpty then return values
  else throw (.message (count ++ " takes " ++ toString (items.length - rest.length)))

/-- The host value of a machine value, looking at most `depth` tuples deep; `none` for
a closure.  A tuple becomes a record or a slice if that is wanted, and a slice of
anything otherwise. -/
def toHost (h : Heap) : Nat → Value → Option HostType → Except Failure (Option HostValue)
  | depth, v, target =>
    match v.kind, depth with
    | .int, _ => (hostInteger v.asInt.toInt target).map some
    | .closure, _ => .ok none
    | .tuple, depth + 1 =>
      let items := h.fieldsOf v
      match target with
      | some (.struct fields) => do
        let convert := fun v t => toHost h depth v (some t)
        return some (.struct fields (← hostRecord convert (.struct fields) fields items))
      | some .handle => do
        let convert := fun v t => toHost h depth v (some t)
        let _ ← hostRecord convert .handle .nil items
        return some (.handle {})
      | some (.slice elem) => do
        let values ← hostItems (fun v => toHost h depth v (some elem)) 0 items
        return some (.slice elem (← values.mapM (stored · elem)))
      | _ => do
        let values ← hostItems (fun v => toHost h depth v none) 0 items
        return some (.slice .any (values.map fun v => .any (some v)))
    | kind, _ => .error (.message ("unsupported value kind: " ++ kind.text))

end Zinc.Machine
