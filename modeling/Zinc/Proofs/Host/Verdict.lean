import Zinc.Proofs.Heap.Shows
import Zinc.Proofs.Host.Descent

/-!
What comes of reading a machine value as a host type.  A part that the type cannot hold is
refused, with two exceptions: a tuple that is read as anything but a slice, a record, a
handle or a value of any type becomes a slice nevertheless, and a closure on its own becomes
a handle whatever it is read as.  Nothing is wrong with those until they are stored, and
then they clash with the type of the place.  The parts are gone through in order and the
first one that is refused or clashes decides.
-/

namespace Zinc

/-- What comes of a conversion: a value, a refusal, or a value that does not fit its place. -/
inductive Verdict where
  | fits
  | refused
  | clashes
deriving DecidableEq, Repr

/-- The verdict on two parts, one after the other. -/
def Verdict.andThen : Verdict → Verdict → Verdict
  | fits, w => w
  | v, _ => v

/-- The verdict on several parts. -/
def Verdict.all (vs : List Verdict) : Verdict :=
  vs.foldr andThen fits

/-- Whether an integer can be read as a type. -/
def HostType.takesInteger (n : Int) : HostType → Bool
  | .int t => t.holds n
  | .bool | .any => true
  | _ => false

/-- Whether what a tree is read as can be stored, if it is not refused. -/
def HostType.takes : HostType → ValueTree → Bool
  | .any, _ | .handle, _ | .slice _, _ | .struct _, _ => true
  | _, .tuple _ => false
  | _, _ => true

/-- The verdict on storing what a tree is read as. -/
def HostType.storing (t : HostType) (d : ValueTree) : Verdict :=
  if t.takes d then .fits else .clashes

mutual

/-- The verdict on reading a tree that is part of a tuple. -/
def HostType.verdict : HostType → ValueTree → Verdict
  | _, .closure _ => .refused
  | t, .int n => if t.takesInteger n.toInt then .fits else .refused
  | .struct fields, .tuple items => fields.verdict items
  | .handle, .tuple items => if items = [] then .fits else .refused
  | .slice elem, .tuple items =>
    (Verdict.all (items.map elem.verdict)).andThen (.all (items.map elem.storing))
  | _, .tuple items => if ∀ d ∈ items, d.IsData then .fits else .refused

/-- The verdict on reading the items of a tuple as the fields of a record. -/
def FieldTypes.verdict : FieldTypes → List ValueTree → Verdict
  | .nil, items => if items = [] then .fits else .refused
  | .cons name type rest, items =>
    if isExported name then
      match items with
      | [] => .refused
      | d :: more => (type.verdict d).andThen ((type.storing d).andThen (rest.verdict more))
    else rest.verdict items

end

/-- A part of any type is refused if there is a closure in it, and only then. -/
theorem HostType.verdict_any (d : ValueTree) :
    HostType.any.verdict d = if d.IsData then .fits else .refused := by
  cases d with
  | int n => rfl
  | closure shown => rfl
  | tuple items =>
      have hdata : (ValueTree.tuple items).IsData ↔ ∀ d ∈ items, d.IsData :=
        ⟨fun htuple => by cases htuple; assumption, .tuple⟩
      simp only [HostType.verdict, hdata]

theorem Verdict.all_any (ds : List ValueTree) :
    Verdict.all (ds.map HostType.any.verdict) =
      if ∀ d ∈ ds, d.IsData then .fits else .refused := by
  induction ds with
  | nil => rfl
  | cons d ds ih =>
      change (HostType.any.verdict d).andThen (.all (ds.map HostType.any.verdict)) = _
      rw [HostType.verdict_any, ih]
      by_cases hd : d.IsData
      · simp [hd, Verdict.andThen]
      · simp [hd, Verdict.andThen]

theorem FieldTypes.verdict_hidden {name : String} (hname : ¬ isExported name = true)
    (type : HostType) (rest : FieldTypes) (items : List ValueTree) :
    (FieldTypes.cons name type rest).verdict items = rest.verdict items := by
  cases items with
  | nil => rw [FieldTypes.verdict, if_neg hname]
  | cons d more => rw [FieldTypes.verdict, if_neg hname]

/-- The verdict on reading what a handle refers to into a variable. -/
def HostType.reading (t : HostType) (d : ValueTree) : Verdict :=
  if t = .handle then .fits
  else
    match d with
    | .closure _ => if t = .any then .fits else .clashes
    | d => (t.verdict d).andThen (t.storing d)

/-- The types of the fields of a record. -/
def FieldTypes.types : FieldTypes → List HostType
  | .nil => []
  | .cons _ type rest => type :: rest.types

/-- The values that a variable of a type can hold. -/
inductive HostValue.IsOf : HostValue → HostType → Prop where
  | int {t : IntType} {n : Int} : t.holds n = true → IsOf (.int t n) (.int t)
  | address (n : Int) : IsOf (.address n) .address
  | bool (b : Bool) : IsOf (.bool b) .bool
  | string (s : String) : IsOf (.string s) .string
  | float : IsOf .float .float
  | func : IsOf .func .func
  | nothing : IsOf (.any none) .any
  | any {x : HostValue} {t : HostType} : IsOf x t → IsOf (.any (some x)) .any
  | handle (h : Handle) : IsOf (.handle h) .handle
  | slice {elem : HostType} {items : List HostValue} :
      (∀ x ∈ items, IsOf x elem) → IsOf (.slice elem items) (.slice elem)
  | array {size : Nat} {elem : HostType} {items : List HostValue} : items.length = size →
      (∀ x ∈ items, IsOf x elem) → IsOf (.array elem items) (.array size elem)
  | null (elem : HostType) : IsOf (.ptr elem none) (.ptr elem)
  | ptr {x : HostValue} {elem : HostType} : IsOf x elem → IsOf (.ptr elem (some x)) (.ptr elem)
  | map (key value : HostType) : IsOf (.map key value) (.map key value)
  | struct {fields : FieldTypes} {values : List HostValue} :
      values.length = fields.types.length →
      (∀ {x t}, (x, t) ∈ values.zip fields.types → IsOf x t) →
      IsOf (.struct fields values) (.struct fields)

mutual

/-- A variable starts with a value of its type. -/
theorem HostType.zero_isOf : (t : HostType) → t.zero.IsOf t
  | .int t => .int (by cases t <;> decide)
  | .address => .address 0
  | .bool => .bool false
  | .string => .string ""
  | .float => .float
  | .func => .func
  | .any => .nothing
  | .handle => .handle {}
  | .slice _ => .slice nofun
  | .array _ elem => .array List.length_replicate fun x hx => by
      rw [List.eq_of_mem_replicate hx]
      exact elem.zero_isOf
  | .ptr elem => .null elem
  | .map key value => .map key value
  | .struct fields => by
      obtain ⟨hlength, hzip⟩ := List.forall₂_iff_zip.1 fields.zeros_isOf
      exact .struct hlength hzip

theorem FieldTypes.zeros_isOf :
    (fields : FieldTypes) → List.Forall₂ HostValue.IsOf fields.zeros fields.types
  | .nil => .nil
  | .cons _ type rest => .cons type.zero_isOf rest.zeros_isOf

end

end Zinc
