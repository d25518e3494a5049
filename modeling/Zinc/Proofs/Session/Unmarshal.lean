import Zinc.Proofs.Host.RoundTrip
import Zinc.Proofs.Host.Unmarshal
import Zinc.Proofs.Session.Acyclic
import Zinc.Proofs.Session.Sound
import Zinc.Yaml.Parser

/-!
Reading handles into variables of a host.  Whatever a session has gone through, what a
handle refers to stands for a tree, and the tree and the type of the variable decide what
comes of it: the variable holds a value of its type, or it is as before and there is an
error, or the host crashes because what was made does not fit the variable or a part of it.
-/

namespace Zinc

/-- What a program can compute with stands for a tree. -/
theorem Typed.exists_tree {w : World} {v : Value} (hv : Typed w .data v) :
    ∃ d, w.heap.Shows v d := by
  generalize hshape : Shape.data = shape at hv
  induction hv with
  | int n => exact ⟨.int n, .int n⟩
  | @tuple a c hcell _ _ ih =>
      have hfields : ∀ u ∈ w.heap.fields a, ∃ d, w.heap.Shows u d := by
        rw [Heap.fields_of_cell hcell]
        exact fun u hu => ih u hu rfl
      choose! tree hshows using hfields
      exact ⟨_, .ofFields hshows⟩
  | closure _ _ _ _ _ _ _ => exact ⟨_, .closure _⟩
  | nil => cases hshape
  | cons _ _ _ _ _ _ _ => cases hshape

namespace Session

variable {s : Session} {h : Handle} {v : Value} {d : ValueTree}

theorem unmarshalInto_handle (hvalue : s.machine.value h = .ok v) (old : HostValue) :
    s.unmarshalInto h (.ptr .handle (some old)) = ⟨.ok (), .handle h⟩ := by
  change Stored.of old (do
    let x ← s.unmarshalAs h (some .handle)
    Machine.stored x .handle) = _
  rw [unmarshalAs, hvalue]
  rfl

/-- A variable of another type than that of handles takes one if it takes everything. -/
theorem judged_stored_handle (h : Handle) {t : HostType} (ht : t ≠ .handle) :
    Machine.Judged (HostValue.IsOf · t) (if t = .any then .fits else .clashes)
      (Machine.stored (.handle h) t) := by
  rw [Machine.stored]
  by_cases hany : t = .any
  · rw [if_pos hany, if_pos hany, hany]
    exact .fits (.any (.handle h))
  · have htype : (HostValue.handle h).type ≠ t := Ne.symm ht
    rw [if_neg hany, if_neg hany, if_neg htype]
    exact .clashes rfl

/-- What reading a handle into a variable comes to is what the verdict says, and the
variable is written only if a value was made for it. -/
theorem judged_unmarshalInto (hvalue : s.machine.value h = .ok v)
    (hordered : s.machine.heap.Ordered) (hshows : s.machine.heap.Shows v d) (t : HostType)
    (old : HostValue) :
    ∃ made, Machine.Judged (HostValue.IsOf · t) (t.reading d) made ∧
      s.unmarshalInto h (.ptr t (some old)) = .of old made := by
  by_cases ht : t = .handle
  · subst ht
    exact ⟨.ok (.handle h), .fits (.handle h), unmarshalInto_handle hvalue old⟩
  · have hcomes := Machine.comes_of_shows hordered hshows t
    refine ⟨_, ?_, unmarshalInto_eq hvalue ht old⟩
    dsimp only
    generalize Machine.toHost _ _ v (some t) = r at hcomes ⊢
    cases hcomes with
    | closure shown =>
        rw [HostType.reading, if_neg ht]
        exact judged_stored_handle h ht
    | other hother hr =>
        have hstored : Machine.Judged (HostValue.IsOf · t)
            ((t.verdict d).andThen (t.storing d))
            (r >>= fun x? => Machine.stored (x?.getD (.handle h)) t) := by
          apply hr.bind
          rintro x? ⟨x, rfl, hx⟩
          exact Machine.judged_stored hx
        rw [HostType.reading, if_neg ht]
        · exact hstored
        · exact hother

variable (owner : Nat) (limits : Limits) (logLevel : Option LogLevel)
  (watch : Option Watch) (horizon : Nat)

/-- Whatever a session has gone through, a handle that is its own stands for a tree, and a
variable that the handle is read into holds a value of its type afterwards, if that is the
verdict on the type and the tree.  If the tree is refused, there is an error and the variable
is as before.  And if there is a clash, the error is that of the host, which crashes. -/
theorem unmarshal_keeps_to_verdict [Yaml.Parser] (requests : List Request) (h : Handle)
    (v : Value) :
    let s := (fresh owner limits logLevel watch horizon).after requests
    s.machine.value h = .ok v →
    (∃ d, s.machine.heap.Shows v d) ∧ ∀ d, s.machine.heap.Shows v d → ∀ t old,
      (t.reading d = .fits →
        ∃ x, s.unmarshalInto h (.ptr t (some old)) = ⟨.ok (), x⟩ ∧ x.IsOf t) ∧
      (t.reading d = .refused →
        ∃ e, s.unmarshalInto h (.ptr t (some old)) = ⟨.error e, old⟩ ∧
          e.root ≠ .typeMismatch) ∧
      (t.reading d = .clashes →
        ∃ e, s.unmarshalInto h (.ptr t (some old)) = ⟨.error e, old⟩ ∧
          e.root = .typeMismatch) := by
  intro s hvalue
  have hordered : s.machine.heap.Ordered :=
    ((orderly_fresh owner limits logLevel watch horizon).after
      Machine.sorted_congruence requests).2.machine.2
  have hstable := ((inOrder_fresh owner limits logLevel watch horizon).after
    Machine.inOrder_congruence requests).2.machine
  obtain ⟨hopen, hhand⟩ := Machine.inOrder_congruence.value_in_hand hstable hvalue
  have htyped : Typed s.machine.world .data v := hhand.2.inHand hopen v List.mem_cons_self
  refine ⟨htyped.exists_tree, fun d hshows t old => ?_⟩
  obtain ⟨made, hjudged, hread⟩ := judged_unmarshalInto hvalue hordered hshows t old
  rw [hread]
  generalize t.reading d = verdict at hjudged
  cases hjudged with
  | @fits x hx =>
      refine ⟨fun _ => ⟨x, rfl, hx⟩, ?_, ?_⟩
      · exact Verdict.noConfusion
      · exact Verdict.noConfusion
  | @refused e he =>
      refine ⟨?_, fun _ => ⟨e, rfl, he⟩, ?_⟩
      · exact Verdict.noConfusion
      · exact Verdict.noConfusion
  | @clashes e he =>
      refine ⟨?_, ?_, fun _ => ⟨e, rfl, he⟩⟩
      · exact Verdict.noConfusion
      · exact Verdict.noConfusion

/-- A pair of a number and a list is read into a record, but not if its list is an array or
if the record has one field too few.  A field is exported by its capital, ASCII or not. -/
theorem unmarshal_keeps_to_verdict_nested :
    let s := (fresh 1 {} none none 9).after
      [.newInt 7, .newTuple [⟨1, 0, 0, 1⟩], .newTuple [⟨1, 0, 0, 1⟩, ⟨1, 0, 1, 1⟩]]
    let listed : HostType :=
      .struct (.ofList [("Élan", .int .int8), ("Items", .slice .bool), ("élan", .string)])
    let fixed : HostType := .struct (.ofList [("Key", .int .int8), ("Items", .array 1 .bool)])
    let short : HostType := .struct (.ofList [("Key", .int .int8)])
    s.machine.value ⟨1, 0, 2, 1⟩ = .ok (.ref .tuple 1) ∧
    (s.unmarshalInto ⟨1, 0, 2, 1⟩ (.ptr listed (some listed.zero))).target.IsOf listed ∧
    (∃ e, s.unmarshalInto ⟨1, 0, 2, 1⟩ (.ptr short (some short.zero)) =
      ⟨.error e, short.zero⟩ ∧ e.root ≠ .typeMismatch) ∧
    ∃ e, s.unmarshalInto ⟨1, 0, 2, 1⟩ (.ptr fixed (some fixed.zero)) =
      ⟨.error e, fixed.zero⟩ ∧ e.root = .typeMismatch := by
  intro s listed fixed short
  have hvalue : s.machine.value ⟨1, 0, 2, 1⟩ = .ok (.ref .tuple 1) := rfl
  have hlist : s.machine.heap.Shows (.ref .tuple 0) (.tuple [.int 7]) :=
    .ofItems (.cons (.int 7) .nil)
  have hshows : s.machine.heap.Shows (.ref .tuple 1) (.tuple [.int 7, .tuple [.int 7]]) :=
    .ofItems (.cons (.int 7) (.cons hlist .nil))
  have hverdict := (unmarshal_keeps_to_verdict 1 {} none none 9 _ _ _ hvalue).2 _ hshows
  refine ⟨hvalue, ?_, ?_, ?_⟩
  · obtain ⟨x, hread, hx⟩ := (hverdict listed listed.zero).1 (by decide)
    rw [hread]
    exact hx
  · exact (hverdict short short.zero).2.1 (by decide)
  · exact (hverdict fixed fixed.zero).2.2 (by decide)

/-- A tuple of one integer that is read into an integer is made a slice, and the host crashes
on storing that; an integer that does not fit is an error. -/
theorem unmarshal_tuple_clashes :
    let s := (fresh 1 {} none none 9).after [.newInt 300, .newTuple [⟨1, 0, 0, 1⟩]]
    s.unmarshalInto ⟨1, 0, 1, 1⟩ (.ptr (.int .int8) (some (.int .int8 0))) =
      ⟨.error .typeMismatch, .int .int8 0⟩ ∧
    s.unmarshalInto ⟨1, 0, 0, 1⟩ (.ptr (.int .int8) (some (.int .int8 0))) =
      ⟨.error (.message "300 overflows int8"), .int .int8 0⟩ := by
  intro s
  have htext : toString (300 : Int64).toInt ++ " overflows " ++ IntType.int8.text =
      "300 overflows int8" := by
    decide
  constructor
  · rfl
  · rw [unmarshalInto_int (n := 300) rfl, if_neg (by decide), htext]

end Session

end Zinc
