import Zinc.Machine.Step
import Zinc.Proofs.Code.Layout
import Zinc.Proofs.Expr.Code
import Zinc.Proofs.Expr.Evaluate
import Zinc.Proofs.Heap.Reach

/-!
How values stand for what expressions mean.  An integer stands for itself and a tuple
for the tuple of what its fields stand for.  A closure stands for a function when its
code is that of the function in tail position and its environment stands for the
bindings around the function, one after the other.
-/

namespace Zinc

/-- What a value can stand for: a datum, or bindings in the case of an environment. -/
inductive Referent where
  | datum (d : Datum)
  | env (env : Env)

/-- A value stands for something, in some code and heap and with some slots for the
globals. -/
inductive Represents (code : Code) (slot : Symbol → Option Nat) (h : Heap) :
    Value → Referent → Prop where
  | int (n : Int64) : Represents code slot h (.int n) (.datum (.int n))
  | tuple {a : Nat} {c : Cell} {ds : List Datum} :
      h.cells[a]? = some c → c.tag = .tuple → c.fields.size = ds.length →
      (∀ (i : Nat) v d, c.fields[i]? = some v → ds[i]? = some d →
        Represents code slot h v (.datum d)) →
      Represents code slot h (.ref .tuple a) (.datum (.tuple ds))
  | closure {a : Nat} {c : Cell} {env : Value} {offset : Int} {pos : Pos}
      {param : Binder} {body : Expr} {bindings : Env} {is : List Instr} :
      h.cells[a]? = some c → c.tag = .closure → c.fields = #[env, .code offset] →
      Represents code slot h env (.env bindings) → code.At offset is →
      CodeOf slot (bindings.map Prod.fst) .tail (.lam pos param body) is →
      Represents code slot h (.ref .closure a) (.datum (.closure param body bindings))
  | nil : Represents code slot h .emptyEnv (.env [])
  | cons {a : Nat} {c : Cell} {v env : Value} {b : Binder} {d : Datum} {rest : Env} :
      h.cells[a]? = some c → c.tag = .env → c.fields = #[v, env] →
      Represents code slot h v (.datum d) → Represents code slot h env (.env rest) →
      Represents code slot h (.ref .env a) (.env ((b, d) :: rest))

namespace Represents

variable {code : Code} {slot : Symbol → Option Nat} {h : Heap} {v : Value}
  {referent : Referent}

theorem isMark {d : Datum} (hv : Represents code slot h v (.datum d)) :
    v.isMark = false := by
  cases hv with
  | int n => rfl
  | tuple _ _ _ _ => rfl
  | closure _ _ _ _ _ _ => rfl

/-- A value goes on standing for what it stands for as long as the objects that it leads
to stay. -/
theorem keep {S : Nat → Prop} {heap : Heap} (hv : Represents code slot h v referent)
    (hkeeps : ∀ a c, S a → h.cells[a]? = some c → heap.cells[a]? = some c)
    (hclosed : h.Closed S) (hwithin : v.Within S) :
    Represents code slot heap v referent := by
  -- a field of an object in the set is in the set
  have hfield {a : Nat} {c : Cell} {u : Value} (hcell : h.cells[a]? = some c)
      (ha : S a) (hu : u ∈ c.fields) : u.Within S := by
    apply hclosed a ha
    rwa [Heap.fields_of_cell hcell]
  induction hv with
  | int n => exact .int n
  | tuple hcell htag hsize _ ih =>
      have ha := Value.within_ref.1 hwithin
      refine .tuple (hkeeps _ _ ha hcell) htag hsize fun i u d hu hd => ?_
      exact ih i u d hu hd (hfield hcell ha (Array.mem_of_getElem? hu))
  | closure hcell htag hfields _ hat hcompiled ih =>
      have ha := Value.within_ref.1 hwithin
      refine .closure (hkeeps _ _ ha hcell) htag hfields (ih ?_) hat hcompiled
      exact hfield hcell ha (by simp [hfields])
  | nil => exact .nil
  | cons hcell htag hfields _ _ ihv ihenv =>
      have ha := Value.within_ref.1 hwithin
      refine .cons (hkeeps _ _ ha hcell) htag hfields (ihv ?_) (ihenv ?_)
      · exact hfield hcell ha (by simp [hfields])
      · exact hfield hcell ha (by simp [hfields])

/-- New objects change nothing. -/
theorem grow {heap : Heap} (hv : Represents code slot h v referent)
    (hgrows : h.Grows heap) : Represents code slot heap v referent :=
  hv.keep (fun _ _ _ hcell => hgrows.cell hcell) (Heap.closed_reach h [v])
    (Heap.within_reach List.mem_cons_self)

/-- New code changes nothing. -/
theorem extend {code' : Code} (hv : Represents code slot h v referent)
    (hcode : code.bytes.toList <+: code'.bytes.toList) :
    Represents code' slot h v referent := by
  induction hv with
  | int n => exact .int n
  | tuple hcell htag hsize _ ih => exact .tuple hcell htag hsize ih
  | closure hcell htag hfields _ hat hcompiled ih =>
      exact .closure hcell htag hfields ih (hat.mono hcode) hcompiled
  | nil => exact .nil
  | cons hcell htag hfields _ _ ihv ihenv => exact .cons hcell htag hfields ihv ihenv

/-- A value stands for at most one datum without functions. -/
theorem unique {d d' : Datum} (hplain : d.Plain)
    (hd : Represents code slot h v (.datum d))
    (hd' : Represents code slot h v (.datum d')) : d' = d := by
  induction hplain generalizing v d' with
  | int n =>
      cases hd
      cases hd'
      rfl
  | @tuple ds _ ih =>
      cases hd with
      | tuple hcell _ hsize hfields =>
          cases hd' with
          | @tuple _ _ ds' hcell' _ hsize' hfields' =>
              cases hcell.symm.trans hcell'
              have hlength : ds'.length = ds.length := hsize'.symm.trans hsize
              refine congrArg Datum.tuple (List.ext_getElem hlength fun i hi' hi => ?_)
              have hfield := Array.getElem?_eq_getElem (hsize.symm ▸ hi)
              have hleft := List.getElem?_eq_getElem hi
              have hright := List.getElem?_eq_getElem hi'
              exact ih _ (List.getElem_mem hi) (hfields i _ _ hfield hleft)
                (hfields' i _ _ hfield hright)

end Represents

/-- Values stand for data, one after the other. -/
inductive RepresentsAll (code : Code) (slot : Symbol → Option Nat) (h : Heap) :
    List Value → List Datum → Prop where
  | nil : RepresentsAll code slot h [] []
  | cons {v : Value} {d : Datum} {vs : List Value} {ds : List Datum} :
      Represents code slot h v (.datum d) → RepresentsAll code slot h vs ds →
      RepresentsAll code slot h (v :: vs) (d :: ds)

namespace RepresentsAll

variable {code : Code} {slot : Symbol → Option Nat} {h : Heap} {vs : List Value}
  {ds : List Datum}

theorem length (hvs : RepresentsAll code slot h vs ds) : vs.length = ds.length := by
  induction hvs with
  | nil => rfl
  | cons _ _ ih => rw [List.length_cons, List.length_cons, ih]

theorem append {ws : List Value} {es : List Datum}
    (hvs : RepresentsAll code slot h vs ds) (hws : RepresentsAll code slot h ws es) :
    RepresentsAll code slot h (vs ++ ws) (ds ++ es) := by
  induction hvs with
  | nil => exact hws
  | cons hv _ ih => exact .cons hv ih

theorem getElem? (hvs : RepresentsAll code slot h vs ds) {i : Nat} {v : Value}
    {d : Datum} (hv : vs[i]? = some v) (hd : ds[i]? = some d) :
    Represents code slot h v (.datum d) := by
  induction hvs generalizing i with
  | nil => simp at hv
  | cons hfirst _ ih =>
      cases i with
      | zero =>
          rw [List.getElem?_cons_zero] at hv hd
          cases hv
          cases hd
          exact hfirst
      | succ i =>
          rw [List.getElem?_cons_succ] at hv hd
          exact ih hv hd

theorem not_mark (hvs : RepresentsAll code slot h vs ds) :
    ∀ v ∈ vs, v.isMark = false := by
  induction hvs with
  | nil => exact fun v hv => absurd hv List.not_mem_nil
  | cons hv _ ih => exact List.forall_mem_cons.2 ⟨hv.isMark, ih⟩

end RepresentsAll

/-- The locals of a call stand for the bindings around its code: first those on the
return stack, then those in the environment. -/
inductive Bound (code : Code) (slot : Symbol → Option Nat) (h : Heap) (env : Value) :
    List Value → Env → Prop where
  | captured {bindings : Env} :
      Represents code slot h env (.env bindings) → Bound code slot h env [] bindings
  | bind {v : Value} {locals : List Value} {b : Binder} {d : Datum}
      {bindings : Env} :
      Represents code slot h v (.datum d) → Bound code slot h env locals bindings →
      Bound code slot h env (v :: locals) ((b, d) :: bindings)

namespace Bound

variable {code : Code} {slot : Symbol → Option Nat} {h : Heap} {env : Value}
  {locals : List Value} {bindings : Env}

theorem grow {heap : Heap} (hbound : Bound code slot h env locals bindings)
    (hgrows : h.Grows heap) : Bound code slot heap env locals bindings := by
  induction hbound with
  | captured henv => exact .captured (henv.grow hgrows)
  | bind hv _ ih => exact .bind (hv.grow hgrows) ih

/-- The binding at an index of an environment. -/
theorem chainAt (henv : Represents code slot h env (.env bindings)) {i : Nat}
    {b : Binder} {d : Datum} (hi : bindings[i]? = some (b, d)) :
    ∃ v, Machine.chainAt h env i = some v ∧ Represents code slot h v (.datum d) := by
  induction i generalizing env bindings with
  | zero =>
      cases henv with
      | nil => cases hi
      | cons hcell _ hfields hv _ =>
          cases hi
          refine ⟨_, ?_, hv⟩
          simp [Machine.chainAt, Value.address?, Heap.field, Heap.fields, hcell, hfields]
  | succ i ih =>
      cases henv with
      | nil => cases hi
      | cons hcell _ hfields _ henv =>
          obtain ⟨v, hv, hrep⟩ := ih henv (by simpa using hi)
          refine ⟨v, ?_, hrep⟩
          simpa [Machine.chainAt, Value.address?, Heap.field, Heap.fields, hcell,
            hfields] using hv

/-- The binding at an index is a local on the return stack or further out in the
environment. -/
theorem getElem? (hbound : Bound code slot h env locals bindings) {i : Nat}
    {b : Binder} {d : Datum} (hi : bindings[i]? = some (b, d)) :
    ∃ v, Represents code slot h v (.datum d) ∧
      (if i < locals.length then locals[i]?
        else Machine.chainAt h env (i - locals.length)) = some v := by
  induction hbound generalizing i with
  | captured henv =>
      obtain ⟨v, hv, hrep⟩ := chainAt henv hi
      exact ⟨v, hrep, hv⟩
  | @bind u locals _ _ _ hu _ ih =>
      cases i with
      | zero =>
          cases hi
          exact ⟨u, hu, rfl⟩
      | succ i =>
          obtain ⟨v, hrep, hv⟩ := ih (by simpa using hi)
          refine ⟨v, hrep, ?_⟩
          simpa using hv

/-- The environment that a closure captures stands for all bindings. -/
theorem captureEnv (hbound : Bound code slot h env locals bindings) :
    let result := (locals.map ReturnEntry.value).foldr Machine.consEnv (env, h)
    h.Grows result.2 ∧ Represents code slot result.2 result.1 (.env bindings) := by
  induction hbound with
  | captured henv => exact ⟨.refl _, henv⟩
  | bind hv _ ih =>
      obtain ⟨hgrows, henv⟩ := ih
      refine ⟨.alloc _ _ hgrows, ?_⟩
      refine .cons (Heap.cells_alloc_self _ _ _) rfl rfl ?_ ?_
      · exact hv.grow (.alloc _ _ hgrows)
      · exact henv.grow (.alloc _ _ (.refl _))

end Bound

end Zinc
