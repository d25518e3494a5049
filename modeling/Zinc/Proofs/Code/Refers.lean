import Zinc.Code.Generate
import Zinc.Lir.Lower

/-!
The globals that a lowered expression refers to.  Lowering lets only declared globals
through, and generating code asks for the slots of the globals in the tree and of no
others; so the code of an expression does not depend on what is declared later.
-/

namespace Zinc.Lir

/-- Every global in the tree is a known one. -/
inductive Refers (known : Symbol → Bool) : Lir → Prop where
  | lam {id : Nat} {body : Lir} : Refers known body → Refers known (.lam id body)
  | letIn {id : Nat} {value body : Lir} : Refers known value → Refers known body →
      Refers known (.letIn id value body)
  | app {fn arg : Lir} : Refers known fn → Refers known arg → Refers known (.app fn arg)
  | var (origin depth : Nat) : Refers known (.var origin depth)
  | global {s : Symbol} : known s = true → Refers known (.global s)
  | int (value : Int64) : Refers known (.int value)
  | block {kind : UInt8} {fields : List Lir} : (∀ f ∈ fields, Refers known f) →
      Refers known (.block kind fields)

section Lowering

variable {declared : Symbol → Bool}

mutual

theorem lowerFrom_refers : (e : Expr) → {scope : Scope} → {next next' : Nat} → {l : Lir} →
    lowerFrom declared scope next e = .ok (l, next') → Refers declared l
  | .app _ fn arg, scope, next, next', l, h => by
      unfold lowerFrom at h
      split at h
      · cases h
      · rename_i hfn
        split at h
        · cases h
        · rename_i harg
          cases h
          exact .app (lowerFrom_refers fn hfn) (lowerFrom_refers arg harg)
  | .lam _ _ body, scope, next, next', l, h => by
      unfold lowerFrom at h
      split at h
      · cases h
      · rename_i hbody
        cases h
        exact .lam (lowerFrom_refers body hbody)
  | .letIn _ _ value body, scope, next, next', l, h => by
      unfold lowerFrom at h
      split at h
      · cases h
      · rename_i hvalue
        split at h
        · cases h
        · rename_i hbody
          cases h
          exact .letIn (lowerFrom_refers value hvalue) (lowerFrom_refers body hbody)
  | .var _ _, scope, next, next', l, h => by
      unfold lowerFrom at h
      split at h
      · cases h
        exact .var _ _
      · cases h
  | .global _ _, scope, next, next', l, h => by
      unfold lowerFrom at h
      split at h
      · rename_i s hs
        cases h
        exact .global (Option.filter_eq_some_iff.1 hs).2
      · cases h
  | .tuple _ fields, scope, next, next', l, h => by
      unfold lowerFrom at h
      exact lowerFields_refers fields (fun _ hf => absurd hf List.not_mem_nil) h
  | .int _ _, scope, next, next', l, h => by
      unfold lowerFrom at h
      cases h
      exact .int _
  | .missing, scope, next, next', l, h => by
      unfold lowerFrom at h
      cases h

theorem lowerFields_refers : (fields : List Expr) → {scope : Scope} → {next next' : Nat} →
    {done : List Lir} → {l : Lir} → (∀ f ∈ done, Refers declared f) →
      lowerFields declared scope next fields done = .ok (l, next') → Refers declared l
  | [], scope, next, next', done, l, hdone, h => by
      unfold lowerFields at h
      cases h
      exact .block fun f hf => hdone f (List.mem_reverse.1 hf)
  | field :: rest, scope, next, next', done, l, hdone, h => by
      unfold lowerFields at h
      split at h
      · cases h
      · rename_i hfield
        exact lowerFields_refers rest
          (List.forall_mem_cons.2 ⟨lowerFrom_refers field hfield, hdone⟩) h

end

/-- A lowered expression refers to declared globals only. -/
theorem lower_refers {e : Expr} {l : Lir} (h : lower declared e = .ok l) :
    Refers declared l := by
  unfold lower at h
  cases hlower : lowerFrom declared [] 0 e with
  | error f =>
      rw [hlower] at h
      cases h
  | ok lowered =>
      rw [hlower] at h
      cases h
      exact lowerFrom_refers e hlower

end Lowering

section Generating

variable {slot slot' : Symbol → Option Nat}

theorem generateFields_congr {scope : List Nat} {fields : List Lir}
    (h : ∀ f ∈ fields, ∀ scope p, generate slot' scope p f = generate slot scope p f)
    (done : List Lir) (code : List Instr) :
    generateFields slot' scope fields done code =
      generateFields slot scope fields done code := by
  induction fields generalizing done code with
  | nil => rw [generateFields, generateFields]
  | cons f rest ih =>
      obtain ⟨hf, hrest⟩ := List.forall_mem_cons.1 h
      rw [generateFields, generateFields, hf]
      split
      · rfl
      · exact ih hrest _ _

/-- The code of a tree depends on the slots of the globals in it and of no others. -/
theorem Refers.generate_eq {known : Symbol → Bool} {l : Lir} (h : Refers known l)
    (hslots : ∀ s, known s = true → slot' s = slot s) (scope : List Nat) (p : Position) :
    generate slot' scope p l = generate slot scope p l := by
  induction h generalizing scope p with
  | lam _ ih => rw [generate, generate, ih]
  | letIn _ _ ihvalue ihbody =>
      unfold generate
      simp only [ihvalue, ihbody]
  | app _ _ ihfn iharg => rw [generate, generate, iharg, ihfn]
  | var origin depth => rw [generate, generate]
  | global hs => rw [generate, generate, hslots _ hs]
  | int value => rw [generate, generate]
  | block _ ih => rw [generate, generate, generateFields_congr ih]

end Generating

end Zinc.Lir
