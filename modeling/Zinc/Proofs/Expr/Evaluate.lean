import Zinc.Expr

/-!
What expressions mean.  Evaluation is call by value: the argument of an application
before its function, the value of a `let` before its body, the fields of a tuple from
left to right.  A variable means what its innermost binder is bound to, and a function
keeps the bindings around it.
-/

namespace Zinc

/-- What an expression can mean: an integer, a tuple, or a function with the bindings
around it, innermost first. -/
inductive Datum where
  | int (value : Int64)
  | tuple (fields : List Datum)
  | closure (param : Binder) (body : Expr) (env : List (Binder × Datum))

/-- Data without functions. -/
inductive Datum.Plain : Datum → Prop where
  | int (value : Int64) : Plain (.int value)
  | tuple {fields : List Datum} : (∀ d ∈ fields, Plain d) → Plain (.tuple fields)

/-- The bindings around an expression, innermost first. -/
abbrev Env := List (Binder × Datum)

/-- What the innermost occurrence of a binder is bound to. -/
def Env.lookup? (env : Env) (b : Binder) : Option Datum :=
  (List.find? (fun entry => entry.1 = b) env).map (·.2)

/-- Why an evaluation cannot go on.  Only an expression with a free variable or an
absent part is malformed. -/
inductive Stuck where
  | notClosure
  | undefinedGlobal
  | malformed
deriving DecidableEq, Repr

/-- How an evaluation ends; it is unfinished when calls are nested too deeply. -/
inductive Outcome (α : Type) where
  | value (a : α)
  | stuck (why : Stuck)
  | unfinished

/-- Goes on with a value. -/
def Outcome.andThen {α β : Type} (o : Outcome α) (k : α → Outcome β) : Outcome β :=
  match o with
  | .value a => k a
  | .stuck why => .stuck why
  | .unfinished => .unfinished

theorem Outcome.andThen_assoc {α β γ : Type} (o : Outcome α) (k : α → Outcome β)
    (l : β → Outcome γ) :
    (o.andThen k).andThen l = o.andThen fun a => (k a).andThen l := by
  cases o <;> rfl

namespace Expr

variable (call : Datum → Datum → Outcome Datum) (globals : Symbol → Option Datum)

mutual

/-- Evaluates an expression.  `call` applies a function to an argument, and `globals`
gives the globals that have been assigned. -/
def evaluate (env : Env) : Expr → Outcome Datum
  | .int _ value => .value (.int value)
  | .var _ binder =>
    match binder.bind env.lookup? with
    | some d => .value d
    | none => .stuck .malformed
  | .global _ none => .stuck .malformed
  | .global _ (some s) =>
    match globals s with
    | some d => .value d
    | none => .stuck .undefinedGlobal
  | .lam _ param body => .value (.closure param body env)
  | .app _ fn arg =>
    (evaluate env arg).andThen fun a => (evaluate env fn).andThen fun f => call f a
  | .letIn _ binder value body =>
    (evaluate env value).andThen fun d => evaluate ((binder, d) :: env) body
  | .tuple _ fields => (evaluateFields env fields).andThen fun ds => .value (.tuple ds)
  | .missing => .stuck .malformed

/-- Evaluates the fields of a tuple. -/
def evaluateFields (env : Env) : List Expr → Outcome (List Datum)
  | [] => .value []
  | field :: rest =>
    (evaluate env field).andThen fun d =>
      (evaluateFields env rest).andThen fun ds => .value (d :: ds)

end

end Expr

/-- Applies a function to an argument, with calls nested at most `depth` deep. -/
def Datum.apply (globals : Symbol → Option Datum) : Nat → Datum → Datum → Outcome Datum
  | 0, _, _ => .unfinished
  | depth + 1, .closure param body env, a =>
    body.evaluate (apply globals depth) globals ((param, a) :: env)
  | _ + 1, _, _ => .stuck .notClosure

/-- A closed expression evaluates to an outcome when calls may be nested deeply
enough. -/
def Expr.Evaluates (globals : Symbol → Option Datum) (e : Expr) (o : Outcome Datum) :
    Prop :=
  ∃ depth, e.evaluate (Datum.apply globals depth) globals [] = o

namespace Expr

variable (call : Datum → Datum → Outcome Datum) (globals : Symbol → Option Datum)

/-- Applies a function to several arguments, one after the other. -/
def applyAll : Datum → List Datum → Outcome Datum
  | f, [] => .value f
  | f, a :: rest => (call f a).andThen fun g => applyAll g rest

theorem applyAll_append (f : Datum) (as bs : List Datum) :
    applyAll call f (as ++ bs) =
      (applyAll call f as).andThen fun g => applyAll call g bs := by
  induction as generalizing f with
  | nil => rfl
  | cons a rest ih =>
      rw [List.cons_append, applyAll, applyAll, Outcome.andThen_assoc]
      congr 1
      exact funext ih

/-- Evaluates the arguments of nested applications, the last one first, and then the
function that they are for. -/
def spine (env : Env) : Expr → Outcome (Datum × List Datum)
  | .app _ fn arg =>
    (evaluate call globals env arg).andThen fun a =>
      (spine env fn).andThen fun s => .value (s.1, s.2 ++ [a])
  | e => (evaluate call globals env e).andThen fun f => .value (f, [])

/-- Nested applications can be evaluated all at once. -/
theorem evaluate_eq_spine (env : Env) (e : Expr) :
    e.evaluate call globals env =
      (e.spine call globals env).andThen fun s => applyAll call s.1 s.2 := by
  fun_induction spine call globals env e with
  | case1 pos fn arg ih =>
      rw [evaluate, Outcome.andThen_assoc]
      congr 1
      funext a
      rw [ih, Outcome.andThen_assoc, Outcome.andThen_assoc]
      congr 1
      funext s
      rw [Outcome.andThen, applyAll_append]
      congr 1
      funext f
      rw [applyAll]
      cases call f a <;> rfl
  | case2 e =>
      rw [Outcome.andThen_assoc]
      cases e.evaluate call globals env <;> rfl

end Expr

end Zinc
