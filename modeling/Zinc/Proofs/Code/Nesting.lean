import Mathlib
import Zinc.Proofs.Code.Format
import Zinc.Proofs.Code.Generate

/-!
How deep binders are nested in code.  A function or a `let` adds to the locals of the
call that it stands in, until a closure starts afresh.  Code generated from an expression
never binds more locals in one call than binders are nested in it, wherever the call
begins; and it has one `APPLY` for every application that is not in tail position.
-/

namespace Zinc

/-- The number of locals of the call once a function that stands among `n` of them has taken
its argument: out of tail position it is a closure, which starts afresh. -/
def Position.entered (n : Nat) : Position → Nat
  | .tail => n + 1
  | _ => 1

/-- How many calls an application makes by itself: one in tail position goes on with the
current call, and one in head position has its arguments taken over by the one around
it. -/
def Position.call : Position → Nat
  | .value => 1
  | _ => 0

namespace Lir

mutual

/-- For each binder in an expression: how many binders are nested there, itself included,
without a closure in between.  The expression stands inside `n` of them. -/
def nestings (n : Nat) (p : Position) : Lir → List Nat
  | .lam _ body => p.entered n :: body.nestings (p.entered n) .tail
  | .letIn _ value body =>
    value.nestings n .value ++ (n + 1) :: body.nestings (n + 1) p.ofBody
  | .app fn arg => fn.nestings n .head ++ arg.nestings n .value
  | .block _ fields => fieldNestings n fields
  | _ => []

/-- The same for the fields of a block. -/
def fieldNestings (n : Nat) : List Lir → List Nat
  | [] => []
  | field :: rest => field.nestings n .value ++ fieldNestings n rest

end

/-- The largest number of binders nested in one of several expressions, each of them
compiled on its own, without a closure in between. -/
def nesting (units : List Lir) : Nat :=
  (units.flatMap (nestings 0 .value)).foldr max 0

mutual

/-- The number of applications that are not in tail position.  An application to several
arguments counts once. -/
def calls (p : Position) : Lir → Nat
  | .lam _ body => body.calls .tail
  | .letIn _ value body => value.calls .value + body.calls p.ofBody
  | .app fn arg => p.call + (fn.calls .head + arg.calls .value)
  | .block _ fields => fieldCalls fields
  | _ => 0

/-- The same for the fields of a block. -/
def fieldCalls : List Lir → Nat
  | [] => 0
  | field :: rest => field.calls .value + fieldCalls rest

end

theorem le_foldr_max {ks : List Nat} {k : Nat} (hk : k ∈ ks) : k ≤ ks.foldr max 0 := by
  induction ks with
  | nil => exact absurd hk List.not_mem_nil
  | cons j rest ih =>
      rw [List.foldr_cons]
      rcases List.mem_cons.1 hk with rfl | hk
      · exact Nat.le_max_left ..
      · exact Nat.le_trans (ih hk) (Nat.le_max_right ..)

end Lir

/-- An instruction that binds no local, drops none and goes on with the one after it. -/
def Instr.isPlain : Instr → Bool
  | .bind | .grab | .unbind | .closure _ | .ret | .appTerm => false
  | _ => true

/-- Code that can be run with `n` locals of the current call on the return stack and never
has more than `d` there.  What follows a return or a call in tail position is run from
somewhere else, if at all. -/
inductive Nested (d : Nat) : Nat → List Instr → Prop where
  | nil {n : Nat} : Nested d n []
  | bind {n : Nat} {is : List Instr} :
      n + 1 ≤ d → Nested d (n + 1) is → Nested d n (.bind :: is)
  | grab {n : Nat} {is : List Instr} :
      n + 1 ≤ d → Nested d (n + 1) is → Nested d n (.grab :: is)
  | unbind {n : Nat} {is : List Instr} : Nested d (n - 1) is → Nested d n (.unbind :: is)
  | closure {n : Nat} {body rest : List Instr} {length : UInt16} :
      length.toNat = Instr.sizeAll body → Nested d 0 (body ++ rest) → Nested d n rest →
      Nested d n (.closure length :: (body ++ rest))
  | leaving {n k : Nat} {i : Instr} {is : List Instr} :
      i = .ret ∨ i = .appTerm → Nested d k is → Nested d n (i :: is)
  | plain {n : Nat} {i : Instr} {is : List Instr} :
      i.isPlain = true → Nested d n is → Nested d n (i :: is)

namespace Nested

variable {d n k : Nat} {is js : List Instr}

/-- Fewer locals do no harm. -/
theorem fewer (h : Nested d n is) (hle : k ≤ n) : Nested d k is := by
  induction h generalizing k with
  | nil => exact .nil
  | bind hroom _ ih => exact .bind (by omega) (ih (by omega))
  | grab hroom _ ih => exact .grab (by omega) (ih (by omega))
  | unbind _ ih => exact .unbind (ih (by omega))
  | closure hlength hbody _ _ ih => exact .closure hlength hbody (ih hle)
  | leaving hi hrest _ => exact .leaving hi hrest
  | plain hplain _ ih => exact .plain hplain (ih hle)

/-- Code can be entered anywhere. -/
theorem suffix (h : Nested d n is) (hsuffix : js <:+ is) : Nested d 0 js := by
  induction h with
  | nil =>
      rw [List.suffix_nil.1 hsuffix]
      exact .nil
  | bind hroom hrest ih =>
      rcases List.suffix_cons_iff.1 hsuffix with rfl | hsuffix
      · exact fewer (.bind hroom hrest) (Nat.zero_le _)
      · exact ih hsuffix
  | grab hroom hrest ih =>
      rcases List.suffix_cons_iff.1 hsuffix with rfl | hsuffix
      · exact fewer (.grab hroom hrest) (Nat.zero_le _)
      · exact ih hsuffix
  | unbind hrest ih =>
      rcases List.suffix_cons_iff.1 hsuffix with rfl | hsuffix
      · exact fewer (.unbind hrest) (Nat.zero_le _)
      · exact ih hsuffix
  | closure hlength hbody hrest ih _ =>
      rcases List.suffix_cons_iff.1 hsuffix with rfl | hsuffix
      · exact fewer (.closure hlength hbody hrest) (Nat.zero_le _)
      · exact ih hsuffix
  | leaving hi hrest ih =>
      rcases List.suffix_cons_iff.1 hsuffix with rfl | hsuffix
      · exact .leaving hi hrest
      · exact ih hsuffix
  | plain hplain hrest ih =>
      rcases List.suffix_cons_iff.1 hsuffix with rfl | hsuffix
      · exact fewer (.plain hplain hrest) (Nat.zero_le _)
      · exact ih hsuffix

end Nested

/-- Code that keeps the number of locals, whatever follows it. -/
def Level (d n : Nat) (code : List Instr) : Prop :=
  ∀ rest, Nested d n rest → Nested d n (code ++ rest)

/-- Code that leaves the current call. -/
def Departs (d n : Nat) (code : List Instr) : Prop :=
  ∀ k rest, Nested d k rest → Nested d n (code ++ rest)

/-- What the code of an expression does with the locals, by position. -/
def Nests (d n : Nat) : Position → List Instr → Prop
  | .tail, code => Departs d n code
  | _, code => Level d n code

namespace Lir

variable {d n : Nat} {slot : Symbol → Option Nat} {p : Position} {code : List Instr}

theorem nests_settle (h : Level d n code) (p : Position) : Nests d n p (settle p code) := by
  cases p with
  | value => exact h
  | head => exact h
  | tail =>
      intro k rest hrest
      rw [settle, List.append_assoc]
      exact h _ (.leaving (.inl rfl) hrest)

theorem nests_closeOver {body : List Instr} (hroom : p.entered n ≤ d)
    (hbody : Departs d (p.entered n) body) (hcode : closeOver p (.grab :: body) = .ok code) :
    Nests d n p code := by
  have hlevel (hbody : 1 ≤ d ∧ Departs d 1 body)
      (hclose : closeOver .value (.grab :: body) = .ok code) : Level d n code := by
    obtain ⟨length, hlength, rfl⟩ := closeOver_value hclose
    exact fun rest hrest => .closure hlength (.grab hbody.1 (hbody.2 n rest hrest)) hrest
  cases p with
  | value => exact hlevel ⟨hroom, hbody⟩ hcode
  | head => exact hlevel ⟨hroom, hbody⟩ hcode
  | tail =>
      cases hcode
      exact fun k rest hrest => .grab hroom (hbody k rest hrest)

theorem nests_closeCall {spine : List Instr} (h : Level d n spine) (p : Position) :
    Nests d n p (closeCall p spine) := by
  cases p with
  | value =>
      intro rest hrest
      rw [closeCall, List.cons_append, List.cons_append, List.append_assoc]
      refine .plain rfl (h _ ?_)
      exact .plain rfl hrest
  | head => exact h
  | tail =>
      intro k rest hrest
      rw [closeCall, List.append_assoc]
      exact h _ (.leaving (.inr rfl) hrest)

theorem level_push {argument spine : List Instr} (harg : Level d n argument)
    (hspine : Level d n spine) : Level d n (argument ++ .push :: spine) := by
  intro rest hrest
  rw [List.append_assoc]
  apply harg
  exact .plain rfl (hspine rest hrest)

theorem nests_letIn {value body : List Instr} (hroom : n + 1 ≤ d)
    (hvalue : Level d n value) (hbody : Nests d (n + 1) p.ofBody body) :
    Nests d n p (value ++ .bind :: body ++ [.unbind]) := by
  have hlevel (hbody : Level d (n + 1) body) :
      Level d n (value ++ .bind :: body ++ [.unbind]) := by
    intro rest hrest
    rw [List.append_assoc, List.append_assoc]
    apply hvalue
    exact .bind hroom (hbody _ (.unbind hrest))
  cases p with
  | value => exact hlevel hbody
  | head => exact hlevel hbody
  | tail =>
      intro k rest hrest
      rw [List.append_assoc, List.append_assoc]
      apply hvalue
      exact .bind hroom (hbody k _ (.unbind (hrest.fewer (Nat.sub_le k 1))))

mutual

/-- Generated code has no more locals in a call than binders are nested there. -/
theorem generate_nests : (e : Lir) → (n : Nat) → (scope : List Nat) → (p : Position) →
    (code : List Instr) → (generate slot scope p e).code = .ok code →
      (∀ k ∈ e.nestings n p, k ≤ d) → Nests d n p code
  | .int value, n, scope, p, code, h, hd => by
      rw [generate_int h]
      exact nests_settle (fun _ => .plain rfl) p
  | .var origin depth, n, scope, p, code, h, hd => by
      obtain ⟨index, hindex, hmax, rfl⟩ := generate_var h
      exact nests_settle (fun _ => .plain rfl) p
  | .global symbol, n, scope, p, code, h, hd => by
      obtain ⟨i, hi, rfl⟩ := generate_global h
      exact nests_settle (fun _ => .plain rfl) p
  | .app fn arg, n, scope, p, code, h, hd => by
      obtain ⟨argCode, fnCode, harg, hfn, rfl⟩ := generate_app h
      rw [nestings, List.forall_mem_append] at hd
      have hfn : Level d n fnCode := generate_nests fn n scope .head fnCode hfn hd.1
      have harg : Level d n argCode := generate_nests arg n scope .value argCode harg hd.2
      exact nests_closeCall (level_push harg hfn) p
  | .lam id body, n, scope, p, code, h, hd => by
      obtain ⟨bodyCode, hbody, hclose⟩ := generate_lam h
      rw [nestings, List.forall_mem_cons] at hd
      exact nests_closeOver hd.1
        (generate_nests body (p.entered n) _ .tail bodyCode hbody hd.2) hclose
  | .letIn id value body, n, scope, p, code, h, hd => by
      obtain ⟨valueCode, bodyCode, hvalue, hbody, rfl⟩ := generate_letIn h
      rw [nestings, List.forall_mem_append, List.forall_mem_cons] at hd
      exact nests_letIn hd.2.1 (generate_nests value n scope .value valueCode hvalue hd.1)
        (generate_nests body (n + 1) _ p.ofBody bodyCode hbody hd.2.2)
  | .block kind fields, n, scope, p, code, h, hd => by
      obtain ⟨fieldsCode, hmax, hfields, rfl⟩ := generate_block h
      rw [nestings] at hd
      obtain ⟨new, rfl, hnew⟩ := generateFields_level fields n scope [] [] fieldsCode hfields hd
      refine nests_settle (fun rest hrest => ?_) p
      rw [List.append_assoc]
      exact hnew _ (.plain rfl hrest)
  | .missing, n, scope, p, code, h, hd => absurd h generate_missing

theorem generateFields_level : (fields : List Lir) → (n : Nat) → (scope : List Nat) →
    (done : List Lir) → (before code : List Instr) →
      (generateFields slot scope fields done before).2 = .ok code →
        (∀ k ∈ fieldNestings n fields, k ≤ d) →
        ∃ new, code = before.reverse ++ new ∧ Level d n new
  | [], n, scope, done, before, code, h, hd => by
      rw [generateFields] at h
      cases h
      exact ⟨[], by simp, fun _ hrest => hrest⟩
  | field :: rest, n, scope, done, before, code, h, hd => by
      obtain ⟨fieldCode, done', hfield, hrest⟩ := generateFields_cons h
      rw [fieldNestings, List.forall_mem_append] at hd
      obtain ⟨new, rfl, hnew⟩ :=
        generateFields_level rest n scope done' _ code hrest hd.2
      refine ⟨fieldCode ++ .push :: new, by simp, ?_⟩
      exact level_push (generate_nests field n scope .value fieldCode hfield hd.1) hnew

end

theorem count_settle (p : Position) (code : List Instr) :
    (settle p code).count .apply = code.count .apply := by
  cases p with
  | value => rfl
  | head => rfl
  | tail => simp [settle]

theorem count_closeCall (p : Position) (spine : List Instr) :
    (closeCall p spine).count .apply =
      p.call + spine.count .apply := by
  cases p with
  | value => simp [closeCall, Position.call, Nat.add_comm]
  | head => simp [closeCall, Position.call]
  | tail => simp [closeCall, Position.call]

theorem count_closeOver {body : List Instr} (h : closeOver p (.grab :: body) = .ok code) :
    code.count .apply = body.count .apply := by
  have hvalue (hclose : closeOver .value (.grab :: body) = .ok code) :
      code.count .apply = body.count .apply := by
    obtain ⟨length, _, rfl⟩ := closeOver_value hclose
    simp
  cases p with
  | value => exact hvalue h
  | head => exact hvalue h
  | tail =>
      cases h
      simp

mutual

/-- Generated code has one `APPLY` for each application that is not in tail position. -/
theorem count_generate : (e : Lir) → (scope : List Nat) → (p : Position) →
    (code : List Instr) → (generate slot scope p e).code = .ok code →
      code.count .apply = e.calls p
  | .int value, scope, p, code, h => by
      rw [generate_int h, count_settle]
      rfl
  | .var origin depth, scope, p, code, h => by
      obtain ⟨index, hindex, hmax, rfl⟩ := generate_var h
      rw [count_settle]
      rfl
  | .global symbol, scope, p, code, h => by
      obtain ⟨i, hi, rfl⟩ := generate_global h
      rw [count_settle]
      rfl
  | .app fn arg, scope, p, code, h => by
      obtain ⟨argCode, fnCode, harg, hfn, rfl⟩ := generate_app h
      have hfn := count_generate fn scope .head fnCode hfn
      have harg := count_generate arg scope .value argCode harg
      rw [count_closeCall, calls, ← hfn, ← harg]
      simp [Nat.add_comm]
  | .lam id body, scope, p, code, h => by
      obtain ⟨bodyCode, hbody, hclose⟩ := generate_lam h
      rw [count_closeOver hclose, calls]
      exact count_generate body _ .tail bodyCode hbody
  | .letIn id value body, scope, p, code, h => by
      obtain ⟨valueCode, bodyCode, hvalue, hbody, rfl⟩ := generate_letIn h
      have hvalue := count_generate value scope .value valueCode hvalue
      have hbody := count_generate body _ p.ofBody bodyCode hbody
      rw [calls, ← hvalue, ← hbody]
      simp
  | .block kind fields, scope, p, code, h => by
      obtain ⟨fieldsCode, hmax, hfields, rfl⟩ := generate_block h
      have hfields := count_generateFields fields scope [] [] fieldsCode hfields
      rw [count_settle, calls, List.count_append, hfields]
      simp
  | .missing, scope, p, code, h => absurd h generate_missing

theorem count_generateFields : (fields : List Lir) → (scope : List Nat) →
    (done : List Lir) → (before code : List Instr) →
      (generateFields slot scope fields done before).2 = .ok code →
        code.count .apply = before.count .apply + fieldCalls fields
  | [], scope, done, before, code, h => by
      rw [generateFields] at h
      cases h
      simp [fieldCalls]
  | field :: rest, scope, done, before, code, h => by
      obtain ⟨fieldCode, done', hfield, hrest⟩ := generateFields_cons h
      have hfield := count_generate field scope .value fieldCode hfield
      have hrest := count_generateFields rest scope done' _ code hrest
      rw [hrest, fieldCalls, ← hfield]
      simp
      omega

end

end Lir

/-- Code that was put together from expressions, each of them compiled on its own or as the
definition of a global. -/
inductive Assembled : List Lir → List Instr → Prop where
  | nil : Assembled [] []
  | entry {units : List Lir} {is code : List Instr} {slot : Symbol → Option Nat} {e : Lir} :
      Assembled units is → (e.generateEntry slot).code = .ok code →
      Assembled (units ++ [e]) (is ++ code)
  | definition {units : List Lir} {is code : List Instr} {slot : Symbol → Option Nat}
      {s : Symbol} {e : Lir} :
      Assembled units is → (e.generateDefinition slot s).code = .ok code →
      Assembled (units ++ [e]) (is ++ code)

namespace Assembled

variable {d : Nat} {units : List Lir} {is : List Instr}

/-- Assembled code has no more locals in a call than binders are nested in one of the
expressions. -/
theorem departs (h : Assembled units is)
    (hd : ∀ e ∈ units, ∀ k ∈ e.nestings 0 .value, k ≤ d) {n : Nat} {rest : List Instr}
    (hrest : Nested d n rest) : Nested d 0 (is ++ rest) := by
  induction h generalizing n rest with
  | nil => exact hrest.fewer (Nat.zero_le n)
  | entry _ hcode ih =>
      obtain ⟨valueCode, hvalue, rfl⟩ := Lir.generateEntry_eq_ok hcode
      obtain ⟨hunits, he⟩ := List.forall_mem_append.1 hd
      have hlevel : Level d 0 valueCode :=
        Lir.generate_nests _ 0 [] .value valueCode hvalue (he _ List.mem_cons_self)
      rw [List.append_assoc, List.append_assoc]
      exact ih hunits (hlevel _ (.leaving (.inl rfl) hrest))
  | definition _ hcode ih =>
      obtain ⟨i, valueCode, _, hvalue, rfl⟩ := Lir.generateDefinition_eq_ok hcode
      obtain ⟨hunits, he⟩ := List.forall_mem_append.1 hd
      have hlevel : Level d 0 valueCode :=
        Lir.generate_nests _ 0 [] .value valueCode hvalue (he _ List.mem_cons_self)
      rw [List.append_assoc, List.append_assoc]
      refine ih hunits (hlevel _ ?_)
      exact .plain rfl (.leaving (.inl rfl) hrest)

theorem nested (h : Assembled units is) : Nested (Lir.nesting units) 0 is := by
  have hd : ∀ e ∈ units, ∀ k ∈ e.nestings 0 .value, k ≤ Lir.nesting units :=
    fun e he k hk => Lir.le_foldr_max (List.mem_flatMap.2 ⟨e, he, hk⟩)
  have hnil : Nested (Lir.nesting units) 0 [] := .nil
  have hall := h.departs hd hnil
  rwa [List.append_nil] at hall

/-- The `APPLY` instructions are those of the applications that are not in tail
position. -/
theorem count_apply (h : Assembled units is) :
    is.count .apply = (units.map (Lir.calls .value)).sum := by
  induction h with
  | nil => rfl
  | entry _ hcode ih =>
      obtain ⟨valueCode, hvalue, rfl⟩ := Lir.generateEntry_eq_ok hcode
      simp [ih, Lir.count_generate _ _ _ _ hvalue]
  | definition _ hcode ih =>
      obtain ⟨i, valueCode, _, hvalue, rfl⟩ := Lir.generateDefinition_eq_ok hcode
      simp [ih, Lir.count_generate _ _ _ _ hvalue]

end Assembled

end Zinc
