import Zinc.Lir.Lower
import Zinc.Proofs.Code.Generate

/-!
The code of an expression.  An expression is lowered and then its code is generated;
what the code looks like depends on the binders around it alone, since every binder has
a node of its own.  So the code of an expression is put together from the code of its
parts.
-/

namespace Zinc

/-- The nodes in a scope differ from each other and from those still to come. -/
structure Lir.Scope.Fresh (scope : Lir.Scope) (next : Nat) : Prop where
  nodup : (scope.map Prod.snd).Nodup
  older : ∀ id ∈ scope.map Prod.snd, id < next

namespace Lir

theorem Scope.Fresh.later {scope : Scope} {next next' : Nat} (h : scope.Fresh next)
    (hle : next ≤ next') : scope.Fresh next' :=
  ⟨h.nodup, fun id hid => Nat.lt_of_lt_of_le (h.older id hid) hle⟩

theorem Scope.Fresh.cons {scope : Scope} {next : Nat} (h : scope.Fresh next)
    (b : Binder) : Scope.Fresh ((b, next) :: scope) (next + 1) := by
  refine ⟨List.nodup_cons.2 ⟨fun hmem => ?_, h.nodup⟩, fun id hid => ?_⟩
  · exact Nat.lt_irrefl _ (h.older next hmem)
  · rcases List.mem_cons.1 hid with rfl | hid
    · exact Nat.lt_succ_self _
    · exact Nat.lt_succ_of_lt (h.older id hid)

/-- A variable is as far from its node as from its binder. -/
theorem Scope.Fresh.idxOf? {scope : Scope} {next : Nat} (h : scope.Fresh next)
    {b : Binder} {id : Nat} (horigin : scope.origin? b = some id) :
    (scope.map Prod.snd).idxOf? id = (scope.map Prod.fst).idxOf? b := by
  induction scope with
  | nil => cases horigin
  | cons entry rest ih =>
      obtain ⟨hnew, hnodup⟩ := List.nodup_cons.1 h.nodup
      have hrest : Scope.Fresh rest next :=
        ⟨hnodup, fun i hi => h.older i (List.mem_cons_of_mem _ hi)⟩
      rw [origin?, List.find?_cons] at horigin
      simp only [List.map_cons, List.idxOf?_cons]
      by_cases hb : entry.1 = b
      · simp only [hb, decide_true, Option.map_some, Option.some.injEq] at horigin
        simp [hb, horigin]
      · simp only [hb, decide_false] at horigin
        have hmem : id ∈ rest.map Prod.snd := by
          obtain ⟨found, hfound, rfl⟩ := Option.map_eq_some_iff.1 horigin
          exact List.mem_map_of_mem (List.mem_of_find?_eq_some hfound)
        have hid : entry.2 ≠ id := fun heq => hnew (heq ▸ hmem)
        have hsame := ih hrest horigin
        simp [hb, hid, hsame]

mutual

/-- Lowering numbers upwards. -/
theorem lowerFrom_le {declared : Symbol → Bool} : (e : Expr) → {scope : Scope} →
    {next next' : Nat} → {l : Lir} →
      lowerFrom declared scope next e = .ok (l, next') → next ≤ next'
  | .app _ fn arg, scope, next, next', l, h => by
      unfold lowerFrom at h
      split at h
      · cases h
      · rename_i hfn
        split at h
        · cases h
        · rename_i harg
          cases h
          exact Nat.le_trans (lowerFrom_le fn hfn) (lowerFrom_le arg harg)
  | .lam _ _ body, scope, next, next', l, h => by
      unfold lowerFrom at h
      split at h
      · cases h
      · rename_i hbody
        cases h
        exact Nat.le_of_succ_le (lowerFrom_le body hbody)
  | .letIn _ _ value body, scope, next, next', l, h => by
      unfold lowerFrom at h
      split at h
      · cases h
      · rename_i hvalue
        split at h
        · cases h
        · rename_i hbody
          cases h
          exact Nat.le_trans (lowerFrom_le value hvalue)
            (Nat.le_of_succ_le (lowerFrom_le body hbody))
  | .var _ _, scope, next, next', l, h => by
      unfold lowerFrom at h
      split at h
      · cases h
        exact Nat.le_refl _
      · cases h
  | .global _ _, scope, next, next', l, h => by
      unfold lowerFrom at h
      split at h
      · cases h
        exact Nat.le_refl _
      · cases h
  | .tuple _ fields, scope, next, next', l, h => by
      unfold lowerFrom at h
      exact lowerFields_le fields h
  | .int _ _, scope, next, next', l, h => by
      unfold lowerFrom at h
      cases h
      exact Nat.le_refl _
  | .missing, scope, next, next', l, h => by
      unfold lowerFrom at h
      cases h

theorem lowerFields_le {declared : Symbol → Bool} : (fields : List Expr) →
    {scope : Scope} → {next next' : Nat} → {done : List Lir} → {l : Lir} →
      lowerFields declared scope next fields done = .ok (l, next') → next ≤ next'
  | [], scope, next, next', done, l, h => by
      unfold lowerFields at h
      cases h
      exact Nat.le_refl _
  | field :: rest, scope, next, next', done, l, h => by
      unfold lowerFields at h
      split at h
      · cases h
      · rename_i hfield
        exact Nat.le_trans (lowerFrom_le field hfield) (lowerFields_le rest h)

end

theorem lowerFields_eq_block {declared : Symbol → Bool} {scope : Scope}
    (fields : List Expr) {next next' : Nat} {done : List Lir} {l : Lir}
    (h : lowerFields declared scope next fields done = .ok (l, next')) :
    ∃ ls, l = .block tupleKind ls := by
  induction fields generalizing next done with
  | nil =>
      rw [lowerFields] at h
      cases h
      exact ⟨_, rfl⟩
  | cons field rest ih =>
      unfold lowerFields at h
      split at h
      · cases h
      · exact ih h

/-- Lowering keeps applications, functions and `let` apart from the rest. -/
theorem lowerFrom_construct {declared : Symbol → Bool} {scope : Scope}
    {next next' : Nat} {e : Expr} {l : Lir}
    (h : lowerFrom declared scope next e = .ok (l, next')) :
    (∀ fn arg, l = .app fn arg → ∃ pos fn arg, e = .app pos fn arg) ∧
      (∀ id body, l = .lam id body → ∃ pos param body, e = .lam pos param body) ∧
      ∀ id value body, l = .letIn id value body →
        ∃ pos binder value body, e = .letIn pos binder value body := by
  cases e with
  | tuple pos fields =>
      rw [lowerFrom] at h
      obtain ⟨ls, rfl⟩ := lowerFields_eq_block fields h
      simp
  | _ =>
      unfold lowerFrom at h
      repeat' split at h
      all_goals
        cases h
        try simp

end Lir

/-- The code of an expression in a position, with `binders` around it, innermost
first. -/
inductive CodeOf (slot : Symbol → Option Nat) (binders : List Binder) (p : Position)
    (e : Expr) (code : List Instr) : Prop where
  | intro {declared : Symbol → Bool} {scope : Lir.Scope} {next next' : Nat} {l : Lir} :
      scope.map Prod.fst = binders → scope.Fresh next →
      Lir.lowerFrom declared scope next e = .ok (l, next') →
      (l.generate slot (scope.map Prod.snd) p).code = .ok code →
      CodeOf slot binders p e code

/-- The code that computes fields and pushes them. -/
inductive FieldsCode (slot : Symbol → Option Nat) (binders : List Binder) :
    List Expr → List Instr → Prop where
  | nil : FieldsCode slot binders [] []
  | cons {e : Expr} {rest : List Expr} {code restCode : List Instr} :
      CodeOf slot binders .value e code → FieldsCode slot binders rest restCode →
      FieldsCode slot binders (e :: rest) (code ++ .push :: restCode)

namespace CodeOf

variable {slot : Symbol → Option Nat} {binders : List Binder} {p : Position}
  {code : List Instr} {pos : Pos}

theorem int {value : Int64} (h : CodeOf slot binders p (.int pos value) code) :
    code = Lir.settle p [.int64 value] := by
  obtain ⟨_, _, hlower, hcode⟩ := h
  rw [Lir.lowerFrom] at hlower
  cases hlower
  exact Lir.generate_int hcode

theorem var {binder : Option Binder}
    (h : CodeOf slot binders p (.var pos binder) code) :
    ∃ b index, binder = some b ∧ binders.idxOf? b = some index ∧
      index ≤ maxAccessIndex ∧ code = Lir.settle p [.access (UInt8.ofNat index)] := by
  obtain ⟨rfl, hfresh, hlower, hcode⟩ := h
  rw [Lir.lowerFrom] at hlower
  split at hlower
  · rename_i origin horigin
    cases hlower
    obtain ⟨b, rfl, horigin⟩ := Option.bind_eq_some_iff.1 horigin
    obtain ⟨index, hindex, hmax, rfl⟩ := Lir.generate_var hcode
    rw [hfresh.idxOf? horigin] at hindex
    exact ⟨b, index, rfl, hindex, hmax, rfl⟩
  · cases hlower

theorem global {symbol : Option Symbol}
    (h : CodeOf slot binders p (.global pos symbol) code) :
    ∃ s i, symbol = some s ∧ slot s = some i ∧
      code = Lir.settle p [.getGlobal (UInt16.ofNat i)] := by
  obtain ⟨_, _, hlower, hcode⟩ := h
  rw [Lir.lowerFrom] at hlower
  split at hlower
  · rename_i s hs
    cases hlower
    obtain ⟨i, hi, rfl⟩ := Lir.generate_global hcode
    exact ⟨s, i, (Option.filter_eq_some_iff.1 hs).1, hi, rfl⟩
  · cases hlower

theorem app {fn arg : Expr} (h : CodeOf slot binders p (.app pos fn arg) code) :
    ∃ argCode fnCode, CodeOf slot binders .value arg argCode ∧
      CodeOf slot binders .head fn fnCode ∧
      code = Lir.closeCall p (argCode ++ .push :: fnCode) := by
  obtain ⟨hscope, hfresh, hlower, hcode⟩ := h
  unfold Lir.lowerFrom at hlower
  split at hlower
  · cases hlower
  · rename_i hfn
    split at hlower
    · cases hlower
    · rename_i harg
      cases hlower
      obtain ⟨argCode, fnCode, hargCode, hfnCode, rfl⟩ := Lir.generate_app hcode
      exact ⟨argCode, fnCode,
        .intro hscope (hfresh.later (Lir.lowerFrom_le fn hfn)) harg hargCode,
        .intro hscope hfresh hfn hfnCode, rfl⟩

/-- A function has its own code in tail position, and around it a closure elsewhere. -/
theorem lam {param : Binder} {body : Expr}
    (h : CodeOf slot binders p (.lam pos param body) code) :
    ∃ bodyCode, CodeOf slot (param :: binders) .tail body bodyCode ∧
      CodeOf slot binders .tail (.lam pos param body) (.grab :: bodyCode) ∧
      Lir.closeOver p (.grab :: bodyCode) = .ok code := by
  obtain ⟨rfl, hfresh, hlower, hcode⟩ := h
  have hsame := hlower
  unfold Lir.lowerFrom at hlower
  split at hlower
  · cases hlower
  · rename_i hbody
    cases hlower
    obtain ⟨bodyCode, hbodyCode, hclose⟩ := Lir.generate_lam hcode
    refine ⟨bodyCode, .intro rfl (hfresh.cons param) hbody hbodyCode,
      .intro rfl hfresh hsame ?_, hclose⟩
    rw [Lir.generate]
    dsimp only
    rw [hbodyCode]
    rfl

theorem letIn {binder : Binder} {value body : Expr}
    (h : CodeOf slot binders p (.letIn pos binder value body) code) :
    ∃ valueCode bodyCode, CodeOf slot binders .value value valueCode ∧
      CodeOf slot (binder :: binders) p.ofBody body bodyCode ∧
      code = valueCode ++ .bind :: bodyCode ++ [.unbind] := by
  obtain ⟨rfl, hfresh, hlower, hcode⟩ := h
  unfold Lir.lowerFrom at hlower
  split at hlower
  · cases hlower
  · rename_i hvalue
    split at hlower
    · cases hlower
    · rename_i hbody
      cases hlower
      obtain ⟨valueCode, bodyCode, hvalueCode, hbodyCode, rfl⟩ := Lir.generate_letIn hcode
      have hlater := hfresh.later (Lir.lowerFrom_le value hvalue)
      exact ⟨valueCode, bodyCode, .intro rfl hfresh hvalue hvalueCode,
        .intro rfl (hlater.cons binder) hbody hbodyCode, rfl⟩

theorem missing : ¬ CodeOf slot binders p .missing code := by
  rintro ⟨_, _, hlower, _⟩
  rw [Lir.lowerFrom] at hlower
  cases hlower

/-- The fields of a tuple are lowered, and then generated, one after the other. -/
theorem fields {declared : Symbol → Bool} {scope : Lir.Scope} (fields : List Expr)
    {next next' : Nat} {done : List Lir} {l : Lir} (hfresh : scope.Fresh next)
    (hlower : Lir.lowerFields declared scope next fields done = .ok (l, next')) :
    ∃ ls, l = .block Lir.tupleKind (done.reverse ++ ls) ∧ ls.length = fields.length ∧
      ∀ trees before code,
        (Lir.generateFields slot (scope.map Prod.snd) ls trees before).2 = .ok code →
        ∃ new, code = before.reverse ++ new ∧
          FieldsCode slot (scope.map Prod.fst) fields new := by
  induction fields generalizing next done with
  | nil =>
      rw [Lir.lowerFields] at hlower
      cases hlower
      refine ⟨[], by simp, rfl, fun trees before code hcode => ⟨[], ?_, .nil⟩⟩
      rw [Lir.generateFields] at hcode
      cases hcode
      simp
  | cons field rest ih =>
      unfold Lir.lowerFields at hlower
      split at hlower
      · cases hlower
      · rename_i l' _ hfield
        obtain ⟨ls, rfl, hlength, hrest⟩ :=
          ih (hfresh.later (Lir.lowerFrom_le field hfield)) hlower
        refine ⟨l' :: ls, by simp, by simp [hlength], ?_⟩
        intro trees before code hcode
        obtain ⟨fieldCode, trees', hfieldCode, hmore⟩ := Lir.generateFields_cons hcode
        obtain ⟨new, rfl, hnew⟩ := hrest _ _ _ hmore
        refine ⟨fieldCode ++ .push :: new, by simp, ?_⟩
        exact .cons (.intro rfl hfresh hfield hfieldCode) hnew

theorem tuple {fields : List Expr}
    (h : CodeOf slot binders p (.tuple pos fields) code) :
    ∃ fieldsCode, fields.length ≤ maxBlockFields ∧
      FieldsCode slot binders fields fieldsCode ∧
      code = Lir.settle p
        (fieldsCode ++ [.makeBlock (UInt16.ofNat fields.length)]) := by
  obtain ⟨rfl, hfresh, hlower, hcode⟩ := h
  rw [Lir.lowerFrom] at hlower
  obtain ⟨ls, rfl, hlength, hfields⟩ := CodeOf.fields fields hfresh hlower
  rw [List.reverse_nil, List.nil_append] at hcode
  obtain ⟨fieldsCode, hmax, hgenerated, rfl⟩ := Lir.generate_block hcode
  obtain ⟨new, hcode, hnew⟩ := hfields _ _ _ hgenerated
  rw [List.reverse_nil, List.nil_append] at hcode
  rw [hlength] at hmax ⊢
  exact ⟨new, hmax, hnew, by rw [hcode]⟩

/-- The function of an application is computed like any other value, unless it is an
application itself. -/
theorem head_cases {e : Expr} (h : CodeOf slot binders .head e code) :
    (∃ pos fn arg, e = .app pos fn arg) ∨ CodeOf slot binders .value e code := by
  obtain ⟨hscope, hfresh, hlower, hcode⟩ := h
  rcases Lir.generate_head hcode with ⟨fn, arg, rfl⟩ | hvalue
  · exact Or.inl ((Lir.lowerFrom_construct hlower).1 fn arg rfl)
  · exact Or.inr (.intro hscope hfresh hlower hvalue)

/-- In tail position a value is computed and returned, but for the constructs that pass
the position on. -/
theorem tail_cases {e : Expr} (h : CodeOf slot binders .tail e code) :
    (∃ pos fn arg, e = .app pos fn arg) ∨ (∃ pos param body, e = .lam pos param body) ∨
      (∃ pos binder value body, e = .letIn pos binder value body) ∨
      ∃ valueCode, CodeOf slot binders .value e valueCode ∧
        code = valueCode ++ [.ret] := by
  obtain ⟨hscope, hfresh, hlower, hcode⟩ := h
  obtain ⟨happ, hlam, hletIn⟩ := Lir.lowerFrom_construct hlower
  rcases Lir.generate_tail hcode with ⟨fn, arg, rfl⟩ | ⟨id, body, rfl⟩ |
    ⟨id, value, body, rfl⟩ | ⟨valueCode, hvalue, rfl⟩
  · exact Or.inl (happ fn arg rfl)
  · exact Or.inr (Or.inl (hlam id body rfl))
  · exact Or.inr (Or.inr (Or.inl (hletIn id value body rfl)))
  · exact Or.inr (Or.inr (Or.inr ⟨valueCode, .intro hscope hfresh hlower hvalue, rfl⟩))

end CodeOf

end Zinc
