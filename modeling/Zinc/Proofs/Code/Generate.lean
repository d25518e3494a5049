import Zinc.Code.Generate

/-!
What successful code generation says: the code of an expression is put together from
the code of its parts.
-/

namespace Zinc.Lir

variable {slot : Symbol → Option Nat} {scope : List Nat} {p : Position}
  {code : List Instr}

theorem exists_of_map_eq_ok {α β : Type} {f : α → β} {r : Except Fault α} {b : β}
    (h : r.map f = .ok b) : ∃ a, r = .ok a ∧ b = f a := by
  cases r with
  | error e => cases h
  | ok a =>
      cases h
      exact ⟨a, rfl, rfl⟩

theorem generate_int {value : Int64}
    (h : (generate slot scope p (.int value)).code = .ok code) :
    code = settle p [.int64 value] := by
  rw [generate] at h
  cases h
  rfl

theorem generate_var {origin depth : Nat}
    (h : (generate slot scope p (.var origin depth)).code = .ok code) :
    ∃ index, scope.idxOf? origin = some index ∧ index ≤ maxAccessIndex ∧
      code = settle p [.access (UInt8.ofNat index)] := by
  rw [generate] at h
  split at h
  · cases h
  · rename_i index hindex
    split at h
    · cases h
    · rename_i hmax
      cases h
      exact ⟨index, hindex, Nat.le_of_not_lt hmax, rfl⟩

theorem generate_global {symbol : Symbol}
    (h : (generate slot scope p (.global symbol)).code = .ok code) :
    ∃ i, slot symbol = some i ∧ code = settle p [.getGlobal (UInt16.ofNat i)] := by
  rw [generate] at h
  split at h
  · cases h
  · rename_i i hi
    cases h
    exact ⟨i, hi, rfl⟩

theorem generate_app {fn arg : Lir}
    (h : (generate slot scope p (.app fn arg)).code = .ok code) :
    ∃ argCode fnCode, (generate slot scope .value arg).code = .ok argCode ∧
      (generate slot scope .head fn).code = .ok fnCode ∧
      code = closeCall p (argCode ++ .push :: fnCode) := by
  rw [generate] at h
  dsimp only at h
  split at h
  · cases h
  · rename_i argCode harg
    obtain ⟨fnCode, hfn, rfl⟩ := exists_of_map_eq_ok h
    exact ⟨argCode, fnCode, harg, hfn, rfl⟩

theorem generate_lam {id : Nat} {body : Lir}
    (h : (generate slot scope p (.lam id body)).code = .ok code) :
    ∃ bodyCode, (generate slot (id :: scope) .tail body).code = .ok bodyCode ∧
      closeOver p (.grab :: bodyCode) = .ok code := by
  rw [generate] at h
  dsimp only at h
  cases hbody : (generate slot (id :: scope) .tail body).code with
  | error f => simp [hbody, Except.bind] at h
  | ok bodyCode =>
      simp only [hbody, Except.bind] at h
      exact ⟨bodyCode, rfl, h⟩

/-- Out of tail position a function becomes a closure around its code. -/
theorem closeOver_value {body : List Instr} (h : closeOver .value body = .ok code) :
    ∃ length : UInt16, length.toNat = Instr.sizeAll body ∧
      code = .closure length :: body := by
  unfold closeOver at h
  dsimp only at h
  split at h
  · cases h
  · rename_i hlength
    cases h
    refine ⟨_, ?_, rfl⟩
    rw [maxBodyLength] at hlength
    rw [UInt16.toNat_ofNat', Nat.mod_eq_of_lt (by omega)]

theorem generate_letIn_eq (id : Nat) (value body : Lir) :
    generate slot scope p (.letIn id value body) =
      match (generate slot scope .value value).code with
      | .error f => ⟨.letIn id (generate slot scope .value value).tree body, .error f⟩
      | .ok valueCode =>
        ⟨.letIn id (generate slot scope .value value).tree
            (generate slot (id :: scope) p.ofBody body).tree,
          (generate slot (id :: scope) p.ofBody body).code.map fun code =>
            valueCode ++ .bind :: code ++ [.unbind]⟩ := by
  cases p <;> rfl

theorem generate_letIn {id : Nat} {value body : Lir}
    (h : (generate slot scope p (.letIn id value body)).code = .ok code) :
    ∃ valueCode bodyCode,
      (generate slot scope .value value).code = .ok valueCode ∧
      (generate slot (id :: scope) p.ofBody body).code = .ok bodyCode ∧
      code = valueCode ++ .bind :: bodyCode ++ [.unbind] := by
  cases p
  all_goals
    unfold generate at h
    dsimp only at h
    split at h
    · cases h
    · rename_i valueCode hvalue
      obtain ⟨bodyCode, hbody, rfl⟩ := exists_of_map_eq_ok h
      exact ⟨valueCode, bodyCode, hvalue, hbody, rfl⟩

theorem generate_block {kind : UInt8} {fields : List Lir}
    (h : (generate slot scope p (.block kind fields)).code = .ok code) :
    ∃ fieldsCode, fields.length ≤ maxBlockFields ∧
      (generateFields slot scope fields [] []).2 = .ok fieldsCode ∧
      code = settle p
        (fieldsCode ++ [.makeBlock (UInt16.ofNat fields.length)]) := by
  rw [generate] at h
  split at h
  · cases h
  · rename_i hmax
    dsimp only at h
    obtain ⟨fieldsCode, hfields, rfl⟩ := exists_of_map_eq_ok h
    exact ⟨fieldsCode, Nat.le_of_not_lt hmax, hfields, rfl⟩

theorem generate_missing : (generate slot scope p .missing).code ≠ .ok code := by
  rw [generate]
  intro h
  cases h

/-- The head of an application is computed like any other value, unless it is an
application itself. -/
theorem generate_head {l : Lir} (h : (generate slot scope .head l).code = .ok code) :
    (∃ fn arg, l = .app fn arg) ∨ (generate slot scope .value l).code = .ok code := by
  cases l with
  | app fn arg => exact Or.inl ⟨fn, arg, rfl⟩
  | _ =>
      unfold generate at h ⊢
      exact Or.inr h

/-- In tail position a value is computed and returned, but for the constructs that pass
the position on. -/
theorem generate_tail {l : Lir} (h : (generate slot scope .tail l).code = .ok code) :
    (∃ fn arg, l = .app fn arg) ∨ (∃ id body, l = .lam id body) ∨
      (∃ id value body, l = .letIn id value body) ∨
      ∃ valueCode, (generate slot scope .value l).code = .ok valueCode ∧
        code = valueCode ++ [.ret] := by
  cases l with
  | app fn arg => exact Or.inl ⟨fn, arg, rfl⟩
  | lam id body => exact Or.inr (Or.inl ⟨id, body, rfl⟩)
  | letIn id value body => exact Or.inr (Or.inr (Or.inl ⟨id, value, body, rfl⟩))
  | int value =>
      obtain rfl := generate_int h
      exact Or.inr (Or.inr (Or.inr ⟨_, by rw [generate]; rfl, rfl⟩))
  | var origin depth =>
      obtain ⟨index, hindex, hmax, rfl⟩ := generate_var h
      refine Or.inr (Or.inr (Or.inr ⟨_, ?_, rfl⟩))
      rw [generate, hindex]
      exact congrArg Generated.code (if_neg (Nat.not_lt.2 hmax))
  | global symbol =>
      obtain ⟨i, hi, rfl⟩ := generate_global h
      refine Or.inr (Or.inr (Or.inr ⟨_, ?_, rfl⟩))
      rw [generate, hi]
      rfl
  | block kind fields =>
      obtain ⟨fieldsCode, hmax, hfields, rfl⟩ := generate_block h
      refine Or.inr (Or.inr (Or.inr ⟨_, ?_, rfl⟩))
      rw [generate, if_neg (Nat.not_lt.2 hmax)]
      dsimp only
      rw [hfields]
      rfl
  | missing => exact absurd h generate_missing

/-- The code of fields: after the code so far comes that of the first field with a push,
then that of the others. -/
theorem generateFields_cons {field : Lir} {rest done : List Lir}
    {before : List Instr}
    (h : (generateFields slot scope (field :: rest) done before).2 = .ok code) :
    ∃ fieldCode done', (generate slot scope .value field).code = .ok fieldCode ∧
      (generateFields slot scope rest done'
        (.push :: fieldCode.reverse ++ before)).2 = .ok code := by
  rw [generateFields] at h
  split at h
  · cases h
  · rename_i fieldCode hfield
    rw [List.reverseAux_eq] at h
    exact ⟨fieldCode, _, hfield, h⟩

theorem generateEntry_eq_ok {e : Lir}
    (h : (generateEntry slot e).code = .ok code) :
    ∃ valueCode, (generate slot [] .value e).code = .ok valueCode ∧
      code = valueCode ++ [.ret] :=
  exists_of_map_eq_ok h

theorem generateDefinition_eq_ok {s : Symbol} {e : Lir}
    (h : (generateDefinition slot s e).code = .ok code) :
    ∃ i valueCode, slot s = some i ∧
      (generate slot [] .value e).code = .ok valueCode ∧
      code = valueCode ++ [.setGlobal (UInt16.ofNat i), .ret] := by
  rw [generateDefinition] at h
  split at h
  · cases h
  · rename_i i hi
    obtain ⟨valueCode, hcode, rfl⟩ := exists_of_map_eq_ok h
    exact ⟨i, valueCode, hi, hcode, rfl⟩

end Zinc.Lir
