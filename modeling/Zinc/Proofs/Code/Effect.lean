import Zinc.Proofs.Code.Generate
import Zinc.Proofs.Code.Layout

/-!
Which global a piece of code assigns.  Generated code assigns none, and neither do the
closures that it builds; only the code of a definition does, right before it returns, when
all of its expression has been computed.  So an instruction that assigns is reached from the
entry of a definition alone.
-/

namespace Zinc

/-- An instruction that assigns nothing and goes on with the one after it, and that a
definition may have at its top level. -/
def Instr.goesOn : Instr → Bool
  | .setGlobal _ | .closure _ | .grab | .ret | .appTerm => false
  | _ => true

/-- Code that assigns the global in the given slot before it leaves the current call, or no
global at all.  The closures that it builds assign none. -/
inductive Effect : Option UInt16 → List Instr → Prop where
  | goesOn {w : Option UInt16} {i : Instr} {is : List Instr} :
      i.goesOn = true → Effect w is → Effect w (i :: is)
  | closure {w : Option UInt16} {body rest : List Instr} {length : UInt16} :
      length.toNat = Instr.sizeAll body → Effect none (body ++ rest) → Effect w rest →
      Effect w (.closure length :: (body ++ rest))
  | grab {is : List Instr} : Effect none is → Effect none (.grab :: is)
  | leaving {i : Instr} {is : List Instr} :
      i = .ret ∨ i = .appTerm → Effect none (i :: is)
  | assigns {slot : UInt16} {is : List Instr} :
      Effect (some slot) (.setGlobal slot :: .ret :: is)

/-- Code that assigns nothing and goes on with what follows it. -/
def Quiet (code : List Instr) : Prop :=
  ∀ w rest, Effect w rest → Effect w (code ++ rest)

/-- What the code of an expression assigns, by position: nothing, and in tail position it
leaves the current call. -/
def Affects : Position → List Instr → Prop
  | .tail, code => ∀ rest, Effect none (code ++ rest)
  | _, code => Quiet code

namespace Lir

variable {slot : Symbol → Option Nat} {p : Position} {code : List Instr}

theorem affects_settle (h : Quiet code) (p : Position) : Affects p (settle p code) := by
  cases p with
  | value => exact h
  | head => exact h
  | tail =>
      intro rest
      rw [settle, List.append_assoc]
      exact h _ _ (.leaving (.inl rfl))

theorem affects_closeOver {body : List Instr} (hbody : Affects .tail body)
    (hcode : closeOver p (.grab :: body) = .ok code) : Affects p code := by
  have hquiet (hclose : closeOver .value (.grab :: body) = .ok code) : Quiet code := by
    obtain ⟨length, hlength, rfl⟩ := closeOver_value hclose
    exact fun w rest hrest => .closure hlength (.grab (hbody rest)) hrest
  cases p with
  | value => exact hquiet hcode
  | head => exact hquiet hcode
  | tail =>
      cases hcode
      exact fun rest => .grab (hbody rest)

theorem affects_closeCall {spine : List Instr} (h : Quiet spine) (p : Position) :
    Affects p (closeCall p spine) := by
  cases p with
  | value =>
      intro w rest hrest
      rw [closeCall, List.cons_append, List.cons_append, List.append_assoc]
      refine .goesOn rfl (h _ _ ?_)
      exact .goesOn rfl hrest
  | head => exact h
  | tail =>
      intro rest
      rw [closeCall, List.append_assoc]
      exact h _ _ (.leaving (.inr rfl))

theorem quiet_push {argument spine : List Instr} (harg : Quiet argument)
    (hspine : Quiet spine) : Quiet (argument ++ .push :: spine) := by
  intro w rest hrest
  rw [List.append_assoc]
  apply harg
  exact .goesOn rfl (hspine w rest hrest)

theorem affects_letIn {value body : List Instr} (hvalue : Quiet value)
    (hbody : Affects p.ofBody body) : Affects p (value ++ .bind :: body ++ [.unbind]) := by
  have hquiet (hbody : Quiet body) : Quiet (value ++ .bind :: body ++ [.unbind]) := by
    intro w rest hrest
    rw [List.append_assoc, List.append_assoc]
    apply hvalue
    refine .goesOn rfl (hbody _ _ ?_)
    exact .goesOn rfl hrest
  cases p with
  | value => exact hquiet hbody
  | head => exact hquiet hbody
  | tail =>
      intro rest
      rw [List.append_assoc, List.append_assoc]
      apply hvalue
      exact .goesOn rfl (hbody _)

mutual

/-- Generated code assigns nothing. -/
theorem generate_affects : (e : Lir) → (scope : List Nat) → (p : Position) →
    (code : List Instr) → (generate slot scope p e).code = .ok code → Affects p code
  | .int value, scope, p, code, h => by
      rw [generate_int h]
      exact affects_settle (fun _ _ => .goesOn rfl) p
  | .var origin depth, scope, p, code, h => by
      obtain ⟨index, hindex, hmax, rfl⟩ := generate_var h
      exact affects_settle (fun _ _ => .goesOn rfl) p
  | .global symbol, scope, p, code, h => by
      obtain ⟨i, hi, rfl⟩ := generate_global h
      exact affects_settle (fun _ _ => .goesOn rfl) p
  | .app fn arg, scope, p, code, h => by
      obtain ⟨argCode, fnCode, harg, hfn, rfl⟩ := generate_app h
      have hfn : Quiet fnCode := generate_affects fn scope .head fnCode hfn
      have harg : Quiet argCode := generate_affects arg scope .value argCode harg
      exact affects_closeCall (quiet_push harg hfn) p
  | .lam id body, scope, p, code, h => by
      obtain ⟨bodyCode, hbody, hclose⟩ := generate_lam h
      exact affects_closeOver (generate_affects body _ .tail bodyCode hbody) hclose
  | .letIn id value body, scope, p, code, h => by
      obtain ⟨valueCode, bodyCode, hvalue, hbody, rfl⟩ := generate_letIn h
      exact affects_letIn (generate_affects value scope .value valueCode hvalue)
        (generate_affects body _ p.ofBody bodyCode hbody)
  | .block kind fields, scope, p, code, h => by
      obtain ⟨fieldsCode, hmax, hfields, rfl⟩ := generate_block h
      obtain ⟨new, rfl, hnew⟩ := generateFields_quiet fields scope [] [] fieldsCode hfields
      refine affects_settle (fun w rest hrest => ?_) p
      rw [List.append_assoc]
      exact hnew _ _ (.goesOn rfl hrest)
  | .missing, scope, p, code, h => absurd h generate_missing

theorem generateFields_quiet : (fields : List Lir) → (scope : List Nat) →
    (done : List Lir) → (before code : List Instr) →
      (generateFields slot scope fields done before).2 = .ok code →
        ∃ new, code = before.reverse ++ new ∧ Quiet new
  | [], scope, done, before, code, h => by
      rw [generateFields] at h
      cases h
      exact ⟨[], by simp, fun _ _ hrest => hrest⟩
  | field :: rest, scope, done, before, code, h => by
      obtain ⟨fieldCode, done', hfield, hrest⟩ := generateFields_cons h
      obtain ⟨new, rfl, hnew⟩ := generateFields_quiet rest scope done' _ code hrest
      refine ⟨fieldCode ++ .push :: new, by simp, ?_⟩
      exact quiet_push (generate_affects field scope .value fieldCode hfield) hnew

end

/-- The code of an expression that is run on its own assigns nothing. -/
theorem generateEntry_effect {e : Lir} (h : (generateEntry slot e).code = .ok code) :
    Effect none code := by
  obtain ⟨valueCode, hvalue, rfl⟩ := generateEntry_eq_ok h
  have hquiet : Quiet valueCode := generate_affects e [] .value valueCode hvalue
  exact hquiet _ _ (.leaving (.inl rfl))

/-- The code of a definition assigns its global. -/
theorem generateDefinition_effect {s : Symbol} {e : Lir}
    (h : (generateDefinition slot s e).code = .ok code) :
    ∃ i, slot s = some i ∧ Effect (some (UInt16.ofNat i)) code := by
  obtain ⟨i, valueCode, hi, hvalue, rfl⟩ := generateDefinition_eq_ok h
  have hquiet : Quiet valueCode := generate_affects e [] .value valueCode hvalue
  exact ⟨i, hi, hquiet _ _ .assigns⟩

end Lir

namespace Code

/-- The code at `pc` assigns the given global before it leaves the current call, or none. -/
def Acts (c : Code) (w : Option UInt16) (pc : Int) : Prop :=
  ∃ is, c.At pc is ∧ Effect w is

namespace Acts

variable {c c' : Code} {w : Option UInt16} {pc : Int} {i : Instr}

theorem mono (h : c.Acts w pc) (hlonger : c.bytes.toList <+: c'.bytes.toList) :
    c'.Acts w pc := by
  obtain ⟨is, hat, heffect⟩ := h
  exact ⟨is, hat.mono hlonger, heffect⟩

/-- The instruction that the machine reads is the first one of the code. -/
theorem exists_cons (h : c.Acts w pc) (hfetch : c.fetch pc = .instr i) :
    ∃ is, c.At pc (i :: is) ∧ Effect w (i :: is) := by
  obtain ⟨is, hat, heffect⟩ := h
  obtain ⟨j, js, rfl⟩ : ∃ j js, is = j :: js := by cases heffect <;> exact ⟨_, _, rfl⟩
  rw [hat.fetch] at hfetch
  cases hfetch
  exact ⟨js, hat, heffect⟩

theorem next (h : c.Acts w pc) (hfetch : c.fetch pc = .instr i) (hi : i.goesOn = true) :
    c.Acts w (pc + i.size) := by
  obtain ⟨is, hat, heffect⟩ := h.exists_cons hfetch
  cases heffect with
  | goesOn _ hrest => exact ⟨is, hat.next, hrest⟩
  | leaving hleaving => rcases hleaving with rfl | rfl <;> cases hi
  | _ => cases hi

/-- The body of a closure assigns nothing. -/
theorem closure {length : UInt16} (h : c.Acts w pc)
    (hfetch : c.fetch pc = .instr (.closure length)) :
    c.Acts none (pc + (Instr.closure length).size) ∧
      c.Acts w (pc + (Instr.closure length).size + length.toNat) := by
  obtain ⟨is, hat, heffect⟩ := h.exists_cons hfetch
  cases heffect with
  | closure hlength hbody hrest =>
      have hskip := hat.next.skip
      rw [← hlength] at hskip
      exact ⟨⟨_, hat.next, hbody⟩, _, hskip, hrest⟩
  | goesOn hi _ => cases hi
  | leaving hleaving => simp at hleaving

theorem grab (h : c.Acts w pc) (hfetch : c.fetch pc = .instr .grab) :
    w = none ∧ c.Acts none (pc + Instr.grab.size) := by
  obtain ⟨is, hat, heffect⟩ := h.exists_cons hfetch
  cases heffect with
  | grab hrest => exact ⟨rfl, is, hat.next, hrest⟩
  | goesOn hi _ => cases hi
  | leaving hleaving => simp at hleaving

/-- Code that assigns something does not leave the call before. -/
theorem leaving (h : c.Acts w pc) (hfetch : c.fetch pc = .instr i)
    (hi : i = .ret ∨ i = .appTerm) : w = none := by
  obtain ⟨is, _, heffect⟩ := h.exists_cons hfetch
  cases heffect with
  | leaving _ => rfl
  | goesOn hgoes _ => rcases hi with rfl | rfl <;> cases hgoes
  | _ => simp at hi

/-- An assignment is the one that the code is to make, and a return comes next. -/
theorem assigns {slot : UInt16} (h : c.Acts w pc)
    (hfetch : c.fetch pc = .instr (.setGlobal slot)) :
    w = some slot ∧ c.fetch (pc + (Instr.setGlobal slot).size) = .instr .ret ∧
      c.Acts none (pc + (Instr.setGlobal slot).size) := by
  obtain ⟨is, hat, heffect⟩ := h.exists_cons hfetch
  cases heffect with
  | assigns => exact ⟨rfl, hat.next.fetch, _, hat.next, .leaving (.inl rfl)⟩
  | goesOn hi _ => cases hi
  | leaving hleaving => simp at hleaving

end Acts

end Code

end Zinc
