import Zinc.Proofs.Code.Generate
import Zinc.Proofs.Code.Layout

/-!
A discipline for code.  It says of each place in the code what the machine has there:
how many locals, how many of them were bound by `let` since the last argument was taken,
whether the accumulator holds a value, and what has been pushed since the current call
began.  Generated code keeps to the discipline.
-/

namespace Zinc

/-- What can be on the argument stack above the arguments of the current call. -/
inductive Slot where
  | value
  | mark
deriving DecidableEq, Repr

/-- Code that can be run with `locals` locals, the last `lets` of which were bound by
`let` in the current call, a value in the accumulator if `loaded`, and `pending` on top
of the arguments of the call.  What follows a return or a call in tail position is
never run. -/
inductive Disciplined (slots : Nat) :
    Nat → Nat → Bool → List Slot → List Instr → Prop where
  | int64 {locals lets loaded pending is value} :
      Disciplined slots locals lets true pending is →
      Disciplined slots locals lets loaded pending (.int64 value :: is)
  | access {locals lets loaded pending is} {index : UInt8} :
      index.toNat < locals →
      Disciplined slots locals lets true pending is →
      Disciplined slots locals lets loaded pending (.access index :: is)
  | getGlobal {locals lets loaded pending is} {slot : UInt16} :
      slot.toNat < slots →
      Disciplined slots locals lets true pending is →
      Disciplined slots locals lets loaded pending (.getGlobal slot :: is)
  | setGlobal {locals lets pending is} {slot : UInt16} :
      slot.toNat < slots →
      Disciplined slots locals lets true pending is →
      Disciplined slots locals lets true pending (.setGlobal slot :: is)
  | push {locals lets pending is} :
      Disciplined slots locals lets true (.value :: pending) is →
      Disciplined slots locals lets true pending (.push :: is)
  | pushMark {locals lets loaded pending is} :
      Disciplined slots locals lets loaded (.mark :: pending) is →
      Disciplined slots locals lets loaded pending (.pushMark :: is)
  | closure {locals lets loaded pending body rest} {length : UInt16} :
      length.toNat = Instr.sizeAll body →
      Disciplined slots locals 0 false [] (body ++ rest) →
      Disciplined slots locals lets true pending rest →
      Disciplined slots locals lets loaded pending (.closure length :: (body ++ rest))
  | apply {locals lets count pending is} :
      Disciplined slots locals lets true pending is →
      Disciplined slots locals lets true
        (List.replicate count .value ++ .mark :: pending) (.apply :: is)
  | appTerm {locals lets count is} :
      Disciplined slots locals lets true (List.replicate count .value) (.appTerm :: is)
  | grab {locals lets loaded is} :
      Disciplined slots (locals + 1) 0 false [] is →
      Disciplined slots locals lets loaded [] (.grab :: is)
  | ret {locals lets is} :
      Disciplined slots locals lets true [] (.ret :: is)
  | makeBlock {locals lets loaded pending is} {size : UInt16} :
      Disciplined slots locals lets true pending is →
      Disciplined slots locals lets loaded
        (List.replicate size.toNat .value ++ pending) (.makeBlock size :: is)
  | bind {locals lets pending is} :
      Disciplined slots (locals + 1) (lets + 1) true pending is →
      Disciplined slots locals lets true pending (.bind :: is)
  | unbind {locals lets loaded pending is} :
      Disciplined slots locals lets loaded pending is →
      Disciplined slots (locals + 1) (lets + 1) loaded pending (.unbind :: is)

/-- Disciplined code does not run off its end. -/
theorem Disciplined.exists_cons {slots locals lets : Nat} {loaded : Bool}
    {pending : List Slot} {is : List Instr}
    (h : Disciplined slots locals lets loaded pending is) :
    ∃ i rest, is = i :: rest := by
  cases h <;> exact ⟨_, _, rfl⟩

/-- More globals do no harm. -/
theorem Disciplined.mono {slots slots' locals lets : Nat} {loaded : Bool}
    {pending : List Slot} {is : List Instr}
    (h : Disciplined slots locals lets loaded pending is) (hle : slots ≤ slots') :
    Disciplined slots' locals lets loaded pending is := by
  induction h with
  | int64 _ ih => exact .int64 ih
  | access hindex _ ih => exact .access hindex ih
  | getGlobal hslot _ ih => exact .getGlobal (Nat.lt_of_lt_of_le hslot hle) ih
  | setGlobal hslot _ ih => exact .setGlobal (Nat.lt_of_lt_of_le hslot hle) ih
  | push _ ih => exact .push ih
  | pushMark _ ih => exact .pushMark ih
  | closure hlength _ _ ihbody ihrest => exact .closure hlength ihbody ihrest
  | apply _ ih => exact .apply ih
  | appTerm => exact .appTerm
  | grab _ ih => exact .grab ih
  | ret => exact .ret
  | makeBlock _ ih => exact .makeBlock ih
  | bind _ ih => exact .bind ih
  | unbind _ ih => exact .unbind ih

/-- Code that loads a value and changes nothing else. -/
def Loads (slots locals : Nat) (code : List Instr) : Prop :=
  ∀ (lets : Nat) (loaded : Bool) (pending : List Slot) (rest : List Instr),
    Disciplined slots locals lets true pending rest →
      Disciplined slots locals lets loaded pending (code ++ rest)

/-- What the code of an expression does, by position: it loads a value, it pushes
arguments and loads a function, or it leaves the current call. -/
def Yields (slots locals : Nat) : Position → List Instr → Prop
  | .value, code => Loads slots locals code
  | .head, code => ∃ count, ∀ (lets : Nat) (loaded : Bool) (pending : List Slot)
      (rest : List Instr),
      Disciplined slots locals lets true (List.replicate count .value ++ pending) rest →
        Disciplined slots locals lets loaded pending (code ++ rest)
  | .tail, code => ∀ (lets : Nat) (loaded : Bool) (rest : List Instr),
      Disciplined slots locals lets loaded [] (code ++ rest)

namespace Lir

variable {slots : Nat} {slot : Symbol → Option Nat}

theorem yields_settle {locals : Nat} {code : List Instr} (h : Loads slots locals code)
    (p : Position) : Yields slots locals p (settle p code) := by
  cases p with
  | value => exact h
  | head => exact ⟨0, h⟩
  | tail =>
      intro lets loaded rest
      rw [settle, List.append_assoc]
      exact h lets loaded [] _ .ret

theorem yields_closeOver {locals : Nat} {body code : List Instr}
    (h : Yields slots (locals + 1) .tail body) (p : Position)
    (hcode : closeOver p (.grab :: body) = .ok code) : Yields slots locals p code := by
  have hgrab (lets : Nat) (loaded : Bool) (rest : List Instr) :
      Disciplined slots locals lets loaded [] (.grab :: body ++ rest) :=
    .grab (h 0 false rest)
  have hloads (hclose : closeOver .value (.grab :: body) = .ok code) :
      Loads slots locals code := by
    obtain ⟨length, hlength, rfl⟩ := closeOver_value hclose
    exact fun lets loaded pending rest hrest =>
      .closure hlength (hgrab 0 false rest) hrest
  cases p with
  | value => exact hloads hcode
  | head => exact ⟨0, hloads hcode⟩
  | tail =>
      cases hcode
      exact hgrab

theorem yields_closeCall {locals : Nat} {spine : List Instr}
    (h : Yields slots locals .head spine) (p : Position) :
    Yields slots locals p (closeCall p spine) := by
  obtain ⟨count, hspine⟩ := h
  cases p with
  | value =>
      intro lets loaded pending rest hrest
      rw [closeCall, List.cons_append, List.cons_append, List.append_assoc]
      exact .pushMark (hspine lets loaded (.mark :: pending) _ (.apply hrest))
  | head => exact ⟨count, hspine⟩
  | tail =>
      intro lets loaded rest
      rw [closeCall, List.append_assoc]
      apply hspine
      rw [List.append_nil]
      exact .appTerm

theorem yields_argument {locals : Nat} {argument spine : List Instr}
    (harg : Loads slots locals argument) (h : Yields slots locals .head spine) :
    Yields slots locals .head (argument ++ .push :: spine) := by
  obtain ⟨count, hspine⟩ := h
  refine ⟨count + 1, fun lets loaded pending rest hrest => ?_⟩
  rw [List.append_assoc]
  apply harg
  refine .push (hspine lets true (.value :: pending) rest ?_)
  rwa [List.replicate_succ', List.append_assoc] at hrest

theorem yields_letIn {locals : Nat} {value body : List Instr}
    (hvalue : Loads slots locals value) (p : Position)
    (hbody : Yields slots (locals + 1) p.ofBody body) :
    Yields slots locals p (value ++ .bind :: body ++ [.unbind]) := by
  have hloads (hinner : Loads slots (locals + 1) body) :
      Loads slots locals (value ++ .bind :: body ++ [.unbind]) := by
    intro lets loaded pending rest hrest
    rw [List.append_assoc, List.append_assoc]
    apply hvalue
    refine .bind ?_
    rw [List.append_eq]
    exact hinner _ _ _ _ (.unbind hrest)
  cases p with
  | value => exact hloads hbody
  | head => exact ⟨0, hloads hbody⟩
  | tail =>
      intro lets loaded rest
      rw [List.append_assoc, List.append_assoc]
      apply hvalue
      exact .bind (hbody _ _ _)

theorem loads_access {locals index : Nat} (hindex : index < locals)
    (hmax : index ≤ maxAccessIndex) :
    Loads slots locals [.access (UInt8.ofNat index)] := by
  intro lets loaded pending rest hrest
  refine .access ?_ hrest
  rw [maxAccessIndex] at hmax
  rw [UInt8.toNat_ofNat', Nat.mod_eq_of_lt (by omega)]
  exact hindex

/-- The slots of the globals exist and can be named by an instruction. -/
def Addresses (slots : Nat) (slot : Symbol → Option Nat) : Prop :=
  ∀ s i, slot s = some i → i < slots ∧ i ≤ maxGlobalSlot

theorem Addresses.toNat (hslot : Addresses slots slot) {s : Symbol} {i : Nat}
    (hi : slot s = some i) : (UInt16.ofNat i).toNat < slots := by
  obtain ⟨hlt, hmax⟩ := hslot s i hi
  rw [maxGlobalSlot] at hmax
  rw [UInt16.toNat_ofNat', Nat.mod_eq_of_lt (by omega)]
  exact hlt

/-- Fields are computed and pushed one after the other. -/
def Pushes (slots locals count : Nat) (code : List Instr) : Prop :=
  ∀ (lets : Nat) (loaded : Bool) (pending : List Slot) (rest : List Instr),
    (∀ loaded, Disciplined slots locals lets loaded
      (List.replicate count .value ++ pending) rest) →
    Disciplined slots locals lets loaded pending (code ++ rest)

theorem Pushes.cons {locals count : Nat} {field rest : List Instr}
    (hfield : Loads slots locals field) (hrest : Pushes slots locals count rest) :
    Pushes slots locals (count + 1) (field ++ .push :: rest) := by
  intro lets loaded pending after hafter
  rw [List.append_assoc]
  apply hfield
  refine .push (hrest lets true (.value :: pending) after fun loaded => ?_)
  have hpushed := hafter loaded
  rwa [List.replicate_succ', List.append_assoc] at hpushed

theorem Pushes.makeBlock {locals count : Nat} {code : List Instr}
    (h : Pushes slots locals count code) (hmax : count ≤ maxBlockFields) :
    Loads slots locals (code ++ [.makeBlock (UInt16.ofNat count)]) := by
  intro lets loaded pending rest hrest
  have hcount : (UInt16.ofNat count).toNat = count := by
    rw [maxBlockFields] at hmax
    rw [UInt16.toNat_ofNat', Nat.mod_eq_of_lt (by omega)]
  rw [List.append_assoc]
  apply h
  intro loaded
  have hblock : Disciplined slots locals lets loaded
      (List.replicate (UInt16.ofNat count).toNat .value ++ pending)
      (.makeBlock (UInt16.ofNat count) :: rest) := .makeBlock hrest
  rwa [hcount] at hblock

mutual

/-- Generated code keeps to the discipline. -/
theorem generate_yields (hslot : Addresses slots slot) : (e : Lir) →
    (scope : List Nat) → (p : Position) → (code : List Instr) →
      (generate slot scope p e).code = .ok code → Yields slots scope.length p code
  | .int value, scope, p, code, h => by
      rw [generate_int h]
      exact yields_settle (fun _ _ _ _ hrest => .int64 hrest) p
  | .var origin depth, scope, p, code, h => by
      obtain ⟨index, hindex, hmax, rfl⟩ := generate_var h
      have hlt := (List.idxOf?_eq_some_iff.1 hindex).1
      exact yields_settle (loads_access hlt hmax) p
  | .global symbol, scope, p, code, h => by
      obtain ⟨i, hi, rfl⟩ := generate_global h
      exact yields_settle (fun _ _ _ _ hrest => .getGlobal (hslot.toNat hi) hrest) p
  | .app fn arg, scope, p, code, h => by
      obtain ⟨argCode, fnCode, harg, hfn, rfl⟩ := generate_app h
      have hspine := yields_argument
        (generate_yields hslot arg scope .value argCode harg)
        (generate_yields hslot fn scope .head fnCode hfn)
      exact yields_closeCall hspine p
  | .lam id body, scope, p, code, h => by
      obtain ⟨bodyCode, hbody, hclose⟩ := generate_lam h
      have hyields := generate_yields hslot body (id :: scope) .tail bodyCode hbody
      exact yields_closeOver hyields p hclose
  | .letIn id value body, scope, p, code, h => by
      obtain ⟨valueCode, bodyCode, hvalue, hbody, rfl⟩ := generate_letIn h
      exact yields_letIn (generate_yields hslot value scope .value valueCode hvalue) p
        (generate_yields hslot body (id :: scope) p.ofBody bodyCode hbody)
  | .block kind fields, scope, p, code, h => by
      obtain ⟨fieldsCode, hmax, hfields, rfl⟩ := generate_block h
      obtain ⟨new, rfl, hnew⟩ :=
        generateFields_pushes hslot fields scope [] [] fieldsCode hfields
      exact yields_settle (hnew.makeBlock hmax) p
  | .missing, scope, p, code, h => absurd h generate_missing

theorem generateFields_pushes (hslot : Addresses slots slot) : (fields : List Lir) →
    (scope : List Nat) → (done : List Lir) → (before code : List Instr) →
      (generateFields slot scope fields done before).2 = .ok code →
        ∃ new, code = before.reverse ++ new ∧
          Pushes slots scope.length fields.length new
  | [], scope, done, before, code, h => by
      rw [generateFields] at h
      cases h
      exact ⟨[], by simp, fun _ loaded _ _ hrest => hrest loaded⟩
  | field :: rest, scope, done, before, code, h => by
      obtain ⟨fieldCode, done', hfield, hrest⟩ := generateFields_cons h
      obtain ⟨new, rfl, hnew⟩ :=
        generateFields_pushes hslot rest scope done' _ code hrest
      refine ⟨fieldCode ++ .push :: new, by simp, ?_⟩
      exact .cons (generate_yields hslot field scope .value fieldCode hfield) hnew

end

/-- The code of an expression that is run on its own. -/
theorem generateEntry_disciplined (hslot : Addresses slots slot) {e : Lir}
    {code : List Instr} (h : (generateEntry slot e).code = .ok code) :
    Disciplined slots 0 0 false [] code := by
  obtain ⟨valueCode, hcode, rfl⟩ := generateEntry_eq_ok h
  have hyields := generate_yields hslot e [] .value valueCode hcode
  exact hyields 0 false [] _ .ret

/-- The code that assigns a global. -/
theorem generateDefinition_disciplined (hslot : Addresses slots slot) {s : Symbol}
    {e : Lir} {code : List Instr} (h : (generateDefinition slot s e).code = .ok code) :
    Disciplined slots 0 0 false [] code := by
  obtain ⟨i, valueCode, hi, hcode, rfl⟩ := generateDefinition_eq_ok h
  have hyields := generate_yields hslot e [] .value valueCode hcode
  exact hyields 0 false [] _ (.setGlobal (hslot.toNat hi) .ret)

end Lir

end Zinc
