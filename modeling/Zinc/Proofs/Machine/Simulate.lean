import Zinc.Proofs.Code.Discipline
import Zinc.Proofs.Machine.Advance
import Zinc.Proofs.Machine.Meets
import Zinc.Proofs.Machine.Represents

/-!
Code does what its expression means.  In value position it loads what the expression
evaluates to and changes nothing else.  In tail position it hands the value to whatever
waits for it: the caller, or the arguments that are left on the stack.  An application
pushes all its arguments before it calls its function, so the function gets one argument
after the other without a closure in between.
-/

namespace Zinc

theorem Env.lookup?_of_idxOf? {env : Env} {b : Binder} {i : Nat}
    (hi : (env.map Prod.fst).idxOf? b = some i) :
    ∃ d, env[i]? = some (b, d) ∧ env.lookup? b = some d := by
  induction env generalizing i with
  | nil => simp at hi
  | cons entry rest ih =>
      obtain ⟨first, d⟩ := entry
      rw [List.map_cons, List.idxOf?_cons] at hi
      rw [Env.lookup?, List.find?_cons]
      by_cases hb : first = b
      · simp only [hb, beq_self_eq_true, if_true, Option.some.injEq] at hi
        subst hi hb
        exact ⟨d, rfl, by simp⟩
      · simp only [beq_iff_eq, hb, if_false, Option.map_eq_some_iff] at hi
        obtain ⟨j, hj, rfl⟩ := hi
        obtain ⟨d', hd', hlookup⟩ := ih hj
        refine ⟨d', by simpa using hd', ?_⟩
        simpa [hb, Env.lookup?] using hlookup

namespace Machine

/-- The globals that have been assigned stand for data, and the other ones for
nothing. -/
def Knows (m : Machine) (globals : Symbol → Option Datum) : Prop :=
  ∀ s i, m.globals.slot? s = some i → ∃ g, m.globals.entries[i]? = some g ∧
    (g.defined = true → ∃ d, globals s = some d ∧
      Represents m.code m.globals.slot? m.heap g.value (.datum d)) ∧
    (g.defined = false → globals s = none)

/-- The current call is at the code of an expression, and its locals stand for the
bindings around the expression. -/
structure Within (m : Machine) (h : Heap) (pc : Int) (env : Value)
    (locals : List Value) (bindings : Env) (p : Position) (e : Expr)
    (code rest : List Instr) : Prop where
  heap : m.heap.Grows h
  bound : Bound m.code m.globals.slot? h env locals bindings
  compiled : CodeOf m.globals.slot? (bindings.map Prod.fst) p e code
  placed : m.code.At pc (code ++ rest)

/-- A value is loaded, and the current call goes on at `pc`. -/
def Loaded (m : Machine) (h : Heap) (pc : Int) (env : Value) (locals args : List Value)
    (returns : List ReturnEntry) (d : Datum) (p : Progress) : Prop :=
  ∃ h' v, h.Grows h' ∧ Represents m.code m.globals.slot? h' v (.datum d) ∧
    p = .running (m.on h' v pc env locals args returns)

/-- The code of an expression in value position loads what it evaluates to. -/
def Computes (m : Machine) (globals : Symbol → Option Datum) (depth : Nat) (e : Expr) :
    Prop :=
  ∀ ⦃h acc pc env locals args returns bindings code rest⦄,
    Within m h pc env locals bindings .value e code rest →
    Meets depth (m.on h acc pc env locals args returns)
      (e.evaluate (Datum.apply globals depth) globals bindings)
      (Loaded m h (pc + Instr.sizeAll code) env locals args returns)

variable {m : Machine} {globals : Symbol → Option Datum} {depth : Nat}

theorem computes_int {pos : Pos} {value : Int64} :
    Computes m globals depth (.int pos value) := by
  intro h acc pc env locals args returns bindings code rest hwithin
  obtain rfl := hwithin.compiled.int
  rw [Expr.evaluate]
  refine .last ⟨h, .int value, .refl _, .int value, ?_⟩
  rw [advance_int64 hwithin.placed]
  simp [Lir.settle]

theorem computes_var {pos : Pos} {binder : Option Binder} :
    Computes m globals depth (.var pos binder) := by
  intro h acc pc env locals args returns bindings code rest hwithin
  obtain ⟨b, index, rfl, hindex, hmax, rfl⟩ := hwithin.compiled.var
  obtain ⟨d, hbinding, hlookup⟩ := Env.lookup?_of_idxOf? hindex
  obtain ⟨v, hv, hlocal⟩ := hwithin.bound.getElem? hbinding
  have hnat : (UInt8.ofNat index).toNat = index := by
    rw [maxAccessIndex] at hmax
    rw [UInt8.toNat_ofNat', Nat.mod_eq_of_lt (by omega)]
  have hlocal : (m.on h acc pc env locals args returns).local?
      (UInt8.ofNat index).toNat = some v := by
    rw [hnat, ← hlocal, local?]
    change (if index < locals.length then
      (locals.map ReturnEntry.value ++ returns)[index]?.map ReturnEntry.localValue
      else chainAt h env (index - locals.length)) = _
    split
    · rename_i hlt
      rw [List.getElem?_append_left (by simpa using hlt)]
      simp [hlt, ReturnEntry.localValue]
    · rfl
  rw [Expr.evaluate, Option.bind_some, hlookup]
  refine .last ⟨h, v, .refl _, hv, ?_⟩
  rw [advance_access hwithin.placed hlocal]
  simp [Lir.settle]

theorem computes_global (hknows : m.Knows globals)
    (hindex : Lir.Addresses m.globals.size m.globals.slot?) {pos : Pos}
    {symbol : Option Symbol} : Computes m globals depth (.global pos symbol) := by
  intro h acc pc env locals args returns bindings code rest hwithin
  obtain ⟨s, i, rfl, hi, rfl⟩ := hwithin.compiled.global
  obtain ⟨g, hg, hdefined, hundefined⟩ := hknows s i hi
  have hnat : (UInt16.ofNat i).toNat = i := by
    have hmax := (hindex s i hi).2
    rw [maxGlobalSlot] at hmax
    rw [UInt16.toNat_ofNat', Nat.mod_eq_of_lt (by omega)]
  rw [← hnat] at hg
  rw [Expr.evaluate]
  cases hassigned : g.defined with
  | true =>
      obtain ⟨d, hd, hv⟩ := hdefined hassigned
      rw [hd]
      refine .last ⟨h, g.value, .refl _, hv.grow hwithin.heap, ?_⟩
      rw [advance_getGlobal hwithin.placed hg hassigned]
      simp [Lir.settle]
  | false =>
      rw [hundefined hassigned]
      exact .fault (advance_getGlobal_undefined hwithin.placed hg hassigned)

/-- A closure over the current locals stands for the function with the bindings around
it. -/
theorem represents_closureOf {h : Heap} {env : Value} {locals : List Value}
    {bindings : Env} (hbound : Bound m.code m.globals.slot? h env locals bindings)
    {offset : Int} {is : List Instr} (hat : m.code.At offset is) {pos : Pos}
    {param : Binder} {body : Expr}
    (hcompiled : CodeOf m.globals.slot? (bindings.map Prod.fst) .tail
      (.lam pos param body) is) :
    h.Grows (closureOf h env locals offset).2 ∧
      Represents m.code m.globals.slot? (closureOf h env locals offset).2
        (closureOf h env locals offset).1 (.datum (.closure param body bindings)) := by
  obtain ⟨hgrows, henv⟩ := hbound.captureEnv
  refine ⟨.alloc _ _ hgrows, ?_⟩
  exact .closure (Heap.cells_alloc_self _ _ _) rfl rfl
    (henv.grow (.alloc _ _ (.refl _))) hat hcompiled

theorem computes_lam {pos : Pos} {param : Binder} {body : Expr} :
    Computes m globals depth (.lam pos param body) := by
  intro h acc pc env locals args returns bindings code rest hwithin
  obtain ⟨bodyCode, _, htail, hclose⟩ := hwithin.compiled.lam
  obtain ⟨length, hlength, rfl⟩ := Lir.closeOver_value hclose
  have hat : m.code.At pc (.closure length :: (.grab :: bodyCode ++ rest)) :=
    hwithin.placed
  obtain ⟨hgrows, hv⟩ := represents_closureOf hwithin.bound hat.next.left htail
  rw [Expr.evaluate]
  refine .last ⟨_, _, hgrows, hv, ?_⟩
  rw [advance_closure hat rfl hlength]
  simp [Int.add_assoc]

/-- The code of an expression, before other code. -/
theorem Within.start {h : Heap} {pc : Int} {env : Value} {locals : List Value}
    {bindings : Env} {p q : Position} {e first : Expr} {code rest : List Instr}
    (hwithin : Within m h pc env locals bindings p e code rest)
    {firstCode more : List Instr}
    (hcompiled : CodeOf m.globals.slot? (bindings.map Prod.fst) q first firstCode)
    (hcode : code = firstCode ++ more) :
    Within m h pc env locals bindings q first firstCode (more ++ rest) := by
  refine ⟨hwithin.heap, hwithin.bound, hcompiled, ?_⟩
  have hplaced := hwithin.placed
  rwa [hcode, List.append_assoc] at hplaced

/-- A value is bound around the code that comes next. -/
theorem Within.bind {h h' : Heap} {pc pc' : Int} {env v : Value} {locals : List Value}
    {bindings : Env} {p q : Position} {e body : Expr} {code rest : List Instr}
    (hwithin : Within m h pc env locals bindings p e code rest) (hgrows : h.Grows h')
    {d : Datum} (hv : Represents m.code m.globals.slot? h' v (.datum d))
    {binder : Binder} {bodyCode more : List Instr}
    (hcompiled : CodeOf m.globals.slot? (binder :: bindings.map Prod.fst) q body bodyCode)
    (hplaced : m.code.At pc' (bodyCode ++ more)) :
    Within m h' pc' env (v :: locals) ((binder, d) :: bindings) q body bodyCode more :=
  ⟨hwithin.heap.trans hgrows, .bind hv (hwithin.bound.grow hgrows), hcompiled, hplaced⟩

theorem computes_letIn {pos : Pos} {binder : Binder} {value body : Expr}
    (hvalue : Computes m globals depth value) (hbody : Computes m globals depth body) :
    Computes m globals depth (.letIn pos binder value body) := by
  intro h acc pc env locals args returns bindings code rest hwithin
  obtain ⟨valueCode, bodyCode, hvalueCode, hbodyCode, hcode⟩ := hwithin.compiled.letIn
  rw [List.append_assoc] at hcode
  have hfirst := hwithin.start hvalueCode hcode
  rw [Expr.evaluate]
  refine (hvalue hfirst).andThen ?_
  rintro d _ ⟨h', v, hgrows, hv, rfl⟩
  have hbind := hfirst.placed.skip
  have hinner : Within m h' (pc + Instr.sizeAll valueCode + Instr.bind.size) env
      (v :: locals) ((binder, d) :: bindings) .value body bodyCode
      ([.unbind] ++ rest) := by
    apply hwithin.bind hgrows hv hbodyCode
    simpa using hbind.next
  refine ⟨_, rfl, .step (advance_bind hbind) ((hbody hinner).finish ?_)⟩
  rintro e _ ⟨h'', u, hgrows', hu, rfl⟩
  refine ⟨_, rfl, h'', u, hgrows.trans hgrows', hu, ?_⟩
  rw [advance_unbind hinner.placed.skip, hcode]
  simp [Int.add_assoc]

/-- The code of fields pushes what they evaluate to, the last one on top. -/
def ComputesFields (m : Machine) (globals : Symbol → Option Datum) (depth : Nat)
    (fields : List Expr) : Prop :=
  ∀ ⦃h acc pc env locals args returns bindings code rest⦄, m.heap.Grows h →
    Bound m.code m.globals.slot? h env locals bindings →
    FieldsCode m.globals.slot? (bindings.map Prod.fst) fields code →
    m.code.At pc (code ++ rest) →
    Meets depth (m.on h acc pc env locals args returns)
      (Expr.evaluateFields (Datum.apply globals depth) globals bindings fields)
      fun ds p => ∃ h' acc' vs, h.Grows h' ∧
        RepresentsAll m.code m.globals.slot? h' vs ds ∧ vs.length = fields.length ∧
        p = .running (m.on h' acc' (pc + Instr.sizeAll code) env locals
          (vs.reverse ++ args) returns)

theorem computesFields_nil : ComputesFields m globals depth [] := by
  intro h acc pc env locals args returns bindings code rest _ _ hcode _
  cases hcode
  rw [Expr.evaluateFields]
  exact .now ⟨h, acc, [], .refl _, .nil, rfl, by simp⟩

theorem computesFields_cons {field : Expr} {rest : List Expr}
    (hfield : Computes m globals depth field)
    (hrest : ComputesFields m globals depth rest) :
    ComputesFields m globals depth (field :: rest) := by
  intro h acc pc env locals args returns bindings code more hheap hbound hcode hat
  cases hcode with
  | @cons _ _ fieldCode restCode hfieldCode hrestCode =>
      rw [List.append_assoc] at hat
      rw [Expr.evaluateFields]
      refine (hfield ⟨hheap, hbound, hfieldCode, hat⟩).andThen ?_
      rintro d _ ⟨h', v, hgrows, hv, rfl⟩
      have hpush : m.code.At (pc + Instr.sizeAll fieldCode)
          (.push :: (restCode ++ more)) := hat.skip
      refine ⟨_, rfl, .step (advance_push hpush) ?_⟩
      refine (hrest (hheap.trans hgrows) (hbound.grow hgrows) hrestCode
        hpush.next).andThen ?_
      rintro ds _ ⟨h'', acc', vs, hgrows', hvs, hlength, rfl⟩
      refine ⟨_, rfl, .now ⟨h'', acc', v :: vs, hgrows.trans hgrows',
        .cons (hv.grow hgrows') hvs, by simp [hlength], ?_⟩⟩
      simp [Int.add_assoc]

theorem computes_tuple {pos : Pos} {fields : List Expr}
    (hfields : ComputesFields m globals depth fields) :
    Computes m globals depth (.tuple pos fields) := by
  intro h acc pc env locals args returns bindings code rest hwithin
  obtain ⟨fieldsCode, hmax, hfieldsCode, rfl⟩ := hwithin.compiled.tuple
  have hat : m.code.At pc (fieldsCode ++
      (.makeBlock (UInt16.ofNat fields.length) :: rest)) := by
    simpa [Lir.settle] using hwithin.placed
  have hsize : (UInt16.ofNat fields.length).toNat = fields.length := by
    rw [maxBlockFields] at hmax
    rw [UInt16.toNat_ofNat', Nat.mod_eq_of_lt (by omega)]
  rw [Expr.evaluate]
  refine (hfields hwithin.heap hwithin.bound hfieldsCode hat).andThen ?_
  rintro ds _ ⟨h', acc', vs, hgrows, hvs, hlength, rfl⟩
  have halloc : h'.Grows (h'.alloc .tuple vs.toArray).2 := .alloc _ _ (.refl _)
  have htuple : Represents m.code m.globals.slot? (h'.alloc .tuple vs.toArray).2
      (.ref .tuple h'.cells.size) (.datum (.tuple ds)) := by
    refine .tuple (Heap.cells_alloc_self _ _ _) rfl (by simp [hvs.length]) ?_
    intro i v d hv hd
    exact (hvs.getElem? (by simpa using hv) hd).grow halloc
  refine ⟨_, rfl, .last ⟨_, _, hgrows.trans halloc, htuple, ?_⟩⟩
  rw [advance_makeBlock hat.skip (by rw [List.length_reverse, hlength, hsize])]
  simp [Lir.settle, Int.add_assoc]

/-- The function of nested applications is loaded, and their arguments are pushed. -/
def Spread (m : Machine) (h : Heap) (pc : Int) (env : Value) (locals args : List Value)
    (returns : List ReturnEntry) (s : Datum × List Datum) (p : Progress) : Prop :=
  ∃ h' v vs, h.Grows h' ∧ Represents m.code m.globals.slot? h' v (.datum s.1) ∧
    RepresentsAll m.code m.globals.slot? h' vs s.2 ∧
    p = .running (m.on h' v pc env locals (vs ++ args) returns)

/-- The code of an expression in head position pushes arguments and loads their
function. -/
def Spreads (m : Machine) (globals : Symbol → Option Datum) (depth : Nat) (e : Expr) :
    Prop :=
  ∀ ⦃h acc pc env locals args returns bindings code rest⦄,
    Within m h pc env locals bindings .head e code rest →
    Meets depth (m.on h acc pc env locals args returns)
      (e.spine (Datum.apply globals depth) globals bindings)
      (Spread m h (pc + Instr.sizeAll code) env locals args returns)

theorem Computes.spreads {e : Expr} (hcomputes : Computes m globals depth e)
    (happ : ∀ pos fn arg, e ≠ .app pos fn arg) : Spreads m globals depth e := by
  intro h acc pc env locals args returns bindings code rest hwithin
  have hspine : e.spine (Datum.apply globals depth) globals bindings =
      (e.evaluate (Datum.apply globals depth) globals bindings).andThen
        fun f => .value (f, []) := by
    rw [Expr.spine]
    exact happ
  rcases hwithin.compiled.head_cases with ⟨pos, fn, arg, rfl⟩ | hcompiled
  · exact absurd rfl (happ pos fn arg)
  · rw [hspine]
    refine (hcomputes ⟨hwithin.heap, hwithin.bound, hcompiled, hwithin.placed⟩).andThen ?_
    rintro f _ ⟨h', v, hgrows, hv, rfl⟩
    exact ⟨_, rfl, .now ⟨h', v, [], hgrows, hv, .nil, rfl⟩⟩

/-- An application pushes its argument and goes on with its function. -/
theorem meets_spine_app {pos : Pos} {fn arg : Expr} (harg : Computes m globals depth arg)
    (hfn : Spreads m globals depth fn) {h : Heap} {acc : Value} {pc : Int}
    {env : Value} {locals args : List Value} {returns : List ReturnEntry}
    {bindings : Env} {argCode fnCode rest : List Instr} (hheap : m.heap.Grows h)
    (hbound : Bound m.code m.globals.slot? h env locals bindings)
    (hargCode : CodeOf m.globals.slot? (bindings.map Prod.fst) .value arg argCode)
    (hfnCode : CodeOf m.globals.slot? (bindings.map Prod.fst) .head fn fnCode)
    (hat : m.code.At pc ((argCode ++ .push :: fnCode) ++ rest)) :
    Meets depth (m.on h acc pc env locals args returns)
      ((Expr.app pos fn arg).spine (Datum.apply globals depth) globals bindings)
      fun s p => s.2 ≠ [] ∧ Spread m h (pc + Instr.sizeAll (argCode ++ .push :: fnCode))
        env locals args returns s p := by
  rw [List.append_assoc] at hat
  rw [Expr.spine]
  refine (harg ⟨hheap, hbound, hargCode, hat⟩).andThen ?_
  rintro a _ ⟨h', v, hgrows, hv, rfl⟩
  have hpush : m.code.At (pc + Instr.sizeAll argCode) (.push :: (fnCode ++ rest)) :=
    hat.skip
  refine ⟨_, rfl, .step (advance_push hpush) ?_⟩
  refine (hfn ⟨hheap.trans hgrows, hbound.grow hgrows, hfnCode, hpush.next⟩).andThen ?_
  rintro s _ ⟨h'', f, vs, hgrows', hf, hvs, rfl⟩
  refine ⟨_, rfl, .now ⟨by simp, h'', f, vs ++ [v], hgrows.trans hgrows', hf,
    hvs.append (.cons (hv.grow hgrows') .nil), ?_⟩⟩
  simp [Int.add_assoc]

theorem spreads_app {pos : Pos} {fn arg : Expr} (harg : Computes m globals depth arg)
    (hfn : Spreads m globals depth fn) : Spreads m globals depth (.app pos fn arg) := by
  intro h acc pc env locals args returns bindings code rest hwithin
  obtain ⟨argCode, fnCode, hargCode, hfnCode, rfl⟩ := hwithin.compiled.app
  exact (meets_spine_app harg hfn hwithin.heap hwithin.bound hargCode hfnCode
    hwithin.placed).mono fun _ _ hspread => hspread.2

/-- A datum reaches those that wait for it.  When no argument is left on the stack it is
returned.  Otherwise it has to be a function, and its code is where it takes the first of
them. -/
inductive Delivered (m : Machine) (h : Heap) (below : List Value)
    (returns : List ReturnEntry) : Datum → List Value → Progress → Prop where
  | returned {d : Datum} {h' : Heap} {v : Value} {p : Progress} :
      h.Grows h' → Represents m.code m.globals.slot? h' v (.datum d) →
      Leaves m h' v below returns p → Delivered m h below returns d [] p
  | applied {param : Binder} {body : Expr} {bindings : Env} {h' : Heap} {acc : Value}
      {pc : Int} {env : Value} {locals waiting : List Value} {pos : Pos}
      {is : List Instr} :
      waiting ≠ [] → h.Grows h' → Bound m.code m.globals.slot? h' env locals bindings →
      m.code.At pc is →
      CodeOf m.globals.slot? (bindings.map Prod.fst) .tail (.lam pos param body) is →
      Delivered m h below returns (.closure param body bindings) waiting
        (.running (m.on h' acc pc env locals (waiting ++ .mark :: below) returns))
  | refused {d : Datum} {waiting : List Value} {f : Fault} {last : Machine} :
      waiting ≠ [] → (∀ param body bindings, d ≠ .closure param body bindings) →
      f.cause = .notClosure → Delivered m h below returns d waiting (.faulted f last)

theorem Delivered.earlier {h h' : Heap} {below : List Value}
    {returns : List ReturnEntry} {d : Datum} {waiting : List Value} {p : Progress}
    (hdelivered : Delivered m h' below returns d waiting p) (hgrows : h.Grows h') :
    Delivered m h below returns d waiting p := by
  cases hdelivered with
  | returned hgrows' hv hleaves => exact .returned (hgrows.trans hgrows') hv hleaves
  | applied hwaiting hgrows' hbound hat hcode =>
      exact .applied hwaiting (hgrows.trans hgrows') hbound hat hcode
  | refused hwaiting hother hcause => exact .refused hwaiting hother hcause

/-- A function that is called takes the arguments on the stack. -/
theorem Jumps.delivered {h : Heap} {v : Value} {d : Datum} {waiting below : List Value}
    {returns : List ReturnEntry} {p : Progress}
    (hjumps : Jumps m h v (waiting ++ .mark :: below) returns p)
    (hv : Represents m.code m.globals.slot? h v (.datum d)) (hwaiting : waiting ≠ []) :
    Delivered m h below returns d waiting p := by
  have hrefused (hother : ∀ a, v ≠ .ref .closure a)
      (hd : ∀ param body bindings, d ≠ .closure param body bindings) :
      Delivered m h below returns d waiting p := by
    obtain ⟨f, last, rfl, hcause⟩ := hjumps.other hother
    exact .refused hwaiting hd hcause
  cases hv with
  | int n => exact hrefused (fun _ h => by cases h) (fun _ _ _ h => by cases h)
  | tuple _ _ _ _ => exact hrefused (fun _ h => by cases h) (fun _ _ _ h => by cases h)
  | closure hcell _ hfields henv hat hcode =>
      rw [hjumps.closure _ _ _ rfl ((Heap.fields_of_cell hcell).trans hfields)]
      exact .applied hwaiting (.refl _) (.captured henv) hat hcode

/-- The code of an expression in tail position delivers what it evaluates to. -/
def Delivers (m : Machine) (globals : Symbol → Option Datum) (depth : Nat) (e : Expr) :
    Prop :=
  ∀ ⦃h acc pc env locals waiting below returns bindings code rest⦄,
    Within m h pc env locals bindings .tail e code rest →
    (∀ v ∈ waiting, v.isMark = false) →
    Meets depth (m.on h acc pc env locals (waiting ++ .mark :: below) returns)
      (e.evaluate (Datum.apply globals depth) globals bindings)
      fun d p => Delivered m h below returns d waiting p

/-- Calls work: what is in tail position is delivered when calls are nested less
deeply. -/
def Calls (m : Machine) (globals : Symbol → Option Datum) (depth : Nat) : Prop :=
  ∀ n, depth = n + 1 → ∀ e, Delivers m globals n e

/-- A function that has been delivered takes one argument. -/
theorem Meets.apply (hcalls : Calls m globals depth) {x : Machine} {o : Outcome Datum}
    {h : Heap} {v : Value} {a : Datum} {waiting below : List Value}
    {returns : List ReturnEntry}
    (hmeets : Meets depth x o
      fun f p => Delivered m h below returns f (v :: waiting) p)
    (hheap : m.heap.Grows h) (hv : Represents m.code m.globals.slot? h v (.datum a))
    (hwaiting : ∀ u ∈ waiting, u.isMark = false) :
    Meets depth x (o.andThen fun f => Datum.apply globals depth f a)
      fun d p => Delivered m h below returns d waiting p := by
  cases o with
  | stuck why => exact hmeets
  | unfinished => exact hmeets
  | value f =>
      obtain ⟨k, hdelivered⟩ := hmeets
      rw [Outcome.andThen]
      cases depth with
      | zero => exact ⟨x, rfl⟩
      | succ n =>
          generalize hp : advanceBy k x = p at hdelivered
          cases hdelivered with
          | @applied param body bindings h' acc pc env locals _ pos is _ hgrows hbound hat
              hcode =>
              obtain ⟨bodyCode, hbody, _, hclose⟩ := hcode.lam
              cases hclose
              have hinner : Within m h' (pc + Instr.grab.size) env (v :: locals)
                  ((param, a) :: bindings) .tail body bodyCode [] := by
                refine ⟨hheap.trans hgrows, .bind (hv.grow hgrows) hbound, hbody, ?_⟩
                rw [List.append_nil]
                exact hat.next
              refine Meets.after hp (.call (advance_grab_value hat hv.isMark) ?_)
              rw [Datum.apply]
              refine (hcalls n rfl body hinner hwaiting).mono fun d p hd => ?_
              exact hd.earlier hgrows
          | @refused _ _ e last _ hother hcause =>
              have hstuck : Datum.apply globals (n + 1) f a = .stuck .notClosure := by
                cases f with
                | closure param body bindings => exact absurd rfl (hother _ _ _)
                | int n => rfl
                | tuple ds => rfl
              rw [hstuck]
              exact ⟨k, e, last, hp, hcause⟩

/-- A function that has been delivered takes several arguments. -/
theorem Meets.applyAll (hcalls : Calls m globals depth) {x : Machine} {h : Heap}
    {vs waiting below : List Value} {ds : List Datum} {returns : List ReturnEntry}
    {o : Outcome Datum}
    (hmeets : Meets depth x o
      fun f p => Delivered m h below returns f (vs ++ waiting) p)
    (hheap : m.heap.Grows h)
    (hvs : RepresentsAll m.code m.globals.slot? h vs ds)
    (hwaiting : ∀ u ∈ waiting, u.isMark = false) :
    Meets depth x
      (o.andThen fun f => Expr.applyAll (Datum.apply globals depth) f ds)
      fun d p => Delivered m h below returns d waiting p := by
  induction hvs generalizing o with
  | nil =>
      have hvalue : (o.andThen fun f => Expr.applyAll (Datum.apply globals depth) f []) =
          o := by
        cases o <;> rfl
      rw [hvalue]
      exact hmeets
  | @cons v a vs ds hv hrest ih =>
      have hmarks : ∀ u ∈ vs ++ waiting, u.isMark = false := fun u hu =>
        (List.mem_append.1 hu).elim (hrest.not_mark u) (hwaiting u)
      have hfirst := Meets.apply hcalls hmeets hheap hv hmarks
      have happlied := ih hfirst
      rwa [Outcome.andThen_assoc] at happlied

/-- A function that is called takes the arguments that were pushed for it, and what it
gives is delivered. -/
theorem meets_call (hcalls : Calls m globals depth) (waiting : List Value) {x : Machine}
    {h : Heap} {f : Value} {d : Datum} {vs below : List Value} {ds : List Datum}
    {returns : List ReturnEntry}
    (hjumps : Jumps m h f (vs ++ (waiting ++ .mark :: below)) returns x.advance)
    (hheap : m.heap.Grows h) (hf : Represents m.code m.globals.slot? h f (.datum d))
    (hvs : RepresentsAll m.code m.globals.slot? h vs ds) (hds : ds ≠ [])
    (hwaiting : ∀ u ∈ waiting, u.isMark = false) :
    Meets depth x (Expr.applyAll (Datum.apply globals depth) d ds)
      fun d p => Delivered m h below returns d waiting p := by
  have hne : vs ++ waiting ≠ [] := by
    intro hnil
    obtain ⟨rfl, _⟩ := List.append_eq_nil_iff.1 hnil
    exact hds (List.length_eq_zero_iff.1 hvs.length.symm)
  rw [← List.append_assoc] at hjumps
  have hfirst : Meets depth x (.value d)
      fun f p => Delivered m h below returns f (vs ++ waiting) p :=
    .last (hjumps.delivered hf hne)
  exact Meets.applyAll hcalls hfirst hheap hvs hwaiting

/-- An application that others wait for calls its function and is returned to. -/
theorem computes_app (hcalls : Calls m globals depth) {pos : Pos} {fn arg : Expr}
    (harg : Computes m globals depth arg) (hfn : Spreads m globals depth fn) :
    Computes m globals depth (.app pos fn arg) := by
  intro h acc pc env locals args returns bindings code rest hwithin
  obtain ⟨argCode, fnCode, hargCode, hfnCode, rfl⟩ := hwithin.compiled.app
  have hat : m.code.At pc (.pushMark :: ((argCode ++ .push :: fnCode) ++
      (.apply :: rest))) := by
    simpa [Lir.closeCall] using hwithin.placed
  rw [Expr.evaluate_eq_spine]
  refine .step (advance_pushMark hat) ?_
  refine (meets_spine_app harg hfn hwithin.heap hwithin.bound hargCode hfnCode
    hat.next).andThen ?_
  rintro s _ ⟨hne, h', f, vs, hgrows, hf, hvs, rfl⟩
  refine ⟨_, rfl, ?_⟩
  refine (meets_call hcalls [] (advance_apply hat.next.skip)
    (hwithin.heap.trans hgrows) hf hvs hne (by simp)).mono ?_
  intro d p hdelivered
  cases hdelivered with
  | returned hgrows' hv hleaves =>
      refine ⟨_, _, hgrows.trans hgrows', hv, ?_⟩
      rw [hleaves.caller _ _ _ _ rfl]
      simp [Lir.closeCall, Int.add_assoc]
  | applied hwaiting _ _ _ _ => exact absurd rfl hwaiting
  | refused hwaiting _ _ => exact absurd rfl hwaiting

/-- An application in tail position calls its function with all arguments that are on
the stack. -/
theorem delivers_app (hcalls : Calls m globals depth) {pos : Pos} {fn arg : Expr}
    (harg : Computes m globals depth arg) (hfn : Spreads m globals depth fn) :
    Delivers m globals depth (.app pos fn arg) := by
  intro h acc pc env locals waiting below returns bindings code rest hwithin hwaiting
  obtain ⟨argCode, fnCode, hargCode, hfnCode, rfl⟩ := hwithin.compiled.app
  have hat : m.code.At pc ((argCode ++ .push :: fnCode) ++ (.appTerm :: rest)) := by
    simpa [Lir.closeCall] using hwithin.placed
  rw [Expr.evaluate_eq_spine]
  refine (meets_spine_app harg hfn hwithin.heap hwithin.bound hargCode hfnCode
    hat).andThen ?_
  rintro s _ ⟨hne, h', f, vs, hgrows, hf, hvs, rfl⟩
  refine ⟨_, rfl, ?_⟩
  exact (meets_call hcalls waiting (advance_appTerm hat.skip) (hwithin.heap.trans hgrows)
    hf hvs hne hwaiting).mono fun d p hd => hd.earlier hgrows

/-- A function in tail position takes the first argument that waits, without a closure;
without one it is returned. -/
theorem delivers_lam {pos : Pos} {param : Binder} {body : Expr} :
    Delivers m globals depth (.lam pos param body) := by
  intro h acc pc env locals waiting below returns bindings code rest hwithin _
  rw [Expr.evaluate]
  obtain ⟨bodyCode, _, htail, hclose⟩ := hwithin.compiled.lam
  cases hclose
  cases waiting with
  | nil =>
      obtain ⟨hgrows, hv⟩ :=
        represents_closureOf hwithin.bound hwithin.placed.left htail
      exact .last (.returned hgrows hv (advance_grab_mark hwithin.placed))
  | cons v waiting =>
      exact .now (.applied (List.cons_ne_nil _ _) (.refl _) hwithin.bound
        hwithin.placed.left htail)

theorem delivers_letIn {pos : Pos} {binder : Binder} {value body : Expr}
    (hvalue : Computes m globals depth value) (hbody : Delivers m globals depth body) :
    Delivers m globals depth (.letIn pos binder value body) := by
  intro h acc pc env locals waiting below returns bindings code rest hwithin hwaiting
  obtain ⟨valueCode, bodyCode, hvalueCode, hbodyCode, hcode⟩ := hwithin.compiled.letIn
  rw [List.append_assoc] at hcode
  have hfirst := hwithin.start hvalueCode hcode
  rw [Expr.evaluate]
  refine (hvalue hfirst).andThen ?_
  rintro d _ ⟨h', v, hgrows, hv, rfl⟩
  have hbind := hfirst.placed.skip
  have hinner : Within m h' (pc + Instr.sizeAll valueCode + Instr.bind.size) env
      (v :: locals) ((binder, d) :: bindings) .tail body bodyCode
      ([.unbind] ++ rest) := by
    apply hwithin.bind hgrows hv hbodyCode
    simpa using hbind.next
  refine ⟨_, rfl, .step (advance_bind hbind) ?_⟩
  exact (hbody hinner hwaiting).mono fun e p he => he.earlier hgrows

/-- A value in tail position is returned, or called with the arguments that wait. -/
theorem Computes.delivers {e : Expr} (hcomputes : Computes m globals depth e)
    (happ : ∀ pos fn arg, e ≠ .app pos fn arg)
    (hlam : ∀ pos param body, e ≠ .lam pos param body)
    (hletIn : ∀ pos binder value body, e ≠ .letIn pos binder value body) :
    Delivers m globals depth e := by
  intro h acc pc env locals waiting below returns bindings code rest hwithin hwaiting
  rcases hwithin.compiled.tail_cases with ⟨_, _, _, heq⟩ | ⟨_, _, _, heq⟩ |
    ⟨_, _, _, _, heq⟩ | ⟨valueCode, hcode, rfl⟩
  · exact absurd heq (happ _ _ _)
  · exact absurd heq (hlam _ _ _)
  · exact absurd heq (hletIn _ _ _ _)
  · have hvalue := hwithin.start hcode rfl
    have hret : m.code.At (pc + Instr.sizeAll valueCode) (.ret :: rest) :=
      hvalue.placed.skip
    refine (hcomputes hvalue).finish ?_
    rintro d _ ⟨h', v, hgrows, hv, rfl⟩
    refine ⟨_, rfl, ?_⟩
    cases waiting with
    | nil => exact .returned hgrows hv (advance_ret_mark hret)
    | cons u waiting =>
        have hmark := hwaiting u List.mem_cons_self
        exact ((advance_ret_value hret hmark).delivered hv
          (List.cons_ne_nil _ _)).earlier hgrows

/-- The code of an expression does what the expression means, in every position. -/
structure Simulates (m : Machine) (globals : Symbol → Option Datum) (depth : Nat)
    (e : Expr) : Prop where
  value : Computes m globals depth e
  head : Spreads m globals depth e
  tail : Delivers m globals depth e

theorem Computes.simulates {e : Expr} (hcomputes : Computes m globals depth e)
    (happ : ∀ pos fn arg, e ≠ .app pos fn arg)
    (hlam : ∀ pos param body, e ≠ .lam pos param body)
    (hletIn : ∀ pos binder value body, e ≠ .letIn pos binder value body) :
    Simulates m globals depth e :=
  ⟨hcomputes, hcomputes.spreads happ, hcomputes.delivers happ hlam hletIn⟩

mutual

/-- The code of every expression does what the expression means. -/
theorem simulate (hknows : m.Knows globals)
    (hindex : Lir.Addresses m.globals.size m.globals.slot?)
    (hcalls : Calls m globals depth) : (e : Expr) → Simulates m globals depth e
  | .int pos value => computes_int.simulates (by simp) (by simp) (by simp)
  | .var pos binder => computes_var.simulates (by simp) (by simp) (by simp)
  | .global pos symbol =>
      (computes_global hknows hindex).simulates (by simp) (by simp) (by simp)
  | .lam pos param body => ⟨computes_lam, computes_lam.spreads (by simp), delivers_lam⟩
  | .app pos fn arg => by
      have harg := (simulate hknows hindex hcalls arg).value
      have hfn := (simulate hknows hindex hcalls fn).head
      exact ⟨computes_app hcalls harg hfn, spreads_app harg hfn,
        delivers_app hcalls harg hfn⟩
  | .letIn pos binder value body => by
      have hvalue := (simulate hknows hindex hcalls value).value
      have hbody := simulate hknows hindex hcalls body
      have hletIn : Computes m globals depth (.letIn pos binder value body) :=
        computes_letIn hvalue hbody.value
      exact ⟨hletIn, hletIn.spreads (by simp), delivers_letIn hvalue hbody.tail⟩
  | .tuple pos fields =>
      (computes_tuple (simulateFields hknows hindex hcalls fields)).simulates (by simp)
        (by simp) (by simp)
  | .missing => by
      have hcomputes : Computes m globals depth .missing := by
        intro _ _ _ _ _ _ _ _ _ _ hwithin
        exact absurd hwithin.compiled CodeOf.missing
      exact hcomputes.simulates (by simp) (by simp) (by simp)

theorem simulateFields (hknows : m.Knows globals)
    (hindex : Lir.Addresses m.globals.size m.globals.slot?)
    (hcalls : Calls m globals depth) :
    (fields : List Expr) → ComputesFields m globals depth fields
  | [] => computesFields_nil
  | field :: rest => computesFields_cons (simulate hknows hindex hcalls field).value
      (simulateFields hknows hindex hcalls rest)

end

/-- Calls work, however deeply they are nested. -/
theorem calls_all (hknows : m.Knows globals)
    (hindex : Lir.Addresses m.globals.size m.globals.slot?) (depth : Nat) :
    Calls m globals depth := by
  induction depth with
  | zero => exact fun n hn => absurd hn (Nat.succ_ne_zero n).symm
  | succ depth ih =>
      intro n hn
      obtain rfl := Nat.succ.inj hn
      exact fun e => (simulate hknows hindex ih e).tail

end Machine

end Zinc
