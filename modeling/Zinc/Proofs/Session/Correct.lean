import Zinc.Proofs.Machine.Bounded
import Zinc.Proofs.Machine.Entry
import Zinc.Proofs.Program.Stages
import Zinc.Proofs.Session.Sound
import Zinc.Proofs.Session.Twin
import Zinc.Yaml.Parser

/-!
Compiled code is correct.  A machine that never collects runs the code of an expression
as the expression evaluates, and a machine that collects gives the same answer.
-/

namespace Zinc

namespace Machine

/-- The machine with other bounds that never collects. -/
def hoarding (m : Machine) (limits : Limits) (horizon : Nat) : Machine :=
  m.bounded { limits with threshold? := some 0 } horizon

theorem quiet_hoarding (m : Machine) (limits : Limits) (horizon : Nat) :
    (m.hoarding limits horizon).Quiet :=
  ⟨Int.le_refl _, rfl⟩

variable {m m' : Machine} {vs : List Value}

/-- Bounds do not matter to what machines agree on. -/
theorem Twins.bounded (h : Twins [] m m) (limits : Limits) (horizon : Nat) :
    Twins [] (m.hoarding limits horizon) (m.bounded limits horizon) := by
  obtain ⟨S, heap, t, log, htwin, _, heq⟩ := h
  have hheap : heap = m.heap := (congrArg Machine.heap heq).symm
  subst hheap
  exact ⟨S, m.heap, limits.threshold?, m.log,
    ⟨htwin.heap, htwin.regs, htwin.handles, htwin.globals, htwin.saved⟩, by simp, rfl⟩

/-- A value in hand stands for the same in both machines. -/
theorem Twins.represents (h : Twins vs m m') {v : Value} (hv : v ∈ vs)
    {referent : Referent}
    (hrepresents : Represents m.code m.globals.slot? m.heap v referent) :
    Represents m'.code m'.globals.slot? m'.heap v referent := by
  obtain ⟨S, heap, t, log, htwin, hvs, rfl⟩ := h
  refine hrepresents.keep (fun a c ha hcell => ?_) htwin.heap.closed (hvs v hv)
  exact (htwin.heap.cell a ha).trans hcell

theorem Twins.answers (h : Twins [] m m') {entry : Int} {d : Datum}
    (hanswers : m.Answers entry d) : m'.Answers entry d := by
  obtain ⟨v, after, hrun, hv⟩ := hanswers
  have hlinked : Linked Twins (fun v => [v]) (m.runEntry entry) (m'.runEntry entry) :=
    twins_congruence.runEntry h trivial
  rcases hlinked.cases with ⟨f, left, right, hleft, _⟩ |
    ⟨u, left, right, hleft, hright, htwins⟩
  · cases hrun.symm.trans hleft
  · cases hrun.symm.trans hleft
    exact ⟨v, right, hright, htwins.represents List.mem_cons_self hv⟩

theorem Twins.faults (h : Twins [] m m') {entry : Int} {cause : Cause}
    (hfaults : m.Faults entry cause) : m'.Faults entry cause := by
  obtain ⟨f, after, hrun, hcause⟩ := hfaults
  have hlinked : Linked Twins (fun v => [v]) (m.runEntry entry) (m'.runEntry entry) :=
    twins_congruence.runEntry h trivial
  rcases hlinked.cases with ⟨g, left, right, hleft, hright, _⟩ |
    ⟨u, left, right, hleft, _⟩
  · cases hrun.symm.trans hleft
    exact ⟨f, right, hright, hcause⟩
  · cases hrun.symm.trans hleft

/-- Collections do not change how a run of the code at an entry ends. -/
theorem Twins.fits (h : Twins [] m m') {entry : Int} {o : Outcome Datum}
    (hfits : m.Fits entry o) : m'.Fits entry o := by
  cases o with
  | value d => exact h.answers hfits
  | stuck why => exact h.faults hfits
  | unfinished => exact hfits

variable {e : Expr} {l : Lir} {entry : Nat} {globals : Symbol → Option Datum}

/-- An expression that is lowered and compiled stands at its entry. -/
theorem Stable.holds (h : Stable vs m) (hlower : m.lower e = .ok l)
    (hentry : (m.compileEntry l).1.entry = .ok entry) (hknows : m.Knows globals) :
    (m.compileEntry l).2.Holds entry e globals := by
  rcases m.compileEntry_cases l with ⟨tree, f, heq⟩ | ⟨tree, is, hopen, hcode, heq⟩
  · rw [heq] at hentry
    cases hentry
  · have hsound := h.sound hopen
    obtain ⟨older, holder⟩ := hsound.laid
    obtain ⟨log, hextended⟩ := m.extended_eq "compile" is
    obtain ⟨valueCode, hvalue, rfl⟩ := Lir.generateEntry_eq_ok hcode
    rw [lower, if_neg (by simp [hopen]), Lir.lower] at hlower
    rw [heq] at hentry ⊢
    cases hentry
    dsimp only
    rw [hextended]
    refine ⟨hopen, ⟨valueCode, ?_, Code.at_append holder⟩, hsound.index, ?_⟩
    · cases hlowered : Lir.lowerFrom m.globals.isDeclared [] 0 e with
      | error f =>
          rw [hlowered] at hlower
          cases hlower
      | ok result =>
          rw [hlowered] at hlower
          cases hlower
          have hfresh : Lir.Scope.Fresh [] 0 := ⟨List.nodup_nil, by simp⟩
          exact .intro rfl hfresh hlowered hvalue
    · intro s i hi
      obtain ⟨g, hg, hdefined, hundefined⟩ := hknows s i hi
      refine ⟨g, hg, fun hassigned => ?_, hundefined⟩
      obtain ⟨d, hd, hv⟩ := hdefined hassigned
      exact ⟨d, hd, hv.extend (by simp [Code.append])⟩

/-- With large bounds, a run of the code ends as the evaluation does. -/
theorem Holds.eventually (h : m.Holds entry e globals) (htwins : Twins [] m m)
    {o : Outcome Datum} (heval : e.Evaluates globals o) (hfinished : o ≠ .unfinished) :
    m.Eventually fun z => z.Fits entry o := by
  obtain ⟨n, hn⟩ := h.fits_of_ample heval hfinished
  refine ⟨n, fun limits horizon hample hhorizon => ?_⟩
  refine (htwins.bounded limits horizon).fits ?_
  exact hn _ ⟨rfl, rfl, rfl, rfl⟩ h.isOpen (m.quiet_hoarding limits horizon)
    ⟨hample.args, hample.returns, hample.steps⟩ hhorizon

/-- Whatever its bounds are, a run of the code ends as the evaluation does or is cut
off. -/
theorem Holds.ends (h : m.Holds entry e globals) (htwins : Twins [] m m)
    (limits : Limits) (horizon : Nat) :
    (∃ o, e.Evaluates globals o ∧ (m.bounded limits horizon).Fits entry o) ∨
      ∃ cause ∈ cutCauses, (m.bounded limits horizon).Faults entry cause := by
  have hbounded := htwins.bounded limits horizon
  have hsame : (m.atEntry entry).Same ((m.hoarding limits horizon).atEntry entry) :=
    ⟨rfl, rfl, rfl, rfl⟩
  rcases h.fits_or_cut hsame h.isOpen (m.quiet_hoarding limits horizon) with
    ⟨o, heval, hfits⟩ | ⟨cause, hcause, hfaults⟩
  · exact Or.inl ⟨o, heval, hbounded.fits hfits⟩
  · exact Or.inr ⟨cause, hcause, hbounded.faults hfaults⟩

theorem Faults.unique {entry : Int} {cause cause' : Cause} (h : m.Faults entry cause)
    (h' : m.Faults entry cause') : cause' = cause := by
  obtain ⟨f, after, hrun, rfl⟩ := h
  obtain ⟨f', after', hrun', rfl⟩ := h'
  cases hrun.symm.trans hrun'
  rfl

theorem Faults.not_answers {entry : Int} {cause : Cause} {d : Datum}
    (h : m.Faults entry cause) : ¬ m.Answers entry d := by
  rintro ⟨v, after, hrun, _⟩
  obtain ⟨f, after', hrun', _⟩ := h
  cases hrun.symm.trans hrun'

theorem Answers.unique {entry : Int} {d d' : Datum} (hplain : d.Plain)
    (h : m.Answers entry d) (h' : m.Answers entry d') : d' = d := by
  obtain ⟨v, after, hrun, hv⟩ := h
  obtain ⟨v', after', hrun', hv'⟩ := h'
  cases hrun.symm.trans hrun'
  exact hv.unique hplain hv'

/-- Where a run answers data without functions, the expression evaluates to them. -/
theorem Holds.plain (h : m.Holds entry e globals) (htwins : Twins [] m m) {d : Datum}
    (hplain : d.Plain) {limits : Limits} {horizon : Nat}
    (hanswers : (m.bounded limits horizon).Answers entry d) :
    e.Evaluates globals (.value d) := by
  rcases h.ends htwins limits horizon with ⟨o, heval, hfits⟩ | ⟨cause, _, hcut⟩
  · cases o with
    | value d' =>
        have heq : d' = d := hanswers.unique hplain hfits
        rwa [heq] at heval
    | stuck why => exact absurd hanswers (Faults.not_answers hfits)
    | unfinished => exact hfits.elim
  · exact absurd hanswers hcut.not_answers

/-- Where a run faults for the reason of a stuck evaluation, the evaluation is stuck for
that reason. -/
theorem Holds.stuck (h : m.Holds entry e globals) (htwins : Twins [] m m) {why : Stuck}
    {limits : Limits} {horizon : Nat}
    (hfaults : (m.bounded limits horizon).Faults entry why.cause) :
    e.Evaluates globals (.stuck why) := by
  rcases h.ends htwins limits horizon with ⟨o, heval, hfits⟩ | ⟨cause, hcause, hcut⟩
  · cases o with
    | value d => exact absurd hfits hfaults.not_answers
    | stuck why' =>
        have hwhy : why' = why := Stuck.cause_injective (hfaults.unique hfits)
        rwa [hwhy] at heval
    | unfinished => exact hfits.elim
  · rw [hfaults.unique hcut] at hcause
    cases why <;> simp [cutCauses, Stuck.cause] at hcause

end Machine

namespace Session

variable (owner : Nat) (limits : Limits) (logLevel : Option LogLevel)
  (watch : Option Watch) (horizon : Nat)

/-- Compiled code is correct.  Whatever a host has asked for before, take an expression
that is lowered and compiled while the globals that have been assigned stand for data.
When its bounds are large enough, a run of its code answers a value that stands for what
the expression evaluates to, or faults for the reason for which the evaluation is stuck.
Conversely, whatever its bounds are, a run that is not cut off by them answers a value
that stands for what the expression evaluates to, or faults for the reason for which the
evaluation is stuck.  Functions with the same code have the same values, so only data
without functions can be told from the value. -/
theorem compiled_code_correct [Yaml.Parser] (requests : List Request) (e : Expr) (l : Lir)
    (entry : Nat) (globals : Symbol → Option Datum) :
    let s := (fresh owner limits logLevel watch horizon).after requests
    let m := (s.machine.compileEntry l).2
    s.machine.lower e = .ok l → (s.machine.compileEntry l).1.entry = .ok entry →
    s.machine.Knows globals →
    (∀ d, e.Evaluates globals (.value d) → m.Eventually fun z => z.Answers entry d) ∧
      (∀ d, d.Plain → (m.Eventually fun z => z.Answers entry d) →
        e.Evaluates globals (.value d)) ∧
      (∀ why, e.Evaluates globals (.stuck why) ↔
        m.Eventually fun z => z.Faults entry why.cause) ∧
      ∀ limits horizon,
        let z := m.bounded limits horizon
        (∃ d, e.Evaluates globals (.value d) ∧ z.Answers entry d) ∨
        (∃ why, e.Evaluates globals (.stuck why) ∧ z.Faults entry why.cause) ∨
        ∃ cause ∈ Machine.cutCauses, z.Faults entry cause := by
  intro s m hlower hentry hknows
  have hstable : Machine.Stable [] s.machine :=
    ((inOrder_fresh owner limits logLevel watch horizon).after
      Machine.inOrder_congruence requests).2.machine.2
  have hholds : m.Holds entry e globals := hstable.holds hlower hentry hknows
  have htwins : Machine.Twins [] m m := by
    have hafter := ((twins_fresh owner limits logLevel watch horizon limits.threshold?
      limits.threshold?).after Machine.twins_congruence requests).2.machine
    exact (Machine.twins_congruence.compileEntry hafter l).2.machine
  refine ⟨?_, ?_, ?_, ?_⟩
  · intro d heval
    exact hholds.eventually htwins heval (by simp)
  · intro d hplain hanswers
    obtain ⟨limits, horizon, hanswer⟩ := hanswers.exists
    exact hholds.plain htwins hplain hanswer
  · intro why
    constructor
    · intro heval
      exact hholds.eventually htwins heval (by simp)
    · intro hfaults
      obtain ⟨limits, horizon, hfault⟩ := hfaults.exists
      exact hholds.stuck htwins hfault
  · intro limits horizon z
    rcases hholds.ends htwins limits horizon with ⟨o, heval, hfits⟩ | hcut
    · cases o with
      | value d => exact Or.inl ⟨d, heval, hfits⟩
      | stuck why => exact Or.inr (Or.inl ⟨why, heval, hfits⟩)
      | unfinished => exact hfits.elim
    · exact Or.inr (Or.inr hcut)

/-- The table with the global `g`, which is not assigned. -/
def onlyG : Globals where
  entries := #[{ symbol := ⟨0, "g"⟩ }]
  index := (({} : Globals).declare ⟨0, "g"⟩).2.index

theorem declare_onlyG : ({} : Globals).declare ⟨0, "g"⟩ = (.ok ⟨0, true⟩, onlyG) := by
  have hslot : ({} : Globals).slot? ⟨0, "g"⟩ = none := by simp [Globals.slot?]
  rw [onlyG, Globals.declare, hslot]
  rfl

theorem index_onlyG : onlyG.index = ({} : Globals).index.insert ⟨0, "g"⟩ 0 := by
  have hslot : ({} : Globals).slot? ⟨0, "g"⟩ = none := by simp [Globals.slot?]
  rw [onlyG, Globals.declare, hslot]
  rfl

theorem slot?_onlyG : onlyG.slot? ⟨0, "g"⟩ = some 0 := by
  simp [index_onlyG, Globals.slot?]

theorem isDeclared_onlyG : onlyG.isDeclared ⟨0, "g"⟩ = true := by
  simp [index_onlyG, Globals.isDeclared]

theorem eq_of_slot?_onlyG {symbol : Symbol} {i : Nat} (h : onlyG.slot? symbol = some i) :
    symbol = ⟨0, "g"⟩ ∧ i = 0 := by
  rw [Globals.slot?, index_onlyG, Std.ExtHashMap.getElem?_insert] at h
  split at h
  · rename_i heq
    cases h
    exact ⟨(eq_of_beq heq).symm, rfl⟩
  · simp at h

/-- The machine after `g` has been defined as 5, which has not been evaluated. -/
def definingG : Machine :=
  (({ (fresh 0 {} none none 40).machine with globals := onlyG }.extended "define"
    [.int64 5, .setGlobal 0, .ret]).entryHandle 0).2

theorem define_onlyG [Yaml.Parser] :
    ((fresh 0 {} none none 40).perform (.define "g" (.int {} 5))).2.machine = definingG := by
  have hcode : (Lir.generateDefinition onlyG.slot? ⟨0, "g"⟩ (.int 5)).code =
      .ok [.int64 5, .setGlobal 0, .ret] := by
    rw [Lir.generateDefinition, slot?_onlyG]
    rfl
  have hframe : (fresh 0 {} none none 40).machine.handles.depth ≠ 0 := by decide +kernel
  have hdefine : (fresh 0 {} none none 40).machine.define ⟨0, "g"⟩ (.int {} 5) = _ :=
    Machine.define_of_lowered rfl hframe declare_onlyG rfl hcode
  exact congrArg Prod.snd hdefine

/-- Evaluating the definition assigns `g`. -/
theorem evaluate_definingG :
    (definingG.call ⟨0, 0, 0, 1⟩ []).2.globals.entries =
        #[{ symbol := ⟨0, "g"⟩, value := .int 5, defined := true }] ∧
      (definingG.call ⟨0, 0, 0, 1⟩ []).2.globals.slot? = onlyG.slot? := by
  have hentries : (definingG.call ⟨0, 0, 0, 1⟩ []).2.globals.entries =
      #[{ symbol := ⟨0, "g"⟩, value := .int 5, defined := true }] := by
    decide +kernel
  have hvalue : definingG.value ⟨0, 0, 0, 1⟩ = .ok (.ref .closure 0) := rfl
  have hrun : ⟨definingG, .ref .closure 0, []⟩ ∈ definingG.callRuns ⟨0, 0, 0, 1⟩ [] := by
    rw [Machine.callRuns, hvalue]
    exact List.mem_singleton_self _
  have hglobals : (definingG.call ⟨0, 0, 0, 1⟩ []).2.globals =
      (definingG.run (.ref .closure 0) []).2.globals := by
    rw [Machine.call_of_mem_callRuns hrun]
    rcases definingG.run (.ref .closure 0) [] with ⟨f | v, last⟩
    · rfl
    · dsimp only [Machine.addHandle]
      split <;> rfl
  have hextends := (definingG.evaluated_run (.ref .closure 0) []).globals _ (.refl _)
  refine ⟨hentries, funext fun symbol => hglobals ▸ hextends.index symbol ?_⟩
  have hsize : definingG.globals.size = 1 := rfl
  simp [← hglobals, hentries, hsize]

/-- Where a global `g` is declared but not assigned, code applies the function that `f ↦ f`
gives for `x ↦ (x, 7)` to 3, and code reads `g` in a function.  Where `g` has been assigned
5, code applies `x ↦ (x, g)` to 3. -/
theorem compiled_code_correct_declared :
    let s := (fresh 0 {} none none 0).after [.declare "g"]
    let t := (fresh 0 {} none none 40).after [.define "g" (.int {} 5), .evaluate ⟨0, 0, 0, 1⟩]
    let five := fun symbol => if symbol = ⟨0, "g"⟩ then some (Datum.int 5) else none
    let pair : Lir := .lam 1 (.block Lir.tupleKind [.var 1 0, .int 7])
    let applied : Lir := .app (.app (.lam 0 (.var 0 0)) pair) (.int 3)
    let reading : Lir := .app (.lam 0 (.global ⟨0, "g"⟩)) (.int 3)
    let pairing : Lir :=
      .app (.lam 0 (.block Lir.tupleKind [.var 0 0, .global ⟨0, "g"⟩])) (.int 3)
    s.machine.Knows (fun _ => none) ∧ t.machine.Knows five ∧
      ((s.machine.compileEntry applied).2.Eventually
        fun z => z.Answers 0 (.tuple [.int 3, .int 7])) ∧
      ((s.machine.compileEntry reading).2.Eventually
        fun z => z.Faults 0 .undefinedGlobal) ∧
      (t.machine.compileEntry pairing).2.Eventually
        fun z => z.Answers 13 (.tuple [.int 3, .int 5]) := by
  intro s t five pair applied reading pairing
  have hglobals : s.machine.globals = onlyG := congrArg Prod.snd declare_onlyG
  have hknows : s.machine.Knows fun _ => none := by
    intro symbol i hi
    rw [hglobals] at hi ⊢
    obtain ⟨rfl, rfl⟩ := eq_of_slot?_onlyG hi
    exact ⟨{ symbol := ⟨0, "g"⟩ }, rfl, by simp, by simp⟩
  have ht : t.machine = (definingG.call ⟨0, 0, 0, 1⟩ []).2 :=
    congrArg (fun m => (m.call ⟨0, 0, 0, 1⟩ []).2) define_onlyG
  obtain ⟨hentries, hslot⟩ := evaluate_definingG
  rw [← ht] at hentries hslot
  have hopen : t.machine.closed = false := by
    rw [ht]
    decide +kernel
  have hknows' : t.machine.Knows five := by
    intro symbol i hi
    rw [hslot] at hi
    obtain ⟨rfl, rfl⟩ := eq_of_slot?_onlyG hi
    rw [hentries]
    exact ⟨_, rfl, fun _ => ⟨.int 5, if_pos rfl, .int 5⟩, by simp⟩
  have hcorrect := compiled_code_correct 0 {} none none 0 [.declare "g"]
  have hcorrect' := compiled_code_correct 0 {} none none 40
    [.define "g" (.int {} 5), .evaluate ⟨0, 0, 0, 1⟩]
  refine ⟨hknows, hknows', ?_, ?_, ?_⟩
  · exact (hcorrect
      (.app {} (.app {} (.lam {} ⟨0, "f"⟩ (.var {} (some ⟨0, "f"⟩)))
        (.lam {} ⟨1, "x"⟩ (.tuple {} [.var {} (some ⟨1, "x"⟩), .int {} 7]))) (.int {} 3))
      applied 0 (fun _ => none) rfl rfl hknows).1 _ ⟨2, rfl⟩
  · have hreading := (hcorrect
      (.app {} (.lam {} ⟨0, "x"⟩ (.global {} (some ⟨0, "g"⟩))) (.int {} 3))
      reading 0 (fun _ => none) ?_ ?_ hknows).2.2.1 .undefinedGlobal
    · exact hreading.1 ⟨1, rfl⟩
    · change Lir.lower s.machine.globals.isDeclared _ = _
      rw [hglobals]
      simp only [Lir.lower, Lir.lowerFrom, Option.filter, isDeclared_onlyG, if_true]
      rfl
    · change (s.machine.compileExpr _).1.entry = _
      simp only [Machine.compileExpr_eq, hglobals, reading, Lir.generateEntry, Lir.generate,
        slot?_onlyG]
      rfl
  · have hpairing := (hcorrect'
      (.app {} (.lam {} ⟨0, "x"⟩
        (.tuple {} [.var {} (some ⟨0, "x"⟩), .global {} (some ⟨0, "g"⟩)])) (.int {} 3))
      pairing 13 five ?_ ?_ hknows').1 (.tuple [.int 3, .int 5])
    · exact hpairing ⟨3, rfl⟩
    · have hdeclared : t.machine.globals.isDeclared ⟨0, "g"⟩ = true := by
        have hsome := congrArg Option.isSome (congrFun hslot ⟨0, "g"⟩)
        rw [slot?_onlyG] at hsome
        rw [Globals.isDeclared, Std.ExtHashMap.contains_eq_isSome_getElem?]
        exact hsome
      change t.machine.lower _ = _
      rw [Machine.lower, if_neg (by simp [hopen])]
      simp only [Lir.lower, Lir.lowerFrom, Lir.lowerFields, Option.filter, hdeclared, if_true]
      rfl
    · have hsize : t.machine.code.size = 13 := by
        rw [ht]
        decide +kernel
      rw [Machine.compileEntry_of_open hopen, hslot, hsize]
      simp only [pairing, Lir.generateEntry, Lir.generate, Lir.generateFields, slot?_onlyG]
      rfl

end Session

end Zinc
