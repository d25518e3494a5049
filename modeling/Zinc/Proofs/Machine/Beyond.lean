import Zinc.Machine.Evaluate
import Zinc.Proofs.Code.Format
import Zinc.Proofs.Machine.Frame

/-!
A machine with more code and more globals than another.  What stands beyond the code and
the slots that a run uses makes no difference to it, as long as the run does not stray
there; and a run that strays stops because of code or slots that are missing.
-/

namespace Zinc

namespace Globals

/-- The table with more slots at its end. -/
def plus (g : Globals) (slots : Array Global) (index : Std.ExtHashMap Symbol Nat) : Globals :=
  ⟨g.entries ++ slots, index⟩

/-- The same symbols in as many slots. -/
structure Level (g g' : Globals) : Prop where
  size : g'.size = g.size
  index : g'.index = g.index

theorem Level.refl (g : Globals) : g.Level g :=
  ⟨rfl, rfl⟩

theorem Level.trans {g g' g'' : Globals} (hfirst : g.Level g') (hsecond : g'.Level g'') :
    g.Level g'' :=
  ⟨hsecond.size.trans hfirst.size, hsecond.index.trans hfirst.index⟩

variable {g g' : Globals} {slots : Array Global} {index : Std.ExtHashMap Symbol Nat}

theorem Level.set {i : Nat} {v : Value} (h : g.set? i v = some g') : g.Level g' := by
  obtain ⟨_, rfl⟩ := set?_eq_some h
  exact ⟨by simp [Globals.size], rfl⟩

/-- Assigning a slot leaves the slots beyond it alone. -/
theorem set?_plus {i : Nat} {v : Value} (h : g.set? i v = some g') :
    (g.plus slots index).set? i v = some (g'.plus slots index) := by
  obtain ⟨hi, rfl⟩ := set?_eq_some h
  have hinside : i < (g.plus slots index).size :=
    Nat.lt_of_lt_of_le hi (by simp [plus, Globals.size])
  rw [set?, if_pos hinside]
  congr 2
  apply Array.ext_getElem?
  intro j
  simp only [plus, Array.getElem?_modify, Array.getElem?_append, Array.size_modify]
  split
  · rename_i hij
    have hi : i < g.entries.size := hi
    rw [← hij, if_pos hi, if_pos hi]
  · rfl

theorem getElem?_plus {i : Nat} {e : Global} (h : g.entries[i]? = some e) :
    (g.plus slots index).entries[i]? = some e := by
  obtain ⟨hi, _⟩ := Array.getElem?_eq_some_iff.1 h
  rw [plus, Array.getElem?_append_left hi, h]

end Globals

namespace Code

variable {c : Code} {more : List UInt8}

/-- What is read from the code is read from longer code. -/
theorem fetch_append {pc : Int} {i : Instr} (h : c.fetch pc = .instr i) :
    (c.append more).fetch pc = .instr i := by
  obtain ⟨n, rfl⟩ : ∃ n : Nat, pc = n := by
    rw [fetch] at h
    split at h
    · cases h
    · rename_i hbyte
      exact offset_of_byte? hbyte
  have hdrop := drop_of_fetch h
  have hinside : n ≤ c.bytes.toList.length := by
    apply Nat.le_of_lt
    apply Nat.lt_of_not_le
    intro hout
    rw [List.drop_of_length_le hout] at hdrop
    simp [Instr.encode] at hdrop
  have hlonger : (c.append more).bytes.toList.drop n =
      i.encode ++ (c.bytes.toList.drop (n + i.size) ++ more) := by
    rw [toList_append, List.drop_append_of_le_length hinside, hdrop, List.append_assoc]
  exact fetch_of_drop hlonger

end Code

/-- What a machine has beyond another: code at the end, slots at the end with the index of
the whole table, and records that a run does not read. -/
structure Surplus where
  code : List UInt8
  slots : Array Global
  index : Std.ExtHashMap Symbol Nat
  saved : Array Global
  log : Array Record

/-- The machine with something beyond it. -/
def Machine.beyond (m : Machine) (x : Surplus) : Machine :=
  { m with
    code := m.code.append x.code
    globals := m.globals.plus x.slots x.index
    saved := x.saved
    log := x.log }

/-- A step of the machine with something beyond it. -/
def Progress.beyond (x : Surplus) : Progress → Progress
  | .running m => .running (m.beyond x)
  | .finished m => .finished (m.beyond x)
  | .faulted f m => .faulted f (m.beyond x)

/-- The causes of a run that has left the code or the slots of its machine. -/
def strayCauses : List Cause :=
  [.truncated, .badOpcode, .unknownGlobal]

/-- The step has left the code or the slots of its machine. -/
def Progress.Strays : Progress → Prop
  | .faulted f _ => f.cause ∈ strayCauses
  | _ => False

namespace Machine

/-- A step takes the same course with something beyond the machine, unless it strays there;
and the table stays level with `g`. -/
structure Unaffected (x : Surplus) (g : Globals) (p p' : Progress) : Prop where
  level : p.After fun m => g.Level m.globals
  same : p.Strays ∨ p' = p.beyond x

variable {x : Surplus} {g : Globals} {m : Machine}

theorem Unaffected.andThen {p p' : Progress} {k : Machine → Progress}
    (hp : Unaffected x g p p')
    (hk : ∀ m, g.Level m.globals → Unaffected x g (k m) (k (m.beyond x))) :
    Unaffected x g (p.andThen k) (p'.andThen k) := by
  obtain ⟨hlevel, hstrays | rfl⟩ := hp
  · cases p with
    | faulted f m => exact ⟨hlevel, Or.inl hstrays⟩
    | running m => exact hstrays.elim
    | finished m => exact hstrays.elim
  · cases p with
    | running m => exact hk m hlevel
    | finished m => exact ⟨hlevel, Or.inr rfl⟩
    | faulted f m => exact ⟨hlevel, Or.inr rfl⟩

theorem unaffected_running (h : g.Level m.globals) :
    Unaffected x g (.running m) (.running (m.beyond x)) :=
  ⟨h, Or.inr rfl⟩

theorem unaffected_fail (h : g.Level m.globals) (kind : FaultKind) (cause : Cause)
    (detail : Option String) :
    Unaffected x g (m.fail kind cause detail) ((m.beyond x).fail kind cause detail) :=
  ⟨h, Or.inr rfl⟩

/-- Whatever is done beyond the machine, a step that strays does not follow. -/
theorem unaffected_stray (h : g.Level m.globals) (kind : FaultKind) {cause : Cause}
    (detail : Option String) (hcause : cause ∈ strayCauses) (p' : Progress) :
    Unaffected x g (m.fail kind cause detail) p' :=
  ⟨h, Or.inl hcause⟩

theorem unaffected_pushArg (h : g.Level m.globals) (v : Value) :
    Unaffected x g (m.pushArg v) ((m.beyond x).pushArg v) := by
  unfold pushArg
  by_cases hfull : m.limits.argStack ≤ m.regs.args.depth
  · rw [if_pos hfull, if_pos (by exact hfull)]
    exact unaffected_fail h _ _ _
  · rw [if_neg hfull, if_neg (by exact hfull)]
    exact ⟨h, Or.inr rfl⟩

theorem unaffected_pushReturn (h : g.Level m.globals) (e : ReturnEntry) :
    Unaffected x g (m.pushReturn e) ((m.beyond x).pushReturn e) := by
  unfold pushReturn
  by_cases hfull : m.limits.returnStack ≤ m.regs.returns.depth
  · rw [if_pos hfull, if_pos (by exact hfull)]
    exact unaffected_fail h _ _ _
  · rw [if_neg hfull, if_neg (by exact hfull)]
    exact ⟨h, Or.inr rfl⟩

theorem unaffected_jump (h : g.Level m.globals) (callee : Value) :
    Unaffected x g (m.jump callee) ((m.beyond x).jump callee) := by
  rcases m.jump_cases callee with ⟨a, rfl, hsize, heq⟩ | ⟨hnot, heq⟩
  · have hother : (m.beyond x).jump (.ref .closure a) = .running { m.beyond x with
        regs := { m.regs with
          env := m.heap.field a 0, pc := (m.heap.field a 1).asOffset } } :=
      if_pos hsize
    rw [heq, hother]
    exact ⟨h, Or.inr rfl⟩
  · rcases (m.beyond x).jump_cases callee with ⟨a, rfl, hsize, _⟩ | ⟨_, heq'⟩
    · exact absurd hsize (hnot a rfl)
    · rw [heq, heq']
      exact unaffected_fail h _ _ _

theorem unaffected_leave (h : g.Level m.globals) :
    Unaffected x g m.leave (m.beyond x).leave := by
  unfold leave
  dsimp only [beyond, dropExtras]
  split
  · exact ⟨h, Or.inr rfl⟩
  · exact ⟨h, Or.inr rfl⟩
  · exact ⟨h, Or.inr rfl⟩

theorem unaffected_makeTuple (h : g.Level m.globals) (n : Nat) :
    Unaffected x g (m.makeTuple n) ((m.beyond x).makeTuple n) := by
  unfold makeTuple
  dsimp only [beyond]
  by_cases hshort : m.regs.args.depth < n
  · simp only [hshort, if_true]
    exact ⟨h, Or.inr rfl⟩
  · simp only [hshort, if_false]
    exact ⟨h, Or.inr rfl⟩

theorem unaffected_execute (h : g.Level m.globals) (i : Instr) :
    Unaffected x g (m.execute i) ((m.beyond x).execute i) := by
  cases i with
  | int64 value => exact unaffected_running h
  | push => exact unaffected_pushArg h _
  | pushMark => exact unaffected_pushArg h _
  | access index =>
      have hlocal : (m.beyond x).local? index.toNat = m.local? index.toNat := rfl
      unfold execute
      dsimp only
      rw [hlocal]
      cases m.local? index.toNat with
      | some v => exact ⟨h, Or.inr rfl⟩
      | none => exact unaffected_fail h _ _ _
  | closure length =>
      unfold execute
      dsimp only
      by_cases hshort : (m.code.size : Int) < m.regs.pc + length.toNat
      · rw [if_pos hshort]
        exact unaffected_stray h _ _ (by simp [strayCauses]) _
      · have hlong : ¬ ((m.beyond x).code.size : Int) <
            (m.beyond x).regs.pc + length.toNat := by
          have hsize : (m.beyond x).code.size = m.code.size + x.code.length :=
            Code.size_append
          have hpc : (m.beyond x).regs.pc = m.regs.pc := rfl
          omega
        rw [if_neg hshort, if_neg hlong]
        exact ⟨h, Or.inr rfl⟩
  | apply =>
      exact (unaffected_pushReturn h _).andThen fun m' hm' =>
        unaffected_jump (m := { m' with regs := { m'.regs with extra := 0 } }) hm' _
  | appTerm => exact unaffected_jump (m := m.dropExtras) h _
  | grab =>
      have htop : (m.beyond x).regs.args.top? = m.regs.args.top? := rfl
      unfold execute
      dsimp only
      rw [htop]
      cases m.regs.args.top? with
      | none => exact unaffected_fail h _ _ _
      | some v =>
          dsimp only
          split
          · exact unaffected_leave (m := m.loadClosure m.started.offset) h
          · refine Unaffected.andThen (unaffected_pushReturn (m := { m with
              regs := { m.regs with args := m.regs.args.drop 1 } }) h _) fun m' hm' => ?_
            exact ⟨hm', Or.inr rfl⟩
  | ret =>
      have htop : (m.beyond x).regs.args.top? = m.regs.args.top? := rfl
      unfold execute
      dsimp only
      rw [htop]
      cases m.regs.args.top? with
      | none => exact unaffected_fail h _ _ _
      | some v =>
          dsimp only
          split
          · exact unaffected_leave h
          · exact unaffected_jump (m := m.dropExtras) h _
  | makeBlock n => exact unaffected_makeTuple h _
  | bind =>
      refine (unaffected_pushReturn h _).andThen fun m' hm' => ?_
      exact ⟨hm', Or.inr rfl⟩
  | unbind =>
      unfold execute
      by_cases hnone : m.regs.extra = 0
      · rw [if_pos hnone, if_pos (by exact hnone)]
        exact unaffected_fail h _ _ _
      · rw [if_neg hnone, if_neg (by exact hnone)]
        exact ⟨h, Or.inr rfl⟩
  | setGlobal slot =>
      unfold execute
      dsimp only
      cases hset : m.globals.set? slot.toNat m.regs.acc with
      | none => exact unaffected_stray h _ _ (by simp [strayCauses]) _
      | some globals =>
          have hset' : (m.beyond x).globals.set? slot.toNat (m.beyond x).regs.acc =
              some (globals.plus x.slots x.index) := Globals.set?_plus hset
          rw [hset']
          exact ⟨h.trans (.set hset), Or.inr rfl⟩
  | getGlobal slot =>
      unfold execute
      dsimp only
      cases hentry : m.globals.entries[slot.toNat]? with
      | none => exact unaffected_stray h _ _ (by simp [strayCauses]) _
      | some e =>
          have hentry' : (m.beyond x).globals.entries[slot.toNat]? = some e :=
            Globals.getElem?_plus hentry
          rw [hentry']
          dsimp only
          split
          · exact ⟨h, Or.inr rfl⟩
          · exact unaffected_fail h _ _ _

/-- An instruction does the same with something beyond the machine. -/
theorem unaffected_step (h : g.Level m.globals) :
    Unaffected x g m.step (m.beyond x).step := by
  rw [step_eq, step_eq]
  cases hfetch : m.code.fetch m.regs.pc with
  | outside => exact ⟨h, Or.inl (show Cause.truncated ∈ strayCauses by simp [strayCauses])⟩
  | unknown b => exact ⟨h, Or.inl (show Cause.badOpcode ∈ strayCauses by simp [strayCauses])⟩
  | cut op => exact ⟨h, Or.inl (show Cause.truncated ∈ strayCauses by simp [strayCauses])⟩
  | instr i =>
      have hfetch' : (m.beyond x).code.fetch (m.beyond x).regs.pc = .instr i :=
        Code.fetch_append hfetch
      rw [hfetch']
      exact unaffected_execute (m := m.fetched i) h i

/-- The machine never collects on its own. -/
def Idle (m : Machine) : Prop :=
  m.limits.threshold ≤ 0

theorem collectIfFull_of_idle (h : m.Idle) : m.collectIfFull = m :=
  if_neg fun hfull => absurd h (Int.not_le.2 hfull.1)

theorem beyond_traced (m : Machine) (x : Surplus) :
    ∃ log log', m.traced = { m with log := log } ∧
      (m.beyond x).traced = m.beyond { x with log := log' } := by
  unfold traced
  by_cases htrace : (m.limits.trace && m.logLevel == some .debug) = true
  · rw [if_pos htrace, if_pos (by exact htrace)]
    unfold logged
    dsimp only [beyond]
    split
    · exact ⟨_, _, rfl, rfl⟩
    · exact ⟨m.log, x.log, rfl, rfl⟩
  · rw [if_neg htrace, if_neg (by exact htrace)]
    exact ⟨m.log, x.log, rfl, rfl⟩

theorem beyond_askWatch (m : Machine) (x : Surplus) :
    ∃ stop watch, m.askWatch = (stop, { m with watch := watch }) ∧
      (m.beyond x).askWatch = (stop, { m with watch := watch }.beyond x) := by
  unfold askWatch
  dsimp only [beyond]
  split
  · exact ⟨none, m.watch, rfl, rfl⟩
  · split
    · exact ⟨_, m.watch, rfl, rfl⟩
    · exact ⟨none, _, rfl, rfl⟩

/-- What happens before an instruction is the same with something beyond the machine, but
for the log. -/
theorem beyond_ready (h : m.Idle) (x : Surplus) :
    ∃ stop watch log log', m.ready = (stop, { m with watch := watch, log := log }) ∧
      (m.beyond x).ready =
        (stop, { m with watch := watch }.beyond { x with log := log' }) := by
  unfold ready
  by_cases hlimit : 0 < m.limits.maxSteps ∧ m.limits.maxSteps ≤ m.usage.steps
  · rw [if_pos hlimit, if_pos (by exact hlimit)]
    exact ⟨_, m.watch, m.log, x.log, rfl, rfl⟩
  · have hlimit' : ¬ (0 < (m.beyond x).limits.maxSteps ∧
        (m.beyond x).limits.maxSteps ≤ (m.beyond x).usage.steps) := hlimit
    rw [if_neg hlimit, if_neg hlimit']
    obtain ⟨stop, watch, hask, hask'⟩ : ∃ stop watch,
        (if m.usage.steps % watchPeriod = 0 then m.askWatch else (none, m)) =
            (stop, { m with watch := watch }) ∧
          (if (m.beyond x).usage.steps % watchPeriod = 0 then (m.beyond x).askWatch
            else (none, m.beyond x)) = (stop, { m with watch := watch }.beyond x) := by
      by_cases hperiod : m.usage.steps % watchPeriod = 0
      · rw [if_pos hperiod, if_pos (by exact hperiod)]
        exact m.beyond_askWatch x
      · rw [if_neg hperiod, if_neg (by exact hperiod)]
        exact ⟨none, m.watch, rfl, rfl⟩
    rw [hask, hask']
    cases stop with
    | some f => exact ⟨some f, watch, m.log, x.log, rfl, rfl⟩
    | none =>
        have hidle : Idle { m with watch := watch } := h
        have hidle' : Idle ({ m with watch := watch }.beyond x) := h
        obtain ⟨log, log', htraced, htraced'⟩ := beyond_traced { m with watch := watch } x
        dsimp only
        rw [collectIfFull_of_idle hidle, collectIfFull_of_idle hidle', htraced, htraced']
        exact ⟨none, watch, log, log', rfl, rfl⟩

/-- An evaluation answers the same with something beyond the machine, unless it strays
there; and the table stays level with `g`. -/
structure Echoes {α : Type} (x : Surplus) (g : Globals) (r r' : Reply α) : Prop where
  level : g.Level r.2.globals
  same : (∃ f, r.1 = .error f ∧ f.cause ∈ strayCauses) ∨
    ∃ log, r' = (r.1, r.2.beyond { x with log := log })

theorem echoes_loop (fuel : Nat) (hidle : m.Idle) (h : g.Level m.globals) (x : Surplus) :
    Echoes x g (loop fuel m) (loop fuel (m.beyond x)) := by
  induction fuel generalizing m x with
  | zero => exact ⟨h, Or.inr ⟨x.log, rfl⟩⟩
  | succ fuel ih =>
      obtain ⟨stop, watch, log, log', hready, hready'⟩ := beyond_ready hidle x
      unfold loop
      rw [hready, hready']
      cases stop with
      | some f => exact ⟨h, Or.inr ⟨log', rfl⟩⟩
      | none =>
          dsimp only
          -- the log of the machine itself is covered by that of the surplus
          have hcounted : ({ m with watch := watch }.beyond { x with log := log' }).counted =
              { m with watch := watch, log := log }.counted.beyond
                { x with log := log' } := rfl
          have hstepped := { m with watch := watch, log := log }.counted.stepped_step
          obtain ⟨hlevel, hsame⟩ := unaffected_step (x := { x with log := log' })
            (m := { m with watch := watch, log := log }.counted) h
          rw [hcounted]
          generalize { m with watch := watch, log := log }.counted.step = p at *
          rcases hsame with hstrays | heq
          · cases p with
            | faulted f last => exact ⟨hlevel, Or.inl ⟨f, rfl, hstrays⟩⟩
            | running next => exact hstrays.elim
            | finished last => exact hstrays.elim
          · rw [heq]
            cases p with
            | running next =>
                have hnext : next.Idle := by
                  rw [Idle, hstepped.limits]
                  exact hidle
                have hrest := ih hnext hlevel { x with log := log' }
                exact ⟨hrest.level, hrest.same⟩
            | finished last => exact ⟨hlevel, Or.inr ⟨log', rfl⟩⟩
            | faulted f last => exact ⟨hlevel, Or.inr ⟨log', rfl⟩⟩

theorem unaffected_pushArgs (h : g.Level m.globals) (vs : List Value) :
    Unaffected x g (m.pushArgs vs) ((m.beyond x).pushArgs vs) := by
  induction vs generalizing m with
  | nil => exact unaffected_running h
  | cons v rest ih => exact (unaffected_pushArg h v).andThen fun m' hm' => ih hm'

theorem unaffected_enter (h : g.Level m.globals) (callee : Value) (args : List Value) :
    Unaffected x g (m.enter callee args) ((m.beyond x).enter callee args) :=
  (unaffected_pushArgs (m := { m with usage := {} }.clearRegisters) h _).andThen
    fun _ hm' => unaffected_jump hm' callee

/-- A whole run answers the same with something beyond the machine. -/
theorem echoes_run (hidle : m.Idle) (h : g.Level m.globals) (x : Surplus) (callee : Value)
    (args : List Value) : Echoes x g (m.run callee args) ((m.beyond x).run callee args) := by
  have hclear {r r' : Reply Value} (hr : Echoes x g r r') :
      Echoes x g (r.1, r.2.clearRegisters) (r'.1, r'.2.clearRegisters) := by
    obtain ⟨hlevel, hstrays | ⟨log, rfl⟩⟩ := hr
    · exact ⟨hlevel, Or.inl hstrays⟩
    · exact ⟨hlevel, Or.inr ⟨log, rfl⟩⟩
  have hstepped := m.stepped_enter callee args
  obtain ⟨hlevel, hsame⟩ := unaffected_enter (x := x) h callee args
  unfold run
  generalize m.enter callee args = p at *
  rcases hsame with hstrays | heq
  · cases p with
    | faulted f last => exact ⟨hlevel, Or.inl ⟨f, rfl, hstrays⟩⟩
    | running next => exact hstrays.elim
    | finished last => exact hstrays.elim
  · rw [heq]
    cases p with
    | running next =>
        have hnext : next.Idle := by
          rw [Idle, hstepped.limits]
          exact hidle
        exact hclear (echoes_loop next.horizon hnext hlevel x)
    | finished last => exact ⟨hlevel, Or.inr ⟨x.log, rfl⟩⟩
    | faulted f last => exact ⟨hlevel, Or.inr ⟨x.log, rfl⟩⟩

theorem echoes_runEntry (hidle : m.Idle) (x : Surplus) (entry : Int) :
    Echoes x m.globals (m.runEntry entry) ((m.beyond x).runEntry entry) := by
  unfold runEntry whenOpen
  by_cases hclosed : m.closed = true
  · rw [if_pos hclosed, if_pos (by exact hclosed)]
    exact ⟨.refl _, Or.inr ⟨x.log, rfl⟩⟩
  · rw [if_neg hclosed, if_neg (by exact hclosed)]
    exact echoes_run (m := (m.topClosure entry).2) hidle (.refl _) x _ []

theorem beyond_newHandle (m : Machine) (x : Surplus) (v : Value) :
    (m.beyond x).newHandle v = ((m.newHandle v).1, (m.newHandle v).2.beyond x) := by
  have hhandles : (m.beyond x).handles = m.handles := rfl
  unfold newHandle whenOpen addHandle
  by_cases hclosed : m.closed = true
  · rw [if_pos hclosed, if_pos (by exact hclosed)]
  · rw [if_neg hclosed, if_neg (by exact hclosed)]
    dsimp only
    rw [hhandles]
    cases m.handles.add v <;> rfl

end Machine

end Zinc
