import Zinc.Proofs.Machine.Role

/-!
The course of a step.  Calls keep to their roles: data of a call for a definition stays in
the calm part of the heap, and a global is assigned by nothing but the call of its
definition, whose next instruction is a return.
-/

namespace Zinc.Machine

/-- The machine is at the end of its outermost call, with no argument left. -/
structure Ending (m : Machine) : Prop where
  fetch : m.code.fetch m.regs.pc = .instr .ret
  args : m.regs.args.items = [.mark]
  returns : m.regs.returns.items.drop m.regs.extra = []

/-- What a step does to a machine with the globals `g` and `acc` in the accumulator, whose
current call is in the role `r` with calls in the roles `rs` below it. -/
inductive Course (grant : Nat → UInt16 → Prop) (z : Zones) (r : Role) (rs : List Role)
    (g : Globals) (acc : Value) : Progress → Prop where
  | goes {m : Machine} {z' : Zones} {r' : Role} {rs' : List Role} :
      m.globals = g → z.Le z' → Flowing grant z' r' rs' m → Role.Next (r :: rs) (r' :: rs') →
      Course grant z r rs g acc (.running m)
  | assigns {m : Machine} {z' : Zones} {k : UInt16} {alone : Bool} :
      r = .defining k alone → g.set? k.toNat acc = some m.globals → m.regs.acc = acc →
      z.Le z' → Flowing grant z' .free rs m → (alone = true → rs = [] → m.Ending) →
      Course grant z r rs g acc (.running m)
  | ends {m : Machine} {z' : Zones} :
      m.globals = g → r.slot = none → rs = [] → z.Le z' → z'.Fit grant m.code m.heap →
      r.Own z' m.regs.acc → Course grant z r rs g acc (.finished m)
  | fails {f : Fault} {m : Machine} : m.globals = g → Course grant z r rs g acc (.faulted f m)

variable {grant : Nat → UInt16 → Prop} {z z' : Zones} {r : Role} {rs : List Role}
  {g : Globals} {acc v : Value} {m : Machine} {n lets slots : Nat} {loaded : Bool}
  {pending : List Slot} {pushed waiting locals args top : List Value}
  {returns : List ReturnEntry} {is : List Instr} {c : Code} {regs : Registers}

/-- The code at the program counter is that of a call in the role `r`, with these locals
and this on the argument stack. -/
structure Fetched (m : Machine) (r : Role) (n lets : Nat) (loaded : Bool)
    (pending : List Slot) (is : List Instr) : Prop where
  at_pc : m.code.At m.regs.pc is
  disciplined : Disciplined m.globals.size n lets loaded pending is
  acts : m.code.Acts r.slot m.regs.pc

/-- The zones fit a machine, and what its globals hold is calm. -/
structure Zoned (grant : Nat → UInt16 → Prop) (z : Zones) (m : Machine) : Prop where
  fit : z.Fit grant m.code m.heap
  globals : ∀ g ∈ m.globals.entries, g.value.Within z.calm

theorem Zoned.global_within (h : Zoned grant z m) {g : Global} (hg : g ∈ m.globals.entries) :
    g.value.Within (r.zone z) := by
  refine (h.globals g hg).mono fun a ha => ?_
  cases r with
  | free => exact h.fit.sub a ha
  | _ => exact ha

theorem Zoned.grow (h : Zoned grant z m) (hle : z.Le z') {heap : Heap}
    (hfit : z'.Fit grant m.code heap) {x : Machine} (hx : x.code = m.code)
    (hheap : x.heap = heap) (hglobals : x.globals = m.globals) : Zoned grant z' x := by
  refine ⟨by rw [hx, hheap]; exact hfit, fun g hg => ?_⟩
  rw [hglobals] at hg
  exact (h.globals g hg).mono hle.calm

/-- The current call goes on. -/
theorem Course.stay {x : Machine} (hglobals : x.globals = g) (hle : z.Le z')
    (hzoned : Zoned grant z' x)
    (hseat : Seated x.code x.globals.size z' r rs lets pending pushed waiting locals args
      returns x.regs)
    (hacc : loaded = true → r.Own z' x.regs.acc) (hcode : x.Fetched r n lets loaded pending is) :
    Course grant z r rs g acc (.running x) :=
  .goes hglobals hle (.intro hzoned.fit hzoned.globals hseat hacc hcode.at_pc
    hcode.disciplined hcode.acts) (.stay _)

/-- Larger zones can be taken from the start. -/
theorem Course.widen {p : Progress} (h : Course grant z' r rs g acc p) (hle : z.Le z') :
    Course grant z r rs g acc p := by
  cases h with
  | goes hglobals hle' hflowing hnext => exact .goes hglobals (hle.trans hle') hflowing hnext
  | assigns hr hset hacc hle' hflowing hending =>
      exact .assigns hr hset hacc (hle.trans hle') hflowing hending
  | ends hglobals hr hrs hle' hfit hacc =>
      exact .ends hglobals hr hrs (hle.trans hle') hfit hacc
  | fails hglobals => exact .fails hglobals

theorem course_pushArg (slot : Slot) (hz : Zoned grant z m)
    (hseat : Seated m.code m.globals.size z r rs lets pending pushed waiting locals args
      returns m.regs) (hv : Slot.Fits (r.Own z) slot v)
    (hacc : loaded = true → r.Own z m.regs.acc)
    (hcode : m.Fetched r n lets loaded (slot :: pending) is) :
    Course grant z r rs m.globals acc (m.pushArg v) := by
  rw [pushArg]
  split
  · exact .fails rfl
  · have hseat' : Seated m.code m.globals.size z r rs lets (slot :: pending) (v :: pushed)
        waiting locals args returns { m.regs with args := m.regs.args.push v } :=
      { hseat with
        args_eq := congrArg (v :: ·) hseat.args_eq
        pushed := .cons hv hseat.pushed }
    exact .stay rfl (.refl z) ⟨hz.fit, hz.globals⟩ hseat' hacc
      ⟨hcode.at_pc, hcode.disciplined, hcode.acts⟩

/-- A local is bound. -/
theorem course_bind {x : Machine} (hz : Zoned grant z x)
    (hseat : Seated x.code x.globals.size z r rs lets pending pushed waiting locals args
      returns x.regs) (hv : r.Own z v) {lets' : Nat} (hlets : lets' ≤ locals.length + 1)
    (hacc : loaded = true → r.Own z x.regs.acc)
    (hcode : x.Fetched r n lets' loaded pending is) :
    Course grant z r rs x.globals acc ((x.pushReturn (.value v)).andThen fun y =>
      .running { y with regs := { y.regs with extra := y.regs.extra + 1 } }) := by
  rw [pushReturn]
  split
  · exact .fails rfl
  · have hseat' : Seated x.code x.globals.size z r rs lets' pending pushed waiting
        (v :: locals) args returns { x.regs with
          returns := x.regs.returns.push (.value v), extra := x.regs.extra + 1 } :=
      { hseat with
        returns_eq := congrArg (ReturnEntry.value v :: ·) hseat.returns_eq
        extra_eq := congrArg (· + 1) hseat.extra_eq
        lets_le := hlets
        locals := List.forall_mem_cons.2 ⟨hv, hseat.locals⟩ }
    exact .stay rfl (.refl z) ⟨hz.fit, hz.globals⟩ hseat' hacc
      ⟨hcode.at_pc, hcode.disciplined, hcode.acts⟩

/-- The code of a closure that a call has, with the role of the call that it starts. -/
theorem enters {x : Machine} (hz : Zoned grant z x) {a : Nat} {env : Value} {offset : Int}
    (hown : r.Own z (.ref .closure a)) (hfields : x.heap.fields a = #[env, .code offset])
    {captured : Nat} (henv : Typed x.world (.env captured) env) :
    ∃ r', r.Calls r' ∧ r'.Own z env ∧ x.code.Acts r'.slot offset := by
  have ha : r.zone z a := Value.within_ref.1 hown.within
  -- a call that works for a definition gets at calm closures only
  have hmem : env ∈ x.heap.fields a := by simp [hfields]
  have hcalm (hr : r ≠ .free) (ha : z.calm a) :
      ∃ r', r.Calls r' ∧ r'.Own z env ∧ x.code.Acts r'.slot offset :=
    ⟨.calm, .calm hr, own_of_typed henv (hz.fit.calm.closed a ha env hmem),
      hz.fit.calm.closures a env offset ha hfields⟩
  cases r with
  | calm => exact hcalm (fun h => by cases h) ha
  | defining k alone => exact hcalm (fun h => by cases h) ha
  | free =>
      rcases hz.fit.known.closures a env offset ha hfields with ⟨_, hquiet⟩ |
        ⟨rfl, ⟨k, hk⟩, hacts⟩
      · exact ⟨.free, .free, own_of_typed henv (hz.fit.known.closed a ha env hmem), hquiet⟩
      · exact ⟨.defining k false, .defining, Value.in_emptyEnv _, hacts k hk⟩

/-- A jump to a closure starts a call in the role that fits it, with the arguments that
wait for it on top of a mark. -/
theorem jump_flowing {x : Machine} (hz : Zoned grant z x) {a : Nat} {env : Value}
    {offset : Int} (hfields : x.heap.fields a = #[env, .code offset]) (henv : r.Own z env)
    (hat : x.code.At offset is) (hdisciplined : Disciplined x.globals.size n 0 false [] is)
    (hacts : x.code.Acts r.slot offset) (htop : ∀ v ∈ top, r.Given z v)
    (hargs : x.regs.args.items = top ++ .mark :: args)
    (hreturns : x.regs.returns.items = returns) (hextra : x.regs.extra = 0)
    (hcalls : Stacked x.code x.globals.size z r rs args returns) :
    ∃ next, x.jump (.ref .closure a) = .running next ∧ next.globals = x.globals ∧
      Flowing grant z r rs next := by
  have hjump : x.jump (.ref .closure a) = .running { x with
      regs := { x.regs with env := env, pc := offset } } := by
    rcases x.jump_cases (.ref .closure a) with ⟨b, hb, _, heq⟩ | ⟨hnot, _⟩
    · cases hb
      simpa [Heap.field, hfields, Value.asOffset] using heq
    · exact absurd (by rw [hfields]; rfl) (hnot a rfl)
  have hseat : Seated x.code x.globals.size z r rs 0 [] [] top [] args returns
      { x.regs with env := env, pc := offset } :=
    ⟨hargs, hreturns, hextra, Nat.zero_le _, henv, by simp, .nil, htop, hcalls⟩
  have hidle : false = true → r.Own z x.regs.acc := fun h => by cases h
  exact ⟨_, hjump, rfl, .intro hz.fit hz.globals hseat hidle hat hdisciplined hacts⟩

/-- A call calls what it has. -/
theorem course_jump {x : Machine} (hz : Zoned grant z x) {callee : Value}
    (htyped : Typed x.world .data callee) (hown : r.Own z callee)
    (htop : ∀ v ∈ top, r.Own z v) (hargs : x.regs.args.items = top ++ .mark :: args)
    (hreturns : x.regs.returns.items = returns) (hextra : x.regs.extra = 0) {rs' : List Role}
    (hcalls : ∀ r' : Role, r.Calls r' →
      Stacked x.code x.globals.size z r' rs' args returns ∧
        Role.Next (r :: rs) (r' :: rs')) :
    Course grant z r rs x.globals acc (x.jump callee) := by
  cases htyped with
  | int _ => exact .fails rfl
  | tuple _ _ _ => exact .fails rfl
  | @closure a captured cell env offset is hcell _ hfields henv hat hdisciplined =>
      have hheap : x.heap.fields a = #[env, .code offset] :=
        (Heap.fields_of_cell hcell).trans hfields
      obtain ⟨r', hrole, henv', hacts⟩ := enters hz hown hheap henv
      obtain ⟨hstacked, hnext⟩ := hcalls r' hrole
      obtain ⟨next, hjump, hglobals, hflowing⟩ := jump_flowing hz hheap henv' hat hdisciplined
        hacts (fun v hv => hrole.given (htop v hv)) hargs hreturns hextra hstacked
      rw [hjump]
      exact .goes hglobals (.refl z) hflowing hnext

/-- The current call is replaced by that of the function in the accumulator. -/
theorem course_tailCall {x : Machine} (hz : Zoned grant z x)
    (htyped : Typed x.world .data x.regs.acc) (hown : r.Own z x.regs.acc)
    (hr : r.slot = none) (htop : ∀ v ∈ top, r.Own z v)
    (hcalls : Stacked x.code x.globals.size z r rs args returns)
    (hargs : x.regs.args.items = top ++ .mark :: args)
    (hreturns : x.regs.returns.items = locals.map .value ++ returns)
    (hextra : x.regs.extra = locals.length) :
    Course grant z r rs x.globals acc (x.dropExtras.jump x.regs.acc) := by
  have hdropped : x.dropExtras.regs.returns.items = returns := by
    change x.regs.returns.items.drop x.regs.extra = returns
    rw [hreturns, hextra, drop_locals]
  have hzoned : Zoned grant z x.dropExtras := ⟨hz.fit, hz.globals⟩
  have hnext (r' : Role) (hrole : r.Calls r') :
      Stacked x.code x.globals.size z r' rs args returns ∧ Role.Next (r :: rs) (r' :: rs) :=
    ⟨hcalls.retarget fun p hp => hp.trans hr hrole, .replaced hr hrole⟩
  exact course_jump hzoned htyped hown htop hargs hdropped rfl hnext

/-- The machine that has left the current call for another one, to come back to it. -/
def calling (m : Machine) (usage : Usage) : Machine :=
  { m with
    usage := usage
    regs := { m.regs with
      returns := m.regs.returns.push (.frame m.regs.pc m.regs.env m.regs.extra)
      extra := 0 } }

/-- A call that the current one waits for. -/
theorem course_apply {count : Nat} (hz : Zoned grant z m)
    (htyped : Typed m.world .data m.regs.acc) (hown : r.Own z m.regs.acc)
    (hseat : Seated m.code m.globals.size z r rs lets
      (List.replicate count .value ++ .mark :: pending) pushed waiting locals args returns
      m.regs)
    (hcode : m.Fetched r n lets true pending is) :
    Course grant z r rs m.globals acc (m.execute .apply) := by
  obtain ⟨top, rest, rfl, _, htop, hrest⟩ := split_pushed hseat.pushed
  cases hrest with
  | @cons _ v _ below hmark hbelow =>
      obtain rfl : v = .mark := hmark
      have hengaged : Engaged m.code m.globals.size z r m.regs.pc m.regs.env
          (below ++ waiting) locals :=
        .intro hcode.at_pc hcode.disciplined hcode.acts hseat.lets_le hseat.env hseat.locals
          hbelow hseat.waiting rfl
      have hargs : m.regs.args.items = top ++ .mark :: (below ++ waiting ++ .mark :: args) := by
        simpa using hseat.args_eq
      have hnext (r' : Role) (hrole : r.Calls r') :=
        And.intro (Stacked.call hrole hengaged hseat.calls) (@Role.Next.called r r' rs hrole)
      have hentered (usage : Usage) : Course grant z r rs m.globals acc
          ((m.calling usage).jump m.regs.acc) := by
        have hzoned : Zoned grant z (m.calling usage) := ⟨hz.fit, hz.globals⟩
        have hreturns : (m.calling usage).regs.returns.items =
            .frame m.regs.pc m.regs.env locals.length :: (locals.map .value ++ returns) := by
          rw [← hseat.extra_eq, ← hseat.returns_eq]
          rfl
        exact course_jump hzoned htyped hown htop hargs hreturns rfl hnext
      rw [execute, pushReturn]
      split
      · exact .fails rfl
      · exact hentered _

/-- Leaving a call whose mark is on top. -/
theorem course_leave {x : Machine} (hz : Zoned grant z x) (hr : r.slot = none)
    (hacc : r.Own z x.regs.acc) (hargs : x.regs.args.items = .mark :: args)
    (hreturns : x.regs.returns.items = locals.map .value ++ returns)
    (hextra : x.regs.extra = locals.length)
    (hcalls : Stacked x.code x.globals.size z r rs args returns) :
    Course grant z r rs x.globals acc x.leave := by
  have hdropped : x.regs.returns.items.drop x.regs.extra = returns := by
    rw [hreturns, hextra, drop_locals]
  have hrest : x.regs.args.items.drop 1 = args := by
    rw [hargs]
    rfl
  cases hcalls with
  | bottom =>
      rw [leave_of_nil hdropped]
      exact .ends rfl hr rfl (.refl z) hz.fit hacc
  | @call _ r' rs pc env top below args returns hrole hengaged hcalls =>
      obtain ⟨hat, hdisciplined, hacts, hlets, henv, hlocals, hpushed, hwaiting, rfl⟩ := hengaged
      have hreturns' : (x.regs.returns.items.drop x.regs.extra).drop 1 =
          below.map .value ++ returns := by
        rw [hdropped]
        rfl
      rw [leave_of_frame hdropped]
      exact .goes rfl (.refl z) (.intro hz.fit hz.globals ⟨hrest, hreturns', rfl, hlets, henv,
        hlocals, hpushed, hwaiting, hcalls⟩ (fun _ => hrole.returns hr hacc) hat hdisciplined
        hacts) (.left hr)

/-- The local at an index, wherever it is kept. -/
theorem chainAt_within {S : Nat → Prop} {h : Heap} (hclosed : h.Closed S) {env : Value}
    (henv : env.Within S) {k : Nat} (hv : chainAt h env k = some v) : v.Within S := by
  induction k generalizing env with
  | zero =>
      obtain ⟨a, ha, rfl⟩ := Option.map_eq_some_iff.1 hv
      exact hclosed.field_within (henv a ha) 0
  | succ k ih =>
      obtain ⟨a, ha, hrest⟩ := Option.bind_eq_some_iff.1 hv
      exact ih (hclosed.field_within (henv a ha) 1) hrest

theorem Seated.local_within (hz : Zoned grant z m)
    (hseat : Seated m.code m.globals.size z r rs lets pending pushed waiting locals args
      returns m.regs) {i : Nat} (hv : m.local? i = some v) : v.Within (r.zone z) := by
  obtain ⟨ok, hregion⟩ := hz.fit.zone r
  rw [Machine.local?, hseat.extra_eq, hseat.returns_eq] at hv
  split at hv
  · rename_i hi
    rw [List.getElem?_append_left (by simpa using hi), List.getElem?_map] at hv
    obtain ⟨e, he, rfl⟩ := Option.map_eq_some_iff.1 hv
    obtain ⟨u, hu, rfl⟩ := Option.map_eq_some_iff.1 he
    exact (hseat.locals u (List.mem_of_getElem? hu)).within
  · exact chainAt_within hregion.closed hseat.env.within hv

/-- Only the accumulator and the program counter change. -/
theorem Seated.load
    (hseat : Seated c slots z r rs lets pending pushed waiting locals args returns regs)
    (acc : Value) (pc : Int) :
    Seated c slots z r rs lets pending pushed waiting locals args returns
      { regs with acc := acc, pc := pc } :=
  { hseat with }

theorem course_grab (hz : Zoned grant z m)
    (hseat : Seated m.code m.globals.size z r rs lets [] pushed waiting locals args returns
      m.regs) (hr : r.slot = none) (hstart : m.code.Acts none m.started.offset)
    (hcode : m.Fetched r n 0 false [] is) :
    Course grant z r rs m.globals acc (m.execute .grab) := by
  have hargs := hseat.args_eq
  have hwaiting := hseat.waiting
  cases hseat.pushed
  rw [List.nil_append] at hargs
  unfold execute Stack.top?
  dsimp only
  rw [hargs]
  cases waiting with
  | nil =>
      -- no argument is left: the closure for the rest of them is the result
      dsimp only [List.nil_append, List.head?_cons]
      obtain ⟨z', hle, hfit, hown⟩ := hz.fit.closureOf r hseat.env hseat.locals hstart
      rw [if_pos (by rfl), loadClosure_eq hseat.returns_eq hseat.extra_eq]
      generalize hbuilt : closureOf m.heap m.regs.env locals m.started.offset = built at hfit hown
      have hzoned : Zoned grant z' { m with
          heap := built.2, regs := { m.regs with acc := built.1 } } :=
        hz.grow hle hfit rfl rfl rfl
      exact (course_leave hzoned hr hown hargs hseat.returns_eq hseat.extra_eq
        (hseat.calls.mono hle)).widen hle
  | cons v waiting =>
      obtain ⟨hv, hrest⟩ := List.forall_mem_cons.1 hwaiting
      have hown : r.Own z v := Role.own_of_given hr hv
      have htaken : Seated m.code m.globals.size z r rs lets [] [] waiting locals args returns
          { m.regs with args := m.regs.args.drop 1 } :=
        { hseat with
          args_eq := by simp [hargs]
          waiting := hrest }
      dsimp only [List.cons_append, List.head?_cons]
      rw [if_neg (by simp [hown.isMark])]
      have hidle : false = true → r.Own z m.regs.acc := fun h => by cases h
      have hzoned : Zoned grant z { m with regs := { m.regs with args := m.regs.args.drop 1 } } :=
        ⟨hz.fit, hz.globals⟩
      exact course_bind hzoned htaken hown (Nat.zero_le _) hidle
        ⟨hcode.at_pc, hcode.disciplined, hcode.acts⟩

theorem course_ret (hz : Zoned grant z m)
    (hseat : Seated m.code m.globals.size z r rs lets [] pushed waiting locals args returns
      m.regs) (hr : r.slot = none) (htyped : Typed m.world .data m.regs.acc)
    (hown : r.Own z m.regs.acc) : Course grant z r rs m.globals acc (m.execute .ret) := by
  have hargs := hseat.args_eq
  have hwaiting (v : Value) (hv : v ∈ waiting) : r.Own z v :=
    Role.own_of_given hr (hseat.waiting v hv)
  cases hseat.pushed
  rw [List.nil_append] at hargs
  unfold execute Stack.top?
  dsimp only
  rw [hargs]
  cases waiting with
  | nil =>
      dsimp only [List.nil_append, List.head?_cons]
      rw [if_pos (by rfl)]
      exact course_leave hz hr hown hargs hseat.returns_eq hseat.extra_eq hseat.calls
  | cons v waiting =>
      -- more arguments than the function took: its result is called with the others
      dsimp only [List.cons_append, List.head?_cons]
      rw [if_neg (by simp [(hwaiting v List.mem_cons_self).isMark])]
      exact course_tailCall hz htyped hown hr hwaiting hseat.calls hargs hseat.returns_eq
        hseat.extra_eq

theorem course_makeBlock {size : UInt16} (hz : Zoned grant z m)
    (hseat : Seated m.code m.globals.size z r rs lets
      (List.replicate size.toNat .value ++ pending) pushed waiting locals args returns m.regs)
    (hcode : m.Fetched r n lets true pending is) :
    Course grant z r rs m.globals acc (m.execute (.makeBlock size)) := by
  obtain ⟨top, below, rfl, hlength, htop, hbelow⟩ := split_pushed hseat.pushed
  have hitems : m.regs.args.items = top ++ (below ++ waiting ++ .mark :: args) := by
    simpa using hseat.args_eq
  have hdepth : ¬ m.regs.args.depth < size.toNat := by
    rw [m.regs.args.depth_eq, hitems, List.length_append]
    omega
  have hfields : m.regs.args.items.take size.toNat = top := by
    rw [hitems, ← hlength]
    exact List.take_left
  have hrest : m.regs.args.items.drop size.toNat = below ++ waiting ++ .mark :: args := by
    rw [hitems, ← hlength]
    exact List.drop_left
  have hown : ∀ v ∈ top.reverse.toArray, r.Own z v := by simpa using htop
  obtain ⟨z', hle, hfit, hnew⟩ := hz.fit.allocData r .tuple (fun h => by cases h) hown
  have hseat' : Seated m.code m.globals.size z r rs lets pending below waiting locals args
      returns { m.regs with
        args := m.regs.args.drop size.toNat, acc := .ref .tuple m.heap.cells.size } :=
    { hseat with
      args_eq := hrest
      pushed := hbelow }
  unfold execute makeTuple
  dsimp only
  rw [if_neg hdepth, popFields_of_deep hdepth, hfields]
  exact .stay rfl hle (hz.grow hle hfit rfl rfl rfl) (hseat'.mono hle) (fun _ => hnew)
    ⟨hcode.at_pc, hcode.disciplined, hcode.acts⟩

theorem course_unbind (hz : Zoned grant z m)
    (hseat : Seated m.code m.globals.size z r rs (lets + 1) pending pushed waiting locals args
      returns m.regs) (hacc : loaded = true → r.Own z m.regs.acc)
    (hcode : m.Fetched r n lets loaded pending is) :
    Course grant z r rs m.globals acc (m.execute .unbind) := by
  have hlets := hseat.lets_le
  have hextra := hseat.extra_eq
  have hreturns := hseat.returns_eq
  have hlocals := hseat.locals
  cases locals with
  | nil => simp at hlets
  | cons v locals =>
      rw [List.length_cons] at hlets hextra
      have hpositive : ¬ m.regs.extra = 0 := by omega
      have hrest : m.regs.returns.items.drop 1 = locals.map .value ++ returns := by
        rw [hreturns]
        rfl
      have hseat' : Seated m.code m.globals.size z r rs lets pending pushed waiting locals args
          returns { m.regs with
            returns := m.regs.returns.drop 1, extra := m.regs.extra - 1 } :=
        { hseat with
          returns_eq := hrest
          extra_eq := by simp [hextra]
          lets_le := Nat.le_of_succ_le_succ hlets
          locals := fun u hu => hlocals u (List.mem_cons_of_mem _ hu) }
      unfold execute
      dsimp only
      rw [if_neg hpositive]
      exact .stay rfl (.refl z) ⟨hz.fit, hz.globals⟩ hseat' hacc
        ⟨hcode.at_pc, hcode.disciplined, hcode.acts⟩

theorem course_closure {length : UInt16} {body rest : List Instr} (hz : Zoned grant z m)
    (hseat : Seated m.code m.globals.size z r rs lets pending pushed waiting locals args
      returns m.regs) (hlength : length.toNat = Instr.sizeAll body)
    (hbody : m.code.Acts none m.regs.pc) (hat : m.code.At m.regs.pc (body ++ rest))
    (hdisciplined : Disciplined m.globals.size n lets true pending rest)
    (hacts : m.code.Acts r.slot (m.regs.pc + length.toNat)) :
    Course grant z r rs m.globals acc (m.execute (.closure length)) := by
  obtain ⟨z', hle, hfit, hown⟩ := hz.fit.closureOf r hseat.env hseat.locals hbody
  have hafter : m.code.At (m.regs.pc + length.toNat) rest := by
    rw [hlength]
    exact hat.skip
  unfold execute
  dsimp only
  split
  · exact .fails rfl
  · have hbuilt := loadClosure_eq
      (m := { m with regs := { m.regs with pc := m.regs.pc + length.toNat } })
      hseat.returns_eq hseat.extra_eq m.regs.pc
    dsimp only at hbuilt
    rw [hbuilt]
    generalize closureOf m.heap m.regs.env locals m.regs.pc = built at hfit hown ⊢
    have hseat' := (hseat.load built.1 (m.regs.pc + length.toNat)).mono hle
    exact .stay rfl hle (hz.grow hle hfit rfl rfl rfl) hseat' (fun _ => hown)
      ⟨hafter, hdisciplined, hacts⟩

theorem mem_of_set? {g' : Globals} {i : Nat} (hset : g.set? i v = some g')
    {e : Global} (he : e ∈ g'.entries) : e.value = v ∨ e ∈ g.entries := by
  obtain ⟨_, rfl⟩ := Globals.set?_eq_some hset
  obtain ⟨j, hj⟩ := Array.getElem?_of_mem he
  rw [Array.getElem?_modify] at hj
  split at hj
  · obtain ⟨old, _, rfl⟩ := Option.map_eq_some_iff.1 hj
    exact .inl rfl
  · exact .inr (Array.mem_of_getElem? hj)

/-- The call of a definition assigns its global.  Afterwards it only returns. -/
theorem course_setGlobal {slot : UInt16} (hz : Zoned grant z m)
    (hseat : Seated m.code m.globals.size z r rs lets pending pushed waiting locals args
      returns m.regs) (hown : r.Own z m.regs.acc) (hr : r.slot = some slot)
    (hret : m.code.fetch m.regs.pc = .instr .ret)
    (hat : m.code.At m.regs.pc is)
    (hdisciplined : Disciplined m.globals.size n lets true pending is)
    (hacts : m.code.Acts none m.regs.pc) :
    Course grant z r rs m.globals m.regs.acc (m.execute (.setGlobal slot)) := by
  obtain ⟨alone, rfl⟩ : ∃ alone, r = .defining slot alone := by
    cases r with
    | defining k alone =>
        cases hr
        exact ⟨alone, rfl⟩
    | _ => cases hr
  have hfree {v : Value} (hv : Role.Own z (.defining slot alone) v) : Role.Own z .free v :=
    hv.mono hz.fit.sub
  unfold execute
  dsimp only
  cases hset : m.globals.set? slot.toNat m.regs.acc with
  | none => exact .fails rfl
  | some globals =>
      have hsize : globals.size = m.globals.size := by
        obtain ⟨_, rfl⟩ := Globals.set?_eq_some hset
        exact Array.size_modify
      have hcalm (e : Global) (he : e ∈ globals.entries) : e.value.Within z.calm := by
        rcases mem_of_set? hset he with heq | hold
        · rw [heq]
          exact hown.within
        · exact hz.globals e hold
      have hseat' : Seated m.code m.globals.size z .free rs lets pending pushed waiting locals
          args returns m.regs :=
        { hseat with
          env := hfree hseat.env
          locals := fun v hv => hfree (hseat.locals v hv)
          pushed := hseat.pushed.imp fun _ _ hv => hv.mono fun _ => hfree
          waiting := fun v hv => (hseat.waiting v hv).2
          calls := hseat.calls.retarget fun _ hp => hp.assigned }
      rw [← hsize] at hseat' hdisciplined
      refine .assigns rfl hset rfl (.refl z)
        (.intro hz.fit hcalm hseat' (fun _ => hfree hown) hat hdisciplined hacts)
        fun halone hrs => ?_
      subst halone hrs
      -- no argument and no call waits, so the return that comes next ends the run
      have hnone : waiting = [] :=
        List.eq_nil_iff_forall_not_mem.2 fun v hv => Bool.noConfusion (hseat.waiting v hv).1
      obtain ⟨i, js, rfl⟩ := hdisciplined.exists_cons
      have hsame := hat.fetch.symm.trans hret
      cases hsame
      cases hdisciplined
      have hpushed := hseat.pushed
      have hargs := hseat.args_eq
      have hreturns := hseat.returns_eq
      cases hseat.calls
      cases hpushed
      subst hnone
      refine ⟨hret, hargs, ?_⟩
      rw [hreturns, hseat.extra_eq, drop_locals]

/-- A machine in order that is about to call what is in the accumulator has a value in
it. -/
theorem Going.typed_acc (h : m.Going) {i : Instr} (hfetch : m.code.fetch m.regs.pc = .instr i)
    (hi : i = .apply ∨ i = .appTerm ∨ i = .ret) : Typed m.world .data m.regs.acc := by
  obtain ⟨hpoised, hat, hdisciplined⟩ := h.running
  obtain ⟨j, is, rfl⟩ := hdisciplined.exists_cons
  have hsame := hat.fetch.symm.trans hfetch
  cases hsame
  generalize (_ : Nat) + _ = count at hdisciplined
  rcases hi with rfl | rfl | rfl
  · cases hdisciplined with
    | apply _ => exact hpoised.acc_typed rfl
  · cases hdisciplined with
    | appTerm => exact hpoised.acc_typed rfl
  · cases hdisciplined with
    | ret => exact hpoised.acc_typed rfl

theorem Going.typed_local (h : m.Going) {index : UInt8}
    (hfetch : m.code.fetch m.regs.pc = .instr (.access index))
    (hv : m.local? index.toNat = some v) : Typed m.world .data v := by
  obtain ⟨hpoised, hat, hdisciplined⟩ := h.running
  obtain ⟨j, is, rfl⟩ := hdisciplined.exists_cons
  have hsame := hat.fetch.symm.trans hfetch
  cases hsame
  generalize hcount : (_ : Nat) + _ = count at hdisciplined
  cases hdisciplined with
  | access hindex _ =>
      subst hcount
      obtain ⟨u, hu, htyped⟩ := hpoised.local? hindex
      cases hu.symm.trans hv
      exact htyped

/-- A step keeps calls to their roles. -/
theorem Flowing.step (hgoing : m.Going) (h : Flowing grant z r rs m) :
    Course grant z r rs m.globals m.regs.acc m.step := by
  obtain ⟨hfit, hglobals, hseat, hacc, hat, hdisciplined, hacts⟩ := h
  obtain ⟨i, is, rfl⟩ := hdisciplined.exists_cons
  have hfetch := hat.fetch
  rw [step_of_fetch hfetch]
  have hz : Zoned grant z (m.fetched i) := ⟨hfit, hglobals⟩
  have hseat' := hseat.load m.regs.acc (m.regs.pc + i.size)
  have hgoes (hi : i.goesOn = true) := hacts.next hfetch hi
  cases hdisciplined with
  | int64 hrest =>
      exact .stay rfl (.refl z) ⟨hfit, hglobals⟩ (hseat.load _ _)
        (fun _ => Value.in_int _ _) ⟨hat.next, hrest, hgoes rfl⟩
  | @access _ _ _ _ _ index _ hrest =>
      unfold execute
      dsimp only
      split
      · rename_i v hv
        have hown : r.Own z v :=
          own_of_typed (hgoing.typed_local hfetch hv) (hseat.local_within ⟨hfit, hglobals⟩ hv)
        exact .stay rfl (.refl z) ⟨hfit, hglobals⟩ (hseat.load _ _) (fun _ => hown)
          ⟨hat.next, hrest, hgoes rfl⟩
      · exact .fails rfl
  | @getGlobal _ _ _ _ _ slot _ hrest =>
      unfold execute
      dsimp only
      split
      · exact .fails rfl
      · rename_i e he
        split
        · rename_i hdefined
          have hmem := Array.mem_of_getElem? he
          have hown : r.Own z e.value :=
            own_of_typed ((hgoing.sound.globals e hmem).typed hdefined) (hz.global_within hmem)
          exact .stay rfl (.refl z) ⟨hfit, hglobals⟩ (hseat.load _ _) (fun _ => hown)
            ⟨hat.next, hrest, hgoes rfl⟩
        · exact .fails rfl
  | setGlobal _ hrest =>
      obtain ⟨hr, hret, hnext⟩ := hacts.assigns hfetch
      exact course_setGlobal hz hseat' (hacc rfl) hr hret hat.next hrest hnext
  | push hrest =>
      exact course_pushArg .value hz hseat' (hacc rfl) hacc
        ⟨hat.next, hrest, hgoes rfl⟩
  | pushMark hrest =>
      exact course_pushArg .mark hz hseat' rfl hacc ⟨hat.next, hrest, hgoes rfl⟩
  | closure hlength hbody hrest =>
      obtain ⟨hbodyActs, hrestActs⟩ := hacts.closure hfetch
      exact course_closure hz hseat' hlength hbodyActs hat.next hrest hrestActs
  | apply hrest =>
      exact course_apply hz (hgoing.typed_acc hfetch (.inl rfl)) (hacc rfl) hseat'
        ⟨hat.next, hrest, hgoes rfl⟩
  | @appTerm _ _ count _ =>
      have hpushed := hseat.pushed
      have hr := hacts.leaving hfetch (.inr rfl)
      rw [← List.append_nil (List.replicate count Slot.value)] at hpushed
      obtain ⟨top, _, rfl, _, htop, hnil⟩ := split_pushed hpushed
      cases hnil
      refine course_tailCall hz (hgoing.typed_acc hfetch (.inr (.inl rfl))) (hacc rfl) hr ?_
        hseat.calls hseat.args_eq hseat.returns_eq hseat.extra_eq
      intro v hv
      rw [List.append_nil] at hv
      rcases List.mem_append.1 hv with hv | hv
      · exact htop v hv
      · exact Role.own_of_given hr (hseat.waiting v hv)
  | grab hrest =>
      obtain ⟨hr, hnext⟩ := hacts.grab hfetch
      have hstart : m.code.Acts none m.regs.pc := hr ▸ hacts
      have hnext' : m.code.Acts r.slot (m.regs.pc + Instr.grab.size) := hr.symm ▸ hnext
      exact course_grab hz hseat' hr hstart ⟨hat.next, hrest, hnext'⟩
  | ret =>
      have hr := hacts.leaving hfetch (.inl rfl)
      exact course_ret hz hseat' hr (hgoing.typed_acc hfetch (.inr (.inr rfl))) (hacc rfl)
  | makeBlock hrest => exact course_makeBlock hz hseat' ⟨hat.next, hrest, hgoes rfl⟩
  | bind hrest =>
      exact course_bind hz hseat' (hacc rfl) (Nat.succ_le_succ hseat.lets_le) hacc
        ⟨hat.next, hrest, hgoes rfl⟩
  | unbind hrest => exact course_unbind hz hseat' hacc ⟨hat.next, hrest, hgoes rfl⟩

end Zinc.Machine
