import Zinc.Proofs.Machine.Course
import Zinc.Proofs.Machine.Curry

/-!
What a run assigns.  A run keeps the zones of the heap: objects from where no closure that
assigns could be reached stay such objects, and new ones join them.  When everything that a
run works for is calm it assigns nothing; when it works for one definition it assigns that
global and nothing else, as the last thing before it returns.
-/

namespace Zinc

/-- A step leads to machines of some kind, or ends a run in a reply of some kind. -/
def Progress.Leads (I : Machine → Prop) (Q : Machine.Reply Value → Prop) : Progress → Prop
  | .running m => I m
  | .finished m => Q (.ok m.regs.acc, m)
  | .faulted f m => Q (.error f, m)

namespace Machine

/-- What the host and the limit on steps stop a run with. -/
def stopCauses : List Cause :=
  [.stepLimit, .interrupted]

variable {I : Machine → Prop} {Q : Reply Value → Prop} {m m' : Machine}

theorem cause_of_ready {f : Fault} (h : m.ready = (some f, m')) : f.cause ∈ stopCauses := by
  rcases m.ready_cases with ⟨_, hready⟩ | ⟨_, g, x, hasked, hready⟩ | ⟨_, x, _, hready⟩
  · rw [hready] at h
    cases h
    simp [stopCauses, stepLimitReached]
  · rw [hready] at h
    cases h
    unfold asked askWatch at hasked
    split at hasked
    · split at hasked
      · cases hasked
      · split at hasked
        · cases hasked
          simp [stopCauses, interrupted]
        · cases hasked
    · cases hasked
  · rw [hready] at h
    cases h

/-- What holds between instructions, and of the end of a run after each of them, holds of
the end of a loop. -/
theorem loop_leads (hready : ∀ m, I m → ∀ usage, I { m.ready.2 with usage := usage })
    (hstop : ∀ m f, I m → f.cause ∈ stopCauses → Q (.error f, m))
    (hstep : ∀ m, I m → m.step.Leads I Q) (fuel : Nat) (h : I m) : Q (loop fuel m) := by
  induction fuel generalizing m with
  | zero =>
      refine hstop m _ h ?_
      rw [Fault.cause_locateIfUnknown]
      simp [stopCauses, stepLimitReached]
  | succ fuel ih =>
      unfold loop
      cases heq : m.ready with
      | mk stop next =>
          have hnext (usage : Usage) : I { next with usage := usage } := by
            have hkept := hready m h usage
            rwa [heq] at hkept
          cases stop with
          | some f =>
              refine hstop next _ (hnext next.usage) ?_
              rw [Fault.cause_locateIfUnknown]
              exact cause_of_ready heq
          | none =>
              have hleads := hstep next.counted (hnext _)
              dsimp only
              cases hprogress : next.counted.step with
              | running after =>
                  rw [hprogress] at hleads
                  exact ih hleads
              | finished last =>
                  rw [hprogress] at hleads
                  exact hleads
              | faulted f last =>
                  rw [hprogress] at hleads
                  exact hleads

/-- The same of a whole run, when the registers do not matter. -/
theorem run_leads (hready : ∀ m, I m → ∀ usage, I { m.ready.2 with usage := usage })
    (hstop : ∀ m f, I m → f.cause ∈ stopCauses → Q (.error f, m))
    (hstep : ∀ m, I m → m.step.Leads I Q)
    (hclear : ∀ reply, Q reply → Q (reply.1, reply.2.clearRegisters))
    {callee : Value} {args : List Value} (henter : (m.enter callee args).Leads I Q) :
    Q (m.run callee args) := by
  unfold run
  cases hprogress : m.enter callee args with
  | running next =>
      rw [hprogress] at henter
      exact hclear _ (loop_leads hready hstop hstep _ henter)
  | finished last =>
      rw [hprogress] at henter
      exact hclear (.ok last.regs.acc, last) henter
  | faulted f last =>
      rw [hprogress] at henter
      exact hclear (.error f, last) henter

theorem pushArgs_leads (hfail : ∀ f regs usage,
      Q (.error f, { m with regs := regs, usage := usage })) {vs : List Value}
    {k : Machine → Progress}
    (hk : ∀ usage args, args.items = vs.reverse ++ m.regs.args.items →
      (k { m with regs := { m.regs with args := args }, usage := usage }).Leads I Q) :
    ((m.pushArgs vs).andThen k).Leads I Q := by
  induction vs generalizing m with
  | nil => exact hk m.usage m.regs.args rfl
  | cons v rest ih =>
      unfold pushArgs pushArg
      split
      · exact hfail _ _ _
      · refine ih (fun f regs usage => hfail f regs usage) fun usage args hargs => hk usage args ?_
        simpa using hargs

theorem fades_ready (htidy : m.heap.Tidy) : m.heap.Fades m.ready.2.heap := by
  rcases m.ready_heap with heq | ⟨roots, heq⟩
  · rw [heq]
    exact .refl _
  · rw [heq]
    exact htidy.collect_fades roots

variable {grant : Nat → UInt16 → Prop} {z : Zones} {r : Role} {rs : List Role} {g : Globals}

theorem Zoned.fade (h : Zoned grant z m) (hcode : m'.code = m.code)
    (hglobals : m'.globals = m.globals) (hfades : m.heap.Fades m'.heap) : Zoned grant z m' :=
  ⟨hcode.symm ▸ h.fit.fade hfades, hglobals.symm ▸ h.globals⟩

theorem Flowing.zoned (h : Flowing grant z r rs m) : Zoned grant z m := by
  obtain ⟨hfit, hglobals, _⟩ := h
  exact ⟨hfit, hglobals⟩

theorem Flowing.fade (h : Flowing grant z r rs m) (hcode : m'.code = m.code)
    (hglobals : m'.globals = m.globals) (hregs : m'.regs = m.regs)
    (hfades : m.heap.Fades m'.heap) : Flowing grant z r rs m' := by
  obtain ⟨hfit, hcalm, hseat, hacc, hat, hdisciplined, hacts⟩ := h
  have hzoned := Zoned.fade ⟨hfit, hcalm⟩ hcode hglobals hfades
  rw [← hcode] at hseat hat hacts
  rw [← hglobals] at hseat hdisciplined
  rw [← hregs] at hseat hacc hat hacts
  exact .intro hzoned.fit hzoned.globals hseat hacc hat hdisciplined hacts

/-- A run leaves the older objects as they were, or releases them. -/
theorem fades_run (htidy : m.heap.Tidy) (callee : Value) (args : List Value) :
    m.heap.Fades (m.run callee args).2.heap := by
  have hleads {x : Machine} {p : Progress} (hx : x.heap.Tidy ∧ m.heap.Fades x.heap)
      (hp : p.After x.Stepped) : p.Leads (fun y => y.heap.Tidy ∧ m.heap.Fades y.heap)
        fun reply => m.heap.Fades reply.2.heap := by
    cases p with
    | running y => exact ⟨hp.heap.tidy hx.1, hx.2.trans hp.heap.fades⟩
    | finished y => exact hx.2.trans hp.heap.fades
    | faulted f y => exact hx.2.trans hp.heap.fades
  refine run_leads (I := fun x => x.heap.Tidy ∧ m.heap.Fades x.heap)
    (Q := fun reply => m.heap.Fades reply.2.heap) ?_ ?_ ?_ ?_
    (hleads ⟨htidy, .refl _⟩ (m.stepped_enter callee args))
  · exact fun x hx usage => ⟨(kept_ready hx.1).tidy, hx.2.trans (fades_ready hx.1)⟩
  · exact fun x f hx _ => hx.2
  · exact fun x hx => hleads hx x.stepped_step
  · exact fun reply hreply => hreply

/-- A machine in order stays so, and keeps to its roles, until the next instruction. -/
theorem Flowing.ready (hgoing : m.Going) (h : Flowing grant z r rs m) (usage : Usage) :
    Going { m.ready.2 with usage := usage } ∧
      Flowing grant z r rs { m.ready.2 with usage := usage } := by
  have hkept := kept_ready hgoing.sound.tidy
  exact ⟨hgoing.ready.1.withRecords _ _ _,
    h.fade hkept.code hkept.globals hkept.regs (fades_ready hgoing.sound.tidy)⟩

/-- A closure is entered in a role that fits it. -/
theorem enter_leads (hsound : m.Sound) (hz : Zoned grant z m) {callee : Value}
    {args : List Value} (htyped : Typed m.world .data callee)
    (hdata : ∀ v ∈ args, Typed m.world .data v)
    (hstart : ∀ a env offset captured, callee = .ref .closure a →
      m.heap.fields a = #[env, .code offset] → Typed m.world (.env captured) env →
        r.Own z env ∧ m.code.Acts r.slot offset)
    (hargs : ∀ v ∈ args, r.Given z v)
    (hfail : ∀ f x, x.globals = m.globals → Zoned grant z x → Q (.error f, x))
    (hrunning : ∀ x : Machine, x.Going → x.globals = m.globals →
      Flowing grant z r [] x → I x) : (m.enter callee args).Leads I Q := by
  have hentered : (m.enter callee args).Leads
      (fun x => x.globals = m.globals ∧ Flowing grant z r [] x)
      fun reply => ∃ f, reply.1 = .error f ∧ Q (.error f, reply.2) := by
    have hfails (f : Fault) (regs : Registers) (usage : Usage) :
        Q (.error f, { m with regs := regs, usage := usage }) :=
      hfail _ _ rfl ⟨hz.fit, hz.globals⟩
    unfold enter clearRegisters
    refine pushArgs_leads (fun f _ _ => ⟨f, rfl, hfails f _ _⟩) fun usage stack hstack => ?_
    have hitems : stack.items = args ++ .mark :: [] := by simpa [Stack.empty] using hstack
    cases htyped with
    | int _ => exact ⟨_, rfl, hfails _ _ _⟩
    | tuple _ _ _ => exact ⟨_, rfl, hfails _ _ _⟩
    | @closure a captured cell env offset is hcell _ hfields henv hat hdisciplined =>
        have hheap : m.heap.fields a = #[env, .code offset] :=
          (Heap.fields_of_cell hcell).trans hfields
        obtain ⟨hown, hacts⟩ := hstart a env offset captured rfl hheap henv
        have hzoned : Zoned grant z { m with regs := { args := stack }, usage := usage } :=
          ⟨hz.fit, hz.globals⟩
        obtain ⟨next, hjump, hglobals, hflowing⟩ := jump_flowing hzoned hheap hown hat
          hdisciplined hacts hargs hitems rfl rfl .bottom
        dsimp only at hjump ⊢
        rw [hjump]
        exact ⟨hglobals, hflowing⟩
  have hfine := fine_enter hsound htyped hdata
  cases hprogress : m.enter callee args with
  | running x =>
      rw [hprogress] at hentered hfine
      exact hrunning x ⟨hfine.1, hfine.2⟩ hentered.1 hentered.2
  | finished x =>
      rw [hprogress] at hentered
      obtain ⟨f, hf, _⟩ := hentered
      cases hf
  | faulted f x =>
      rw [hprogress] at hentered
      obtain ⟨f', hf, hQ⟩ := hentered
      cases hf
      exact hQ

/-- The zones and the globals of a machine after a run that started with the zones `z` and
the globals `g`. -/
def Rezoned (grant : Nat → UInt16 → Prop) (z : Zones) (g : Globals)
    (reply : Reply Value) : Prop :=
  ∃ z', z.Le z' ∧ g.Assigned reply.2.globals ∧ Zoned grant z' reply.2 ∧
    ∀ v, reply.1 = .ok v → v.Within z'.known

/-- Runs keep zones, and do no more to globals than assign them.  What they return is known
afterwards. -/
theorem zoned_run (hsound : m.Sound) (hz : Zoned grant z m) {callee : Value}
    {args : List Value} (htyped : Typed m.world .data callee)
    (hdata : ∀ v ∈ args, Typed m.world .data v)
    (hstart : ∀ a env offset captured, callee = .ref .closure a →
      m.heap.fields a = #[env, .code offset] → Typed m.world (.env captured) env →
        r.Own z env ∧ m.code.Acts r.slot offset)
    (hargs : ∀ v ∈ args, r.Given z v) : Rezoned grant z m.globals (m.run callee args) := by
  have hends {f : Fault} {x : Machine} {z' : Zones} (hle : z.Le z')
      (hassigned : m.globals.Assigned x.globals) (hx : Zoned grant z' x) :
      Rezoned grant z m.globals (.error f, x) :=
    ⟨z', hle, hassigned, hx, fun v hv => by cases hv⟩
  refine run_leads (I := fun x => x.Going ∧ m.globals.Assigned x.globals ∧
      ∃ z' r rs, z.Le z' ∧ Flowing grant z' r rs x)
    ?_ ?_ ?_ ?_ (enter_leads hsound hz htyped hdata hstart hargs ?_ ?_)
  · rintro x ⟨hgoing, hassigned, z', r, rs, hle, hflowing⟩ usage
    obtain ⟨hgoing', hflowing'⟩ := hflowing.ready hgoing usage
    have hglobals := (kept_ready hgoing.sound.tidy).globals
    exact ⟨hgoing', hglobals ▸ hassigned, z', r, rs, hle, hflowing'⟩
  · rintro x f ⟨_, hassigned, z', r, rs, hle, hflowing⟩ _
    exact hends hle hassigned hflowing.zoned
  · rintro x ⟨hgoing, hassigned, z', r, rs, hle, hflowing⟩
    have hcourse := hflowing.step hgoing
    have hfine := fine_step hgoing.sound hgoing.running
    have hstepped := x.stepped_step
    cases hprogress : x.step with
    | running next =>
        rw [hprogress] at hcourse hfine
        refine ⟨⟨hfine.1, hfine.2⟩, ?_⟩
        cases hcourse with
        | goes hglobals hle' hflowing' _ =>
            exact ⟨hglobals ▸ hassigned, _, _, _, hle.trans hle', hflowing'⟩
        | assigns _ hset _ hle' hflowing' _ =>
            exact ⟨hassigned.set hset, _, _, _, hle.trans hle', hflowing'⟩
    | finished last =>
        rw [hprogress] at hcourse
        cases hcourse with
        | ends hglobals _ _ hle' hfit hacc =>
            have hx := hflowing.zoned
            refine ⟨_, hle.trans hle', hglobals ▸ hassigned, ⟨hfit, fun e he => ?_⟩,
              fun v hv => ?_⟩
            · rw [hglobals] at he
              exact (hx.globals e he).mono hle'.calm
            · cases hv
              refine hacc.within.mono fun a ha => ?_
              cases r with
              | free => exact ha
              | _ => exact hfit.sub a ha
    | faulted f last =>
        rw [hprogress] at hcourse hstepped
        cases hcourse with
        | fails hglobals =>
            exact hends hle (hglobals ▸ hassigned)
              (hflowing.zoned.fade hstepped.code hglobals hstepped.heap.fades)
  · rintro reply ⟨z', hle, hassigned, hzoned, hvalue⟩
    exact ⟨z', hle, hassigned, ⟨hzoned.fit, hzoned.globals⟩, hvalue⟩
  · exact fun f x hglobals hx => hends (.refl z) (hglobals ▸ .refl) hx
  · exact fun x hgoing hglobals hflowing =>
      ⟨hgoing, hglobals ▸ .refl, z, r, [], .refl z, hflowing⟩

/-- The roles of a run that works for a definition, or for none: all of its calls are calm
but for the call of the definition itself. -/
def Roles (base : Option UInt16) (rs : List Role) : Prop :=
  ∃ n, rs = List.replicate n .calm ++ (base.map (Role.defining · true)).toList

variable {base : Option UInt16} {r' : Role} {rs' : List Role}

theorem Roles.cases (h : Roles base (r :: rs)) :
    r = .calm ∧ Roles base rs ∨ ∃ k, base = some k ∧ r = .defining k true ∧ rs = [] := by
  obtain ⟨n, heq⟩ := h
  cases n with
  | zero =>
      cases base with
      | none => cases heq
      | some k =>
          cases heq
          exact .inr ⟨k, rfl, rfl, rfl⟩
  | succ n =>
      rw [List.replicate_succ, List.cons_append] at heq
      cases heq
      exact .inl ⟨rfl, n, rfl⟩

theorem Roles.calm (h : Roles base rs) : Roles base (.calm :: rs) := by
  obtain ⟨n, rfl⟩ := h
  exact ⟨n + 1, rfl⟩

/-- The calls of such a run stay calm. -/
theorem Roles.next (h : Roles base (r :: rs)) (hnext : Role.Next (r :: rs) (r' :: rs')) :
    Roles base (r' :: rs') := by
  have hcalm {p : Role} (hcalls : r.Calls p) : p = .calm := by
    rcases h.cases with ⟨rfl, _⟩ | ⟨k, _, rfl, _⟩
    · cases hcalls
      rfl
    · cases hcalls
      rfl
  have hrest (hr : r.slot = none) : Roles base rs := by
    rcases h.cases with ⟨_, hrs⟩ | ⟨k, _, rfl, _⟩
    · exact hrs
    · cases hr
  cases hnext with
  | stay => exact h
  | called hcalls => exact hcalm hcalls ▸ h.calm
  | replaced hr hcalls => exact hcalm hcalls ▸ (hrest hr).calm
  | left hr => exact hrest hr

/-- How far a run has come that works for one definition, or for none, when the globals
were `g` at its start. -/
inductive Phase (grant : Nat → UInt16 → Prop) (g : Globals) (base : Option UInt16)
    (m : Machine) : Prop where
  | before {z : Zones} {r : Role} {rs : List Role} :
      m.globals = g → Roles base (r :: rs) → Flowing grant z r rs m → Phase grant g base m
  | after {k : UInt16} :
      base = some k → g.set? k.toNat m.regs.acc = some m.globals → m.Ending →
      Phase grant g base m

/-- What such a run has done to the globals at its end. -/
inductive Assignment (g : Globals) (base : Option UInt16) (reply : Reply Value) : Prop where
  | missing : reply.2.globals = g → (∀ v, reply.1 = .ok v → base = none) →
      Assignment g base reply
  | made {k : UInt16} {v : Value} : base = some k → g.set? k.toNat v = some reply.2.globals →
      (∀ u, reply.1 = .ok u → u = v) → (∀ f, reply.1 = .error f → f.cause ∈ stopCauses) →
      Assignment g base reply

/-- At the end of the outermost call its value is returned. -/
theorem Ending.step (h : m.Ending) : ∃ last, m.step = .finished last ∧
    last.regs.acc = m.regs.acc ∧ last.globals = m.globals := by
  have htop : (m.fetched .ret).regs.args.top? = some .mark := by
    change m.regs.args.items.head? = _
    rw [h.args]
    rfl
  have hreturns : (m.fetched .ret).regs.returns.items.drop (m.fetched .ret).regs.extra = [] :=
    h.returns
  have hstep : m.step = (m.fetched .ret).leave := by
    rw [step_of_fetch h.fetch, execute, htop]
    dsimp only
    rw [if_pos (by rfl)]
  exact ⟨_, hstep.trans (leave_of_nil hreturns), rfl, rfl⟩

theorem Phase.step (hgoing : m.Going) (h : Phase grant g base m) :
    m.step.Leads (Phase grant g base) (Assignment g base) := by
  cases h with
  | @before z r rs hglobals hroles hflowing =>
      have hcourse := hflowing.step hgoing
      cases hprogress : m.step with
      | running next =>
          rw [hprogress] at hcourse
          cases hcourse with
          | goes hglobals' _ hflowing' hnext =>
              exact .before (hglobals'.trans hglobals) (hroles.next hnext) hflowing'
          | assigns hr hset hacc _ _ hending =>
              rcases hroles.cases with ⟨rfl, _⟩ | ⟨k, hbase, rfl, hrs⟩
              · cases hr
              · cases hr
                refine .after hbase ?_ (hending rfl hrs)
                rw [hacc, ← hglobals]
                exact hset
      | finished last =>
          rw [hprogress] at hcourse
          cases hcourse with
          | ends hglobals' hr hrs _ _ _ =>
              refine .missing (hglobals'.trans hglobals) fun v _ => ?_
              rcases hroles.cases with ⟨_, n, hrest⟩ | ⟨k, _, rfl, _⟩
              · rw [hrs] at hrest
                cases base with
                | none => rfl
                | some k => simp at hrest
              · cases hr
      | faulted f last =>
          rw [hprogress] at hcourse
          cases hcourse with
          | fails hglobals' =>
              exact .missing (hglobals'.trans hglobals) fun v hv => by cases hv
  | after hbase hset hending =>
      obtain ⟨last, hstep, hacc, hglobals⟩ := hending.step
      rw [hstep]
      refine .made hbase (hglobals ▸ hset) (fun u hu => ?_) fun f hf => by cases hf
      cases hu
      exact hacc

/-- A run that works for one definition, or for none, assigns its global right before it
returns, or nothing at all. -/
theorem assignment_run (hsound : m.Sound) (hz : Zoned grant z m) {callee : Value}
    {args : List Value} (hroles : Roles base [r]) (htyped : Typed m.world .data callee)
    (hdata : ∀ v ∈ args, Typed m.world .data v)
    (hstart : ∀ a env offset captured, callee = .ref .closure a →
      m.heap.fields a = #[env, .code offset] → Typed m.world (.env captured) env →
        r.Own z env ∧ m.code.Acts r.slot offset)
    (hargs : ∀ v ∈ args, r.Given z v) :
    Assignment m.globals base (m.run callee args) := by
  refine run_leads (I := fun x => x.Going ∧ Phase grant m.globals base x) ?_ ?_ ?_ ?_
    (enter_leads hsound hz htyped hdata hstart hargs ?_ ?_)
  · rintro x ⟨hgoing, hstage⟩ usage
    have hkept := kept_ready hgoing.sound.tidy
    refine ⟨hgoing.ready.1.withRecords _ _ _, ?_⟩
    cases hstage with
    | before hglobals hroles hflowing =>
        exact .before (hkept.globals.trans hglobals) hroles (hflowing.ready hgoing usage).2
    | after hbase hset hending =>
        have hcode : x.ready.2.code = x.code := hkept.code
        have hregs : x.ready.2.regs = x.regs := hkept.regs
        have hglobals : x.ready.2.globals = x.globals := hkept.globals
        refine .after hbase ?_ ⟨?_, ?_, ?_⟩
        · change m.globals.set? _ x.ready.2.regs.acc = some x.ready.2.globals
          rwa [hregs, hglobals]
        · change x.ready.2.code.fetch x.ready.2.regs.pc = _
          rw [hcode, hregs]
          exact hending.fetch
        · exact (congrArg (·.args.items) hregs).trans hending.args
        · change x.ready.2.regs.returns.items.drop x.ready.2.regs.extra = []
          rw [hregs]
          exact hending.returns
  · rintro x f ⟨_, hstage⟩ hcause
    cases hstage with
    | before hglobals _ _ => exact .missing hglobals fun v hv => by cases hv
    | after hbase hset _ =>
        refine .made hbase hset (fun u hu => by cases hu) fun f' hf' => ?_
        cases hf'
        exact hcause
  · rintro x ⟨hgoing, hstage⟩
    have hleads := hstage.step hgoing
    have hfine := fine_step hgoing.sound hgoing.running
    cases hprogress : x.step with
    | running next =>
        rw [hprogress] at hleads hfine
        exact ⟨⟨hfine.1, hfine.2⟩, hleads⟩
    | finished last =>
        rw [hprogress] at hleads
        exact hleads
    | faulted f last =>
        rw [hprogress] at hleads
        exact hleads
  · rintro reply hassignment
    cases hassignment with
    | missing hglobals hbase => exact .missing hglobals hbase
    | made hbase hset hvalue hfault => exact .made hbase hset hvalue hfault
  · exact fun f x hglobals _ => .missing hglobals fun v hv => by cases hv
  · exact fun x hgoing hglobals hflowing => ⟨hgoing, .before hglobals hroles hflowing⟩

end Machine

end Zinc
