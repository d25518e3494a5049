import Zinc.Proofs.Machine.Unbounded
import Zinc.Proofs.Machine.Usage

/-!
Limits only cut runs off.  A run whose stacks always have room and that has no step limit
is followed by the same run under limits, instruction by instruction, until the peaks or
the number of instructions exceed them.  So a limited run ends exactly as the other one if
its limits allow what the other one uses, and it is cut off if they do not.
-/

namespace Zinc

/-- One usage is at most another one. -/
structure Usage.UpTo (u u' : Usage) : Prop where
  steps : u.steps ≤ u'.steps
  args : u.peakArgs ≤ u'.peakArgs
  returns : u.peakReturns ≤ u'.peakReturns

namespace Usage.UpTo

variable {u u' u'' : Usage} {l : Limits}

theorem refl (u : Usage) : u.UpTo u :=
  ⟨Nat.le_refl _, Nat.le_refl _, Nat.le_refl _⟩

theorem trans (h : u.UpTo u') (h' : u'.UpTo u'') : u.UpTo u'' :=
  ⟨Nat.le_trans h.steps h'.steps, Nat.le_trans h.args h'.args,
    Nat.le_trans h.returns h'.returns⟩

theorem fits (h : u.UpTo u') (hfits : u'.Fits l) : u.Fits l :=
  ⟨Int.le_trans (Int.ofNat_le.2 h.args) hfits.args,
    Int.le_trans (Int.ofNat_le.2 h.returns) hfits.returns⟩

theorem within (h : u.UpTo u') (hwithin : u'.Within l) : u.Within l :=
  ⟨h.fits hwithin.toFits, fun hlimit =>
    Int.le_trans (Int.ofNat_le.2 h.steps) (hwithin.steps hlimit)⟩

end Usage.UpTo

theorem Fault.kind_locateIfUnknown (f : Fault) (pc : Int) :
    (f.locateIfUnknown pc).kind = f.kind := by
  rw [Fault.locateIfUnknown]
  split
  · rfl
  · rfl

namespace Machine

theorem Paced.upTo {m m' : Machine} (h : Paced m m') : m.usage.UpTo m'.usage := by
  cases h with
  | level husage _ _ => exact husage ▸ .refl _
  | argument _ husage _ _ =>
      rw [husage]
      exact ⟨Nat.le_refl _, Nat.le_max_left _ _, Nat.le_refl _⟩
  | entry _ husage _ _ =>
      rw [husage]
      exact ⟨Nat.le_refl _, Nat.le_refl _, Nat.le_max_left _ _⟩

theorem upTo_step {m : Machine} {u : Usage}
    (h : m.step.After fun next => next.usage.UpTo u) : m.usage.UpTo u := by
  have hpaced := m.paced_step
  generalize m.step = p at h hpaced
  cases p with
  | running next => exact (Paced.upTo hpaced).trans h
  | finished next => exact (Paced.upTo hpaced).trans h
  | faulted f next => exact (Paced.upTo hpaced).trans h

/-- The machine under other limits. -/
def relimit (l : Limits) (m : Machine) : Machine :=
  { m with limits := l }

/-- A step under the limits `l` does what the step `p` does if its peaks fit the limits,
and finds a stack full if they do not. -/
inductive Confined (l : Limits) (p q : Progress) : Prop where
  | same : p.After (fun m => m.usage.Fits l) → q = p.map (relimit l) → Confined l p q
  | full {f : Fault} {last : Machine} : p.After (fun m => ¬ m.usage.Fits l) →
      q = .faulted f last → f.kind = .capacity → f.cause ∈ stackCauses → Confined l p q

variable {l : Limits} {m m' : Machine}

/-- A step that pushes nothing. -/
theorem Confined.level {p q : Progress} (hfits : m.usage.Fits l)
    (hp : p.After fun last => last.usage = m.usage) (hq : q = p.map (relimit l)) :
    Confined l p q :=
  .same (hp.imp fun _ hlast => hlast ▸ hfits) hq

theorem relimit_jump (m : Machine) (callee : Value) :
    (m.relimit l).jump callee = (m.jump callee).map (relimit l) := by
  unfold jump
  dsimp only
  split
  · rename_i a
    by_cases hsize : (m.heap.fields a).size = 2
    · rw [if_pos hsize]
      exact if_pos hsize
    · rw [if_neg hsize]
      exact if_neg hsize
  · rfl

theorem relimit_leave (m : Machine) : (m.relimit l).leave = m.leave.map (relimit l) := by
  unfold leave dropExtras
  dsimp only [relimit]
  split
  · rfl
  · rfl
  · rfl

theorem relimit_makeTuple (m : Machine) (n : Nat) :
    (m.relimit l).makeTuple n = (m.makeTuple n).map (relimit l) := by
  unfold makeTuple
  dsimp only
  rw [show (m.relimit l).regs = m.regs from rfl]
  split
  · rfl
  · rfl

theorem usage_leave (m : Machine) : m.leave.After fun last => last.usage = m.usage := by
  unfold leave dropExtras
  dsimp only
  split
  · rfl
  · rfl
  · rfl

theorem usage_makeTuple (m : Machine) (n : Nat) :
    (m.makeTuple n).After fun last => last.usage = m.usage := by
  unfold makeTuple
  dsimp only
  split
  · rfl
  · rfl

theorem confined_pushArg (hroom : m.regs.args.depth < m.limits.argStack)
    (hfits : m.usage.Fits l) (v : Value) :
    Confined l (m.pushArg v) ((m.relimit l).pushArg v) := by
  rw [pushArg, pushArg, if_neg (Int.not_le.2 hroom)]
  by_cases hfull : l.argStack ≤ m.regs.args.depth
  · refine .full (fun hfits' => ?_) (if_pos hfull) rfl List.mem_cons_self
    have hpeak := hfits'.args
    dsimp only [Stack.push] at hpeak
    omega
  · refine .same ⟨?_, hfits.returns⟩ (if_neg hfull)
    have hpeak := hfits.args
    dsimp only [Stack.push]
    omega

theorem confined_pushReturn (hroom : m.regs.returns.depth < m.limits.returnStack)
    (hfits : m.usage.Fits l) (e : ReturnEntry) :
    Confined l (m.pushReturn e) ((m.relimit l).pushReturn e) := by
  rw [pushReturn, pushReturn, if_neg (Int.not_le.2 hroom)]
  by_cases hfull : l.returnStack ≤ m.regs.returns.depth
  · refine .full (fun hfits' => ?_) (if_pos hfull) rfl
      (List.mem_cons_of_mem _ List.mem_cons_self)
    have hpeak := hfits'.returns
    dsimp only [Stack.push] at hpeak
    omega
  · refine .same ⟨hfits.args, ?_⟩ (if_neg hfull)
    have hpeak := hfits.returns
    dsimp only [Stack.push]
    omega

/-- What comes after a step never lowers the peaks. -/
theorem Confined.andThen {p q : Progress} {k : Machine → Progress} (h : Confined l p q)
    (hk : ∀ x, p = .running x → x.usage.Fits l → Confined l (k x) (k (x.relimit l)))
    (hgrows : ∀ x, (k x).After fun last => last.usage.Fits l → x.usage.Fits l) :
    Confined l (p.andThen k) (q.andThen k) := by
  cases h with
  | same hfits hq =>
      subst hq
      cases p with
      | running x => exact hk x rfl hfits
      | finished x => exact .same hfits rfl
      | faulted f x => exact .same hfits rfl
  | full hfull hq hkind hcause =>
      subst hq
      refine .full ?_ rfl hkind hcause
      cases p with
      | running x => exact (hgrows x).imp fun last hlast hfits => hfull (hlast hfits)
      | finished x => exact hfull
      | faulted f x => exact hfull

theorem confined_jump (hfits : m.usage.Fits l) (callee : Value) :
    Confined l (m.jump callee) ((m.relimit l).jump callee) :=
  .level hfits ((m.level_jump callee).imp fun _ hlast => hlast.1) (relimit_jump _ _)

theorem confined_leave (hfits : m.usage.Fits l) :
    Confined l m.leave (m.relimit l).leave :=
  .level hfits m.usage_leave (relimit_leave _)

theorem confined_execute (hroom : m.Roomy) (hfits : m.usage.Fits l) (i : Instr) :
    Confined l (m.execute i) ((m.relimit l).execute i) := by
  have running {x : Machine} (husage : x.usage = m.usage) :
      Confined l (.running x) (.running (x.relimit l)) :=
    .level hfits husage rfl
  have failed (kind : FaultKind) (cause : Cause) (detail : Option String) :
      Confined l (m.fail kind cause detail) ((m.relimit l).fail kind cause detail) :=
    .level (p := m.fail kind cause detail) hfits rfl rfl
  cases i with
  | int64 value => exact running rfl
  | push => exact confined_pushArg hroom.args hfits _
  | pushMark => exact confined_pushArg hroom.args hfits _
  | access index =>
      unfold execute
      dsimp only
      rw [show (m.relimit l).local? index.toNat = m.local? index.toNat from rfl]
      split
      · exact running rfl
      · exact failed _ _ _
  | closure length =>
      unfold execute
      dsimp only
      rw [show (m.relimit l).code = m.code from rfl,
        show (m.relimit l).regs = m.regs from rfl]
      split
      · exact failed _ _ _
      · exact running rfl
  | apply =>
      refine (confined_pushReturn hroom.returns hfits _).andThen ?_ ?_
      · intro x _ hfits'
        exact confined_jump (m := { x with regs := { x.regs with extra := 0 } }) hfits' _
      · intro x
        refine (level_jump _ _).imp fun _ hlast hfits' => ?_
        rw [hlast.1] at hfits'
        exact hfits'
  | appTerm => exact confined_jump (m := m.dropExtras) hfits _
  | grab =>
      unfold execute
      dsimp only
      rw [show (m.relimit l).regs = m.regs from rfl]
      split
      · exact failed _ _ _
      · split
        · exact confined_leave (m := m.loadClosure _) hfits
        · exact (confined_pushReturn
            (m := { m with regs := { m.regs with args := m.regs.args.drop 1 } })
            hroom.returns hfits _).andThen (fun x _ hfits' => .level hfits' rfl rfl)
              fun x hfits' => hfits'
  | ret =>
      unfold execute
      dsimp only
      rw [show (m.relimit l).regs = m.regs from rfl]
      split
      · exact failed _ _ _
      · split
        · exact confined_leave hfits
        · exact confined_jump (m := m.dropExtras) hfits _
  | makeBlock n => exact .level hfits (m.usage_makeTuple _) (relimit_makeTuple _ _)
  | bind =>
      exact (confined_pushReturn hroom.returns hfits _).andThen
        (fun x _ hfits' => .level hfits' rfl rfl) fun x hfits' => hfits'
  | unbind =>
      unfold execute
      dsimp only
      rw [show (m.relimit l).regs = m.regs from rfl]
      split
      · exact failed _ _ _
      · exact running rfl
  | setGlobal slot =>
      unfold execute
      dsimp only
      rw [show (m.relimit l).globals = m.globals from rfl,
        show (m.relimit l).regs = m.regs from rfl]
      split
      · exact running rfl
      · exact failed _ _ _
  | getGlobal slot =>
      unfold execute
      dsimp only
      rw [show (m.relimit l).globals = m.globals from rfl]
      split
      · exact failed _ _ _
      · split
        · exact running rfl
        · exact failed _ _ _

/-- A step with room on the stacks, next to the same step under limits. -/
theorem confined_step (hroom : m.Roomy) (hfits : m.usage.Fits l) :
    Confined l m.step (m.relimit l).step := by
  rw [step_eq, step_eq]
  rw [show (m.relimit l).code = m.code from rfl, show (m.relimit l).regs = m.regs from rfl]
  split
  · exact .level (p := .faulted _ _) hfits rfl rfl
  · exact .level (p := .faulted _ _) hfits rfl rfl
  · exact .level (p := .faulted _ _) hfits rfl rfl
  · rename_i i _
    exact confined_execute (m := m.fetched i) ⟨hroom.args, hroom.returns⟩ hfits i

theorem upTo_pushArgs (m : Machine) (vs : List Value) :
    (m.pushArgs vs).After fun last => m.usage.UpTo last.usage := by
  induction vs generalizing m with
  | nil => exact .refl _
  | cons v rest ih =>
      have hpaced := m.paced_pushArg v
      rw [pushArgs]
      generalize m.pushArg v = p at hpaced
      cases p with
      | running next => exact (ih next).imp fun last hlast => hpaced.upTo.trans hlast
      | finished last => exact hpaced.upTo
      | faulted f last => exact hpaced.upTo

theorem confined_pushArgs (vs : List Value)
    (hroom : m.regs.args.depth + vs.length ≤ m.limits.argStack) (hfits : m.usage.Fits l) :
    Confined l (m.pushArgs vs) ((m.relimit l).pushArgs vs) := by
  induction vs generalizing m with
  | nil => exact .same hfits rfl
  | cons v rest ih =>
      rw [List.length_cons] at hroom
      have hleft : m.regs.args.depth < m.limits.argStack := by omega
      refine (confined_pushArg hleft hfits v).andThen ?_ ?_
      · intro x hx hfits'
        rw [pushArg, if_neg (Int.not_le.2 hleft)] at hx
        obtain rfl := Progress.running.inj hx
        refine ih ?_ hfits'
        dsimp only [Stack.push]
        omega
      · intro x
        exact (upTo_pushArgs x rest).imp fun last hlast => hlast.fits

theorem confined_enter (callee : Value) (args : List Value)
    (hroom : args.length + 1 ≤ m.limits.argStack) (hfits : Usage.Fits l {}) :
    Confined l (m.enter callee args) ((m.relimit l).enter callee args) := by
  have hmarked : (({ m with usage := {} } : Machine).clearRegisters.regs.args.depth : Int) +
      (Value.mark :: args.reverse).length ≤ m.limits.argStack := by
    rw [List.length_cons, List.length_reverse]
    dsimp only [clearRegisters, Stack.empty]
    omega
  refine (confined_pushArgs _ hmarked hfits).andThen (fun x _ hfits' => ?_) fun x => ?_
  · exact confined_jump hfits' callee
  · refine (x.level_jump callee).imp fun _ hlast hfits' => ?_
    rwa [hlast.1] at hfits'

/-- The machine with room for one more entry on either stack and with no step limit. -/
def boundless (m : Machine) : Machine :=
  m.relimit { m.limits with
    argStack := m.regs.args.depth + 1
    returnStack := m.regs.returns.depth + 1
    maxSteps := 0 }

/-- The reply that a step leads to, with `k` for a machine that is still running. -/
def conclude (k : Machine → Option (Reply Value)) : Progress → Option (Reply Value)
  | .running m => k m
  | .finished m => some (.ok m.regs.acc, m)
  | .faulted f m => some (.error f, m)

/-- A run without bounds, if it ends within `fuel` instructions. -/
def boundlessLoop : Nat → Machine → Option (Reply Value)
  | 0, _ => none
  | fuel + 1, m =>
    match m.boundless.ready with
    | (some f, m) => some (.error (f.locateIfUnknown m.started.offset), m)
    | (none, m) => conclude (boundlessLoop fuel) m.counted.step

/-- Applies a closure to arguments and runs it without bounds, if that ends within the
horizon. -/
def boundlessRun (m : Machine) (callee : Value) (args : List Value) :
    Option (Reply Value) :=
  let m := m.relimit { m.limits with argStack := args.length + 1 }
  (conclude (boundlessLoop m.horizon) (m.enter callee args)).map fun (answer, m) =>
    (answer, m.clearRegisters)

/-- The limits agree on everything that does not bound a run. -/
structure Akin (l l' : Limits) : Prop where
  threshold : l'.threshold? = l.threshold?
  trace : l'.trace = l.trace

theorem relimit_asked (m : Machine) :
    (m.relimit l).asked = (m.asked.1, m.asked.2.relimit l) := by
  unfold asked askWatch
  rw [show (m.relimit l).usage = m.usage from rfl,
    show (m.relimit l).watch = m.watch from rfl]
  split
  · split
    · rfl
    · split
      · rfl
      · rfl
  · rfl

theorem limits_asked (m : Machine) : m.asked.2.limits = m.limits := by
  unfold asked
  split
  · exact m.evaluated_askWatch.limits
  · rfl

theorem relimit_collectIfFull (h : Akin m.limits l) :
    (m.relimit l).collectIfFull = m.collectIfFull.relimit l := by
  have hthreshold : l.threshold = m.limits.threshold := by
    rw [Limits.threshold, Limits.threshold, h.threshold]
  unfold collectIfFull
  rw [show (m.relimit l).limits = l from rfl, hthreshold,
    show (m.relimit l).heap = m.heap from rfl]
  split
  · rfl
  · rfl

theorem relimit_traced (h : Akin m.limits l) :
    (m.relimit l).traced = m.traced.relimit l := by
  have hlogged (record : Record) :
      (m.relimit l).logged record = (m.logged record).relimit l := by
    unfold logged
    rw [show (m.relimit l).logLevel = m.logLevel from rfl]
    split
    · rfl
    · rfl
  unfold traced
  rw [show (m.relimit l).limits = l from rfl, h.trace,
    show (m.relimit l).logLevel = m.logLevel from rfl]
  split
  · exact hlogged m.traceRecord
  · rfl

/-- Limits that leave a step do not change what happens before it. -/
theorem relimit_ready (h : Akin m.limits l) (hfree : ¬ m.Spent)
    (hleft : ¬ (m.relimit l).Spent) :
    (m.relimit l).ready = (m.ready.1, m.ready.2.relimit l) := by
  have hasked := m.relimit_asked (l := l)
  have hlimits := m.limits_asked
  rcases m.ready_cases with ⟨hspent, _⟩ | ⟨_, f, x, heq, hready⟩ | ⟨_, x, heq, hready⟩
  · exact absurd hspent hfree
  · rw [heq] at hasked
    rcases (m.relimit l).ready_cases with ⟨hspent, _⟩ | ⟨_, _, _, heq', hready'⟩ |
      ⟨_, _, heq', _⟩
    · exact absurd hspent hleft
    · cases hasked.symm.trans heq'
      rw [hready, hready']
    · cases hasked.symm.trans heq'
  · rw [heq] at hasked hlimits
    rcases (m.relimit l).ready_cases with ⟨hspent, _⟩ | ⟨_, _, _, heq', _⟩ |
      ⟨_, _, heq', hready'⟩
    · exact absurd hspent hleft
    · cases hasked.symm.trans heq'
    · cases hasked.symm.trans heq'
      have hakin : Akin x.limits l := hlimits ▸ h
      have hcollected : Akin x.collectIfFull.limits l :=
        x.evaluated_collectIfFull.limits ▸ hakin
      rw [hready, hready', relimit_collectIfFull hakin, relimit_traced hcollected]

/-- Only a limit or the watch stops a run between instructions. -/
theorem kind_of_ready {f : Fault} (h : m.ready = (some f, m')) : f.kind = .capacity := by
  rcases m.ready_cases with ⟨_, hready⟩ | ⟨_, g, x, hasked, hready⟩ | ⟨_, x, _, hready⟩
  · rw [hready] at h
    cases h
    rfl
  · rw [hready] at h
    cases h
    unfold asked askWatch at hasked
    split at hasked
    · split at hasked
      · cases hasked
      · split at hasked
        · cases hasked
          rfl
        · cases hasked
    · cases hasked
  · rw [hready] at h
    cases h

/-- A value, or a fault that is not about resources. -/
def Settled (answer : Except Fault Value) : Prop :=
  ∀ f, answer = .error f → f.kind ≠ .capacity

variable {answer : Except Fault Value} {last : Machine}

theorem after_conclude {P : Machine → Prop} {k : Machine → Option (Reply Value)}
    {p : Progress} (h : conclude k p = some (answer, last)) (hlast : P last)
    (hk : ∀ next, k next = some (answer, last) → P next) : p.After P := by
  cases p with
  | running next => exact hk next h
  | finished next =>
      cases h
      exact hlast
  | faulted f next =>
      cases h
      exact hlast

/-- Whatever a run without bounds goes through, it uses no less in the end. -/
theorem upTo_boundlessLoop (fuel : Nat) (h : boundlessLoop fuel m = some (answer, last)) :
    m.usage.UpTo last.usage := by
  induction fuel generalizing m with
  | zero => cases h
  | succ fuel ih =>
      obtain ⟨_, husage⟩ := m.boundless.ready_registers
      rw [boundlessLoop] at h
      generalize m.boundless.ready = r at h husage
      obtain ⟨stop, x⟩ := r
      dsimp only at husage h
      cases stop with
      | some f =>
          cases h
          rw [husage]
          exact .refl _
      | none =>
          have hcounted : m.usage.UpTo x.counted.usage := by
            rw [counted, husage]
            exact ⟨Nat.le_succ _, Nat.le_refl _, Nat.le_refl _⟩
          exact hcounted.trans (upTo_step (after_conclude h (.refl _) fun _ => ih))

/-- A limited run next to one without bounds that ends with `answer` and `last`. -/
inductive Capped (l : Limits) (answer : Except Fault Value) (last : Machine) :
    Reply Value → Prop where
  | kept : last.usage.Within l → Capped l answer last (answer, last.relimit l)
  | cut {f : Fault} {after : Machine} : ¬ last.usage.Within l → f.kind = .capacity →
      f.cause ∈ cutCauses → Capped l answer last (.error f, after)

/-- What follows on a step: the same, or the run is cut off here. -/
theorem capped_of_confined {p q : Progress} {k : Machine → Option (Reply Value)}
    {r : Machine → Reply Value} (hp : conclude k p = some (answer, last))
    (hsteps : p.After fun x => 0 < l.maxSteps → x.usage.steps ≤ l.maxSteps)
    (hgrows : ∀ next, k next = some (answer, last) → next.usage.UpTo last.usage)
    (hk : ∀ next, p = .running next → next.usage.Within l → k next = some (answer, last) →
      Capped l answer last (r (next.relimit l))) :
    Confined l p q → Capped l answer last (match q with
      | .running m => r m
      | .finished m => (.ok m.regs.acc, m)
      | .faulted f m => (.error f, m)) := by
  intro h
  cases h with
  | same hfits hq =>
      rw [hq]
      cases p with
      | running next => exact hk next rfl ⟨hfits, hsteps⟩ hp
      | finished next =>
          cases hp
          exact .kept ⟨hfits, hsteps⟩
      | faulted f next =>
          cases hp
          exact .kept ⟨hfits, hsteps⟩
  | full hfull hq hkind hcause =>
      rw [hq]
      refine .cut (fun hlast => ?_) hkind (mem_cutCauses_of_stack hcause)
      have hfits := after_conclude (P := fun x => x.usage.Fits l) hp hlast.toFits
        fun next hnext => (hgrows next hnext).fits hlast.toFits
      cases p with
      | running next => exact hfull hfits
      | finished next => exact hfull hfits
      | faulted f next => exact hfull hfits

theorem capped_loop (fuel : Nat) (h : boundlessLoop fuel m = some (answer, last))
    (hsettled : Settled answer) (hakin : Akin m.limits l) (hwithin : m.usage.Within l) :
    Capped l answer last (loop fuel (m.relimit l)) := by
  induction fuel generalizing m with
  | zero => cases h
  | succ fuel ih =>
      obtain ⟨hregs, husage⟩ := m.boundless.ready_registers
      have hlimits := m.boundless.evaluated_ready.limits
      have hfree : ¬ m.boundless.Spent := fun hspent => absurd hspent.1 (Int.lt_irrefl 0)
      rw [boundlessLoop] at h
      rcases hready : m.boundless.ready with ⟨_ | f, x⟩
      · rw [hready] at h hregs husage hlimits
        dsimp only at h hregs husage hlimits
        have hsteps : x.counted.usage.steps = m.usage.steps + 1 := by
          rw [counted, husage]
          rfl
        by_cases hspent : (m.relimit l).Spent
        · -- the other run takes one more step than the limit allows
          have hmore : x.counted.usage.UpTo last.usage :=
            upTo_step (after_conclude h (.refl _) fun _ => upTo_boundlessLoop fuel)
          rw [loop, show (m.relimit l).ready = _ from if_pos hspent]
          refine .cut (fun hlast => ?_) (Fault.kind_locateIfUnknown _ _) ?_
          · have hbound := (hmore.within hlast).steps hspent.1
            have hreached : l.maxSteps ≤ m.usage.steps := hspent.2
            omega
          · rw [Fault.cause_locateIfUnknown]
            simp [stepLimitReached, cutCauses]
        · have hready' := relimit_ready (m := m.boundless) (l := l)
            ⟨hakin.threshold, hakin.trace⟩ hfree hspent
          rw [hready, show m.boundless.relimit l = m.relimit l from rfl] at hready'
          have hroomy : x.counted.Roomy := by
            constructor
            · show (x.regs.args.depth : Int) < x.limits.argStack
              rw [hregs, hlimits]
              exact Int.lt_succ _
            · show (x.regs.returns.depth : Int) < x.limits.returnStack
              rw [hregs, hlimits]
              exact Int.lt_succ _
          have hfits : x.counted.usage.Fits l := by
            rw [counted, husage]
            exact ⟨hwithin.args, hwithin.returns⟩
          rw [loop, hready']
          refine capped_of_confined (r := loop fuel) h ?_ (fun _ => upTo_boundlessLoop fuel) ?_
            (confined_step hroomy hfits)
          · refine x.counted.paced_step.imp fun next hnext hlimit => ?_
            have hleft : m.usage.steps < l.maxSteps :=
              Int.not_le.1 fun hle => hspent ⟨hlimit, hle⟩
            rw [hnext.steps, hsteps]
            exact hleft
          · intro next hnext hwithin' h'
            have hstepped := x.counted.stepped_step
            rw [hnext] at hstepped
            refine ih h' ?_ hwithin'
            rw [show next.limits = _ from hstepped.limits.trans hlimits]
            exact ⟨hakin.threshold, hakin.trace⟩
      · -- the watch has stopped the run, so its answer is about resources
        rw [hready] at h
        cases h
        refine absurd ?_ (hsettled _ rfl)
        rw [Fault.kind_locateIfUnknown, kind_of_ready hready]

theorem Capped.clearRegisters {reply : Reply Value} (h : Capped l answer last reply) :
    Capped l answer last.clearRegisters (reply.1, reply.2.clearRegisters) := by
  cases h with
  | kept hwithin => exact .kept hwithin
  | cut hwithin hkind hcause => exact .cut hwithin hkind hcause

/-- A limited run ends as the one without bounds does, or it is cut off. -/
theorem capped_run {callee : Value} {args : List Value} (hakin : Akin m.limits l)
    (hfits : Usage.Fits l {}) (h : m.boundlessRun callee args = some (answer, last))
    (hsettled : Settled answer) : Capped l answer last ((m.relimit l).run callee args) := by
  obtain ⟨⟨answer', last'⟩, hconclude, heq⟩ := Option.map_eq_some_iff.1 h
  cases heq
  refine Capped.clearRegisters (capped_of_confined (r := fun x => loop x.horizon x) hconclude
    ?_ (fun _ => upTo_boundlessLoop _) ?_ (confined_enter callee args (Int.le_refl _) hfits))
  · refine (opened_enter _ callee args).imp fun x hx hlimit => ?_
    rw [show x.usage.steps = 0 from congrArg Usage.steps hx]
    exact Int.le_of_lt hlimit
  · intro next hnext hwithin h'
    have hstepped := (m.relimit { m.limits with argStack := args.length + 1 }).stepped_enter
      callee args
    rw [hnext] at hstepped
    have hloop := capped_loop _ h' hsettled (l := l) ?_ hwithin
    · rwa [← hstepped.horizon] at hloop
    · rw [show next.limits = _ from hstepped.limits]
      exact ⟨hakin.threshold, hakin.trace⟩

/-- The machine with stacks of the given sizes and a step limit, where 0 is none. -/
def under (a r s : Nat) (m : Machine) : Machine :=
  m.relimit { m.limits with argStack := a, returnStack := r, maxSteps := s }

end Machine

/-- Stacks of the given sizes and a step limit, where 0 is none, are enough. -/
def Usage.Allowed (a r s : Nat) (u : Usage) : Prop :=
  u.peakArgs ≤ a ∧ u.peakReturns ≤ r ∧ (s = 0 ∨ u.steps ≤ s)

theorem Usage.allowed_iff {l : Limits} {a r s : Nat} {u : Usage} :
    u.Allowed a r s ↔
      u.Within { l with argStack := a, returnStack := r, maxSteps := s } := by
  constructor
  · rintro ⟨hargs, hreturns, hsteps⟩
    refine ⟨⟨Int.ofNat_le.2 hargs, Int.ofNat_le.2 hreturns⟩, fun hlimit => ?_⟩
    dsimp only at hlimit ⊢
    omega
  · rintro ⟨⟨hargs, hreturns⟩, hsteps⟩
    dsimp only at hargs hreturns hsteps
    refine ⟨Int.ofNat_le.1 hargs, Int.ofNat_le.1 hreturns, ?_⟩
    omega

/-- Limits never change an answer.  A run that ends without bounds, with a value or with a
fault that is not about resources, ends in the same way and with the same machine under
all limits that allow what it uses, and is cut off under all others.  Every limited run
reports the instructions that it starts and the greatest depths of its stacks, and they
are allowed. -/
theorem Machine.limits_only_cut_off (m : Machine) (callee : Value) (args : List Value)
    (a r s : Nat) :
    (∀ answer last, m.boundlessRun callee args = some (answer, last) → Settled answer →
      (last.usage.Allowed a r s →
        (m.under a r s).run callee args =
          (answer, last.relimit (m.under a r s).limits)) ∧
      (¬ last.usage.Allowed a r s → ∃ f, ((m.under a r s).run callee args).1 = .error f ∧
        f.kind = .capacity ∧ f.cause ∈ cutCauses)) ∧
    let usage := ((m.under a r s).run callee args).2.usage
    let run : Run := ⟨m.under a r s, callee, args⟩
    usage.steps = run.starts.length ∧
      (run.visits.map (·.regs.args.depth)).max? = some usage.peakArgs ∧
      (run.visits.map (·.regs.returns.depth)).max? = some usage.peakReturns ∧
      usage.Allowed a r s := by
  constructor
  · intro answer last h hsettled
    have hcapped : Capped (m.under a r s).limits answer last
        ((m.under a r s).run callee args) :=
      capped_run ⟨rfl, rfl⟩ ⟨Int.natCast_nonneg a, Int.natCast_nonneg r⟩ h hsettled
    generalize (m.under a r s).run callee args = reply at hcapped
    cases hcapped with
    | kept hwithin =>
        refine ⟨fun _ => rfl, fun hnot => ?_⟩
        exact absurd (Usage.allowed_iff.2 hwithin) hnot
    | cut hnot hkind hcause =>
        refine ⟨fun hallowed => absurd (Usage.allowed_iff.1 hallowed) hnot, fun _ => ?_⟩
        exact ⟨_, rfl, hkind, hcause⟩
  · intro usage run
    obtain ⟨hsteps, hargs, hreturns⟩ := run.reported
    refine ⟨hsteps, hargs, hreturns, (Usage.allowed_iff (l := m.limits)).2 ?_⟩
    exact run.within (Int.natCast_nonneg a) (Int.natCast_nonneg r)

/-- A function that gives its argument back takes three instructions, two entries on one
stack and one on the other. -/
theorem Machine.limits_only_cut_off_identity :
    let m := (({ create 0 {} with
      code := ⟨(Instr.encodeAll [.grab, .access 0, .ret]).toArray⟩ } : Machine).topClosure 0).2
    let callee := Value.ref .closure 0
    (∃ last, m.boundlessRun callee [.int 7] = some (.ok (.int 7), last) ∧
      last.usage = ⟨3, 2, 1⟩) ∧
    ((m.under 2 1 3).run callee [.int 7]).1 = .ok (.int 7) ∧
    (∃ f, ((m.under 2 1 2).run callee [.int 7]).1 = .error f ∧ f.kind = .capacity) ∧
    (∃ f, ((m.under 2 0 3).run callee [.int 7]).1 = .error f ∧ f.kind = .capacity) ∧
    ∃ f, ((m.under 1 1 3).run callee [.int 7]).1 = .error f ∧ f.kind = .capacity := by
  intro m callee
  have hends : (m.boundlessRun callee [.int 7]).map (fun (answer, last) =>
      (answer.toOption, last.usage)) = some (some (.int 7), ⟨3, 2, 1⟩) := by decide +kernel
  obtain ⟨⟨answer, last⟩, hlast, hreply⟩ := Option.map_eq_some_iff.1 hends
  obtain ⟨hanswer, husage⟩ := Prod.mk.inj hreply
  obtain rfl : answer = .ok (.int 7) := by
    cases answer with
    | error f => cases hanswer
    | ok v => exact congrArg Except.ok (Option.some.inj hanswer)
  have hsettled : Settled (.ok (.int 7)) := by simp [Settled]
  have hcut {a r s : Nat} (hnot : ¬ last.usage.Allowed a r s) :
      ∃ f, ((m.under a r s).run callee [.int 7]).1 = .error f ∧ f.kind = .capacity := by
    obtain ⟨f, heq, hkind, _⟩ :=
      ((m.limits_only_cut_off callee [.int 7] a r s).1 _ last hlast hsettled).2 hnot
    exact ⟨f, heq, hkind⟩
  refine ⟨⟨last, hlast, husage⟩, ?_, hcut ?_, hcut ?_, hcut ?_⟩
  · rw [((m.limits_only_cut_off callee [.int 7] 2 1 3).1 _ last hlast hsettled).1]
    rw [husage]
    simp [Usage.Allowed]
  · simp [husage, Usage.Allowed]
  · simp [husage, Usage.Allowed]
  · simp [husage, Usage.Allowed]

end Zinc
