import Zinc.Proofs.Machine.Bounded
import Zinc.Proofs.Machine.Lockstep

/-!
Applying a closure at once and in two steps.  The run on all arguments and the run on
the first ones go side by side until the second has no argument left.  If that ends it
with a closure, the first run stands where a run of that closure on the other arguments
begins, and from there on the two go side by side to the end.
-/

namespace Zinc.Machine

open Heap (Mirror)

variable {m x y : Machine} {rest : List Value}

/-- What happens before an instruction keeps all that the machine can use. -/
theorem kept_ready (htidy : m.heap.Tidy) : m.Kept m.ready.2.counted := by
  have hrecords {z : Machine} (hz : z.heap.Tidy) (log : Array Record)
      (watch : Option Watch) (usage : Usage) :
      z.Kept { z with log := log, watch := watch, usage := usage } :=
    ⟨rfl, rfl, rfl, rfl, rfl, .refl _ _, hz⟩
  have hasked : m.Kept m.asked.2 := by
    unfold asked askWatch
    split
    · split
      · exact .refl htidy
      · split
        · exact .refl htidy
        · exact hrecords htidy _ _ _
    · exact .refl htidy
  have htraced {z : Machine} (hz : z.heap.Tidy) : z.Kept z.traced.counted := by
    unfold traced logged
    split
    · split <;> exact hrecords hz _ _ _
    · exact hrecords hz _ _ _
  rcases m.ready_cases with ⟨_, hready⟩ | ⟨_, f, z, heq, hready⟩ | ⟨_, z, heq, hready⟩
  · rw [hready]
    exact hrecords htidy _ _ _
  · rw [heq] at hasked
    rw [hready]
    exact hasked.trans (hrecords hasked.tidy _ _ _)
  · rw [heq] at hasked
    rw [hready]
    have hcollected := kept_collectIfFull hasked.tidy
    exact (hasked.trans hcollected).trans (htraced hcollected.tidy)

/-- How a run `p` on all arguments and a run `q` on the first ones relate, where `rest` are
the others: both fault, both end with corresponding values when there are no others, or the
second ends first.  What it ends with is not a closure, and then the first one faults; or it
is the closure with which the first one, which began on `x`, goes on.  If the first one had
bounds for more than the `k` instructions of the second, it has bounds left. -/
inductive Endings (rest : List Value) (n k : Nat) (x : Machine) (p q : Reply Value) : Prop where
  | faults {f f' : Fault} : p.1 = .error f → q.1 = .error f' → Endings rest n k x p q
  | values {v v' : Value} {last last' : Machine} : rest = [] → p = (.ok v, last) →
      q = (.ok v', last') → Mirror last.heap last'.heap v v' → Endings rest n k x p q
  | refused {f : Fault} {v' : Value} {last' : Machine} : rest ≠ [] → p.1 = .error f →
      q = (.ok v', last') → v'.kind ≠ .closure → Endings rest n k x p q
  | parted {left : Nat} {next last' : Machine} {v' : Value} : rest ≠ [] → left ≤ n →
      (∀ j, x.Lasts n (k + j) → next.Lasts left j) → p = loop left next →
      q = (.ok v', last') → Parted rest next v' last' → Endings rest n k x p q

/-- The same one instruction earlier. -/
theorem Endings.earlier {n k : Nat} {p q : Reply Value} (h : Endings rest n k y p q)
    (hlasts : ∀ j, x.Lasts (n + 1) (j + 1) → y.Lasts n j) :
    Endings rest (n + 1) (k + 1) x p q := by
  cases h with
  | faults hf hf' => exact .faults hf hf'
  | values hnone hp hq hmirror => exact .values hnone hp hq hmirror
  | refused hrest hf hq hkind => exact .refused hrest hf hq hkind
  | parted hrest hleft hbounds hp hq hparted =>
      refine .parted hrest (Nat.le_succ_of_le hleft) (fun j hj => ?_) hp hq hparted
      rw [Nat.succ_add] at hj
      exact hbounds j (hlasts _ hj)

theorem Executes.kept {n : Nat} (h : m.Executes n x) (htidy : m.heap.Tidy) : m.Kept x := by
  rw [h.ready]
  exact kept_ready htidy

theorem Executes.going {n : Nat} (h : m.Executes n x) (hgoing : m.Going) : x.Going := by
  rw [h.ready]
  exact hgoing.ready.1.withRecords _ _ _

/-- A run that stops for want of arguments, next to one that has some left. -/
theorem Abreast.parts {y' : Machine} {n k : Nat} (h : Abreast rest x y)
    (hexecutes : y.Executes k y') (hgoing : y.Going) (hrest : rest ≠ []) (hend : y'.Exhausted)
    (hx : x.Survives (n + 1) (k + 1)) :
    Endings rest (n + 1) (k + 1) x (Machine.loop (n + 1) x) (Machine.loop (k + 1) y) := by
  have hkept := hexecutes.kept h.tidy.2
  have hgoing' := hexecutes.going hgoing
  have hloop := hexecutes.loop
  obtain ⟨hargs, hfetch | hfetch⟩ := hend
  · -- the first machine is left where it is, before the function takes its argument
    obtain ⟨last, hlast, hparted⟩ :=
      (h.keep (.refl h.tidy.1) hkept).parts_grab hgoing' hargs hfetch
    rw [hlast] at hloop
    exact .parted hrest (Nat.le_refl _) (fun j hj => hj.mono (Nat.le_add_left _ _)) rfl hloop
      hparted
  · obtain ⟨x', hexecutes'⟩ := hx.turn
    have hloop' := hexecutes'.loop
    obtain ⟨last, hlast, hnext⟩ :=
      (h.keep (hexecutes'.kept h.tidy.1) hkept).parts_ret hgoing' hrest hargs hfetch
    rw [hlast] at hloop
    rcases hnext with ⟨next, hstep, hparted⟩ | ⟨⟨f, next, hstep⟩, hkind⟩
    · rw [hstep] at hloop'
      refine .parted hrest (Nat.le_succ n) (fun j hj => ?_) hloop' hloop hparted
      rw [Nat.succ_add] at hj
      exact (hexecutes'.lasts hstep hj).mono (Nat.le_add_left _ _)
    · rw [hstep] at hloop'
      exact .refused hrest (congrArg Prod.fst hloop') hloop hkind

/-- Runs of machines in step, neither of which is cut off before the other one ends. -/
theorem Abreast.loop (n k : Nat) (h : Abreast rest x y) (hgoing : y.Going)
    (hx : x.Survives n k) (hy : y.Survives k n) :
    Endings rest n k x (loop n x) (loop k y) := by
  induction n generalizing k x y with
  | zero => exact absurd hx not_survives_zero
  | succ n ih =>
      cases k with
      | zero => exact absurd hy not_survives_zero
      | succ k =>
          obtain ⟨y', hexecutes'⟩ := hy.turn
          by_cases hend : rest ≠ [] ∧ y'.Exhausted
          · exact h.parts hexecutes' hgoing hend.1 hend.2 hx
          · obtain ⟨x', hexecutes⟩ := hx.turn
            have hgoing' := hexecutes'.going hgoing
            have hmore : rest = [] ∨ ¬ y'.Exhausted := by
              by_cases hrest : rest = []
              · exact Or.inl hrest
              · exact Or.inr fun hexhausted => hend ⟨hrest, hexhausted⟩
            have hstep := (h.keep (hexecutes.kept h.tidy.1)
              (hexecutes'.kept h.tidy.2)).step hgoing' hmore
            have huncut := hexecutes.uncut hx
            have huncut' := hexecutes'.uncut hy
            have hfine := fine_step hgoing'.sound hgoing'.running
            rw [hexecutes.loop, hexecutes'.loop]
            generalize hp : x'.step = p at hstep huncut
            generalize hq : y'.step = q at hstep hfine huncut'
            cases hstep with
            | running hnext =>
                exact (ih k hnext ⟨hfine.1, hfine.2⟩ (hexecutes.survives hp hx)
                  (hexecutes'.survives hq hy)).earlier fun j => hexecutes.lasts hp
            | finished hnone hvalue => exact .values hnone rfl rfl hvalue
            | faulted => exact .faults rfl rfl
            | cutLeft hkind => exact absurd hkind huncut
            | cutRight hkind => exact absurd hkind huncut'

theorem pushArgs_cases (m : Machine) (vs : List Value) :
    (m.limits.argStack < m.regs.args.depth + vs.length ∧
      ∃ f last, m.pushArgs vs = .faulted f last ∧ f.kind = .capacity) ∨
    ∃ usage args, args.items = vs.reverse ++ m.regs.args.items ∧
      m.pushArgs vs =
        .running { m with regs := { m.regs with args := args }, usage := usage } := by
  induction vs generalizing m with
  | nil => exact Or.inr ⟨m.usage, m.regs.args, rfl, rfl⟩
  | cons v rest ih =>
      unfold pushArgs pushArg
      split
      · rename_i hfull
        refine Or.inl ⟨?_, _, _, rfl, rfl⟩
        rw [List.length_cons]
        omega
      · refine (ih _).imp (fun hcut => ⟨?_, hcut.2⟩) ?_
        · have hfull := hcut.1
          dsimp only [Stack.push] at hfull
          rw [List.length_cons]
          omega
        · rintro ⟨usage, args, hargs, heq⟩
          exact ⟨usage, args, by simpa using hargs, heq⟩

/-- A closure is entered with its arguments on the stack, unless that is full. -/
theorem enter_cases {a : Nat} (hsize : (m.heap.fields a).size = 2) (args : List Value) :
    (m.limits.argStack < args.length + 1 ∧
      ∃ f last, m.enter (.ref .closure a) args = .faulted f last ∧ f.kind = .capacity) ∨
    ∃ usage, m.enter (.ref .closure a) args =
      .running { m.entering a args with usage := usage } := by
  unfold enter clearRegisters
  rcases pushArgs_cases { m with usage := {}, regs := {} } (.mark :: args.reverse) with
    ⟨hfull, f, last, heq, hkind⟩ | ⟨usage, stack, hstack, heq⟩
  · refine Or.inl ⟨?_, f, last, ?_, hkind⟩
    · rw [List.length_cons, List.length_reverse] at hfull
      dsimp only [Stack.empty] at hfull
      omega
    · dsimp only
      rw [heq]
      rfl
  · obtain rfl : stack = .of (args ++ [.mark]) := by
      refine Stack.ext ?_
      simpa [Stack.empty] using hstack
    refine Or.inr ⟨usage, ?_⟩
    dsimp only
    rw [heq]
    exact if_pos hsize

theorem Sound.mirrors (h : m.Sound) : m.globals.Mirrors m.heap m.heap m.globals := by
  refine ⟨rfl, fun i g hg => ⟨g, hg, rfl, ?_⟩⟩
  have hassigned := h.globals g (Array.mem_of_getElem? hg)
  cases hdefined : g.defined with
  | true => exact (hassigned.typed hdefined).mirror
  | false =>
      rw [hassigned.undefined hdefined]
      exact .same rfl

section Run

variable {a : Nat} {vs : List Value}

/-- The calls of a closure on all arguments and on the first ones start in step, whatever
their bounds are. -/
theorem Sound.abreast (h : m.Sound) (hcallee : Typed m.world .data (.ref .closure a))
    (hvs : ∀ v ∈ vs, Typed m.world .data v) (hrest : ∀ v ∈ rest, v ∈ m.handles.values)
    (limits limits' : Limits) (n k : Nat) :
    Abreast rest ((m.bounded limits n).entering a (vs ++ rest))
      ((m.bounded limits' k).entering a vs) := by
  refine .intro (?_ : Aligned rest _ _ vs vs [] [] [] []) (.env (hcallee.mirror.field 0))
  exact
    { code := rfl
      pc := rfl
      acc := Or.inl rfl
      args := rfl
      args' := rfl
      front := List.forall₂_same.2 fun v hv => (hvs v hv).mirror
      returns := rfl
      returns' := rfl
      extra := rfl
      extra' := rfl
      below := .bottom
      globals := h.mirrors
      held := fun v hv => ⟨hrest v hv, (h.handles v (hrest v hv)).mirror⟩
      tidy := h.tidy
      tidy' := h.tidy }

theorem Sound.bounded (h : m.Sound) (limits : Limits) (horizon : Nat) :
    (m.bounded limits horizon).Sound :=
  ⟨h.tidy, h.laid, h.index, h.handles, h.globals⟩

/-- A run that endures goes from the entry of the closure, and survives from there. -/
theorem Sound.run_eq (h : m.Sound) (hcallee : Typed m.world .data (.ref .closure a))
    (hvs : ∀ v ∈ vs, Typed m.world .data v) {turns : Nat}
    (hendures : m.Endures turns (.ref .closure a) vs) :
    ∃ y, (m.entering a vs).Kept y ∧ y.Going ∧
      m.run (.ref .closure a) vs =
        ((loop m.horizon y).1, (loop m.horizon y).2.clearRegisters) ∧
      y.Survives m.horizon turns := by
  obtain ⟨_, hsame, hsize⟩ := hcallee.exists_closure rfl
  cases hsame
  have hfine := fine_enter h hcallee hvs
  rcases enter_cases hsize vs with ⟨hfull, f, last, heq, hkind⟩ | ⟨usage, heq⟩
  · refine absurd hendures (not_or.2 ⟨fun hsettled => ?_, fun hbounds => ?_⟩)
    · rw [run, heq] at hsettled
      exact not_settled hkind hsettled
    · have hroom := hbounds.ample.args
      omega
  · have hrun : m.run (.ref .closure a) vs =
        ((loop m.horizon { m.entering a vs with usage := usage }).1,
          (loop m.horizon { m.entering a vs with usage := usage }).2.clearRegisters) := by
      rw [run, heq]
      rfl
    rw [heq] at hfine
    refine ⟨{ m.entering a vs with usage := usage },
      ⟨rfl, rfl, rfl, rfl, rfl, .refl _ _, h.tidy⟩, ⟨hfine.1, hfine.2⟩, hrun, ?_⟩
    rw [Endures, hrun] at hendures
    refine hendures.imp_right fun h => ⟨h.fuel, ?_, ?_, h.ample.steps, h.watch⟩
    · have hargs := h.ample.args
      change (((vs ++ [Value.mark]).length : Int) + turns) ≤ m.limits.argStack
      rw [List.length_append, List.length_singleton]
      omega
    · have hreturns := h.ample.returns
      change ((0 : Int) + turns) ≤ m.limits.returnStack
      omega

/-- Both runs fault, or both give a value, and then corresponding ones. -/
def Agree (p q : Reply Value) : Prop :=
  (∃ f f', p.1 = .error f ∧ q.1 = .error f') ∨
    ∃ v v', p.1 = .ok v ∧ q.1 = .ok v' ∧ Mirror p.2.heap q.2.heap v v'

/-- Only the arguments that wait have to be held by handles. -/
theorem Abreast.withHandles (h : Abreast [] x y) (handles : HandleStack) :
    Abreast [] x { y with handles := handles } := by
  obtain ⟨h, hscope⟩ := h
  exact .intro { h with held := fun v hv => absurd hv List.not_mem_nil } hscope

/-- Where the runs have parted, the first one goes on as the run of the closure on the
arguments left does. -/
theorem Parted.agree {n : Nat} {v : Value} {last : Machine} {handles : HandleStack}
    (h : Parted rest x v last)
    (hsound : { last.clearRegisters with handles := handles }.Sound)
    (hv : Typed last.world .data v) (hrest : ∀ u ∈ rest, Typed last.world .data u)
    (hx : x.Survives n last.horizon)
    (hendures : { last.clearRegisters with handles := handles }.Endures n v rest) :
    Agree ((loop n x).1, (loop n x).2.clearRegisters)
      ({ last.clearRegisters with handles := handles }.run v rest) := by
  obtain ⟨a, rfl, _, habreast⟩ := h
  obtain ⟨y, hy, hgoing, hrun, hsurvives⟩ := hsound.run_eq hv hrest hendures
  change { last.clearRegisters with handles := handles }.run _ _ =
    ((loop last.horizon y).1, (loop last.horizon y).2.clearRegisters) at hrun
  rw [hrun]
  have hstart := (habreast.withHandles handles).keep (.refl habreast.tidy.1) hy
  cases hstart.loop n last.horizon hgoing hx hsurvives with
  | faults hf hf' => exact Or.inl ⟨_, _, hf, hf'⟩
  | values _ hp hq hmirror =>
      rw [hp, hq]
      exact Or.inr ⟨_, _, rfl, rfl, hmirror⟩
  | refused hsome _ _ _ => exact absurd rfl hsome
  | parted hsome _ _ _ _ _ => exact absurd rfl hsome

/-- A run on all arguments against a run on the first ones and, if that gives a closure,
a run of the closure on the others.  The bounds of the first run may be other ones than those
of the others, as long as none is cut off before the others end. -/
theorem Sound.run_append (h : m.Sound) (hcallee : Typed m.world .data (.ref .closure a))
    (hvs : ∀ v ∈ vs, Typed m.world .data v) (hrest : ∀ v ∈ rest, v ∈ m.handles.values)
    (hne : rest ≠ []) {limits limits' : Limits} {n k : Nat}
    (hwhole : (m.bounded limits n).Endures (k + k) (.ref .closure a) (vs ++ rest))
    (hfirst : (m.bounded limits' k).Endures n (.ref .closure a) vs) :
    (∃ f, ((m.bounded limits n).run (.ref .closure a) (vs ++ rest)).1 = .error f) ∧
      (∀ v, ((m.bounded limits' k).run (.ref .closure a) vs).1 = .ok v → v.kind ≠ .closure) ∨
    ∃ v last, (m.bounded limits' k).run (.ref .closure a) vs = (.ok v, last) ∧
      v.kind = .closure ∧
      ∀ handles, { last with handles := handles }.Sound →
        { last with handles := handles }.Endures n v rest →
        Agree ((m.bounded limits n).run (.ref .closure a) (vs ++ rest))
          ({ last with handles := handles }.run v rest) := by
  have hall : ∀ v ∈ vs ++ rest, Typed m.world .data v := by
    intro v hv
    exact (List.mem_append.1 hv).elim (hvs v) fun hv => h.handles v (hrest v hv)
  obtain ⟨x, hx, _, hp, hsurvives⟩ := (h.bounded limits n).run_eq hcallee hall hwhole
  obtain ⟨y, hy, hgoing, hq, hsurvives'⟩ := (h.bounded limits' k).run_eq hcallee hvs hfirst
  have hsafe := safe_run (h.bounded limits' k) hcallee hvs
  have hfixed := ((m.bounded limits' k).evaluated_run (.ref .closure a) vs).toFixed
  have hendings := ((h.abreast hcallee hvs hrest limits limits' n k).keep hx hy).loop n k
    hgoing (hsurvives.mono (Nat.le_add_right k k)) hsurvives'
  rw [hp]
  rw [hq] at hsafe hfixed ⊢
  change Endings rest n k x (loop n x) (loop k y) at hendings
  dsimp only [Machine.bounded] at hsafe hfixed ⊢
  generalize hrun : loop k y = q at hendings hsafe hfixed
  cases hendings with
  | faults hf hf' => exact Or.inl ⟨⟨_, hf⟩, fun v hv => absurd (hf'.symm.trans hv) nofun⟩
  | values hnone _ _ _ => exact absurd hnone hne
  | refused _ hf hq hkind =>
      subst hq
      refine Or.inl ⟨⟨_, hf⟩, fun v hv => ?_⟩
      cases hv
      exact hkind
  | @parted left next last v _ hleft hbounds hp hq hparted =>
      subst hq
      refine Or.inr ⟨v, last.clearRegisters, rfl, ?_, fun handles hsound hendures => ?_⟩
      · obtain ⟨_, rfl, _⟩ := hparted
        rfl
      · have hlater : next.Survives left k := by
          refine hsurvives.imp (fun hsettled => ?_) (hbounds k)
          rwa [← hp]
        have hheld : last.handles = m.handles := hfixed.handles
        have hhorizon : last.horizon = k := hfixed.horizon
        have hkept : ∀ u ∈ rest, Typed last.world .data u := fun u hu =>
          hsafe.1.handles u (hheld ▸ hrest u hu)
        rw [hp]
        exact hparted.agree hsound hsafe.2 hkept (hhorizon ▸ hlater) (hendures.mono hleft)

end Run

end Zinc.Machine
