import Zinc.Proofs.Machine.Chain
import Zinc.Proofs.Session.Acyclic
import Zinc.Yaml.Parser

/-!
What the code of a call sees of its locals.  In every machine that a run of a session goes
through, whatever code is run, the locals are one list, of which some part is on the return
stack and the rest in the environment.  Loading a local and building a closure depend on
the list and not on where it is divided.
-/

namespace Zinc

theorem Machine.Guarded.visits {r : Run} {m' : Machine} (hopen : r.machine.closed = false)
    (h : Machine.Guarded (r.callee :: r.args) r.machine m') : ∀ x ∈ r.visits, x.Contained := by
  have hintact := h.2 hopen
  apply Run.visits_contained (hintact.mono fun v => List.mem_append_right _)
  · exact hintact.formed _ (by simp)
  · intro w hw
    exact hintact.formed w (by simp [hw])

namespace Session

/-- A machine that a run goes through, in some session: whatever its limits are, whatever
has been done with it before, and whatever code is run. -/
def Visited [Yaml.Parser] (x : Machine) : Prop :=
  ∃ owner limits logLevel watch horizon, ∃ (deeds : List Deed) (deed : Deed),
    ∃ r ∈ (deeds.foldl enact (fresh owner limits logLevel watch horizon)).deedRuns deed,
      x ∈ r.visits

theorem Visited.contained [Yaml.Parser] {x : Machine} (hx : Visited x) : x.Contained := by
  obtain ⟨owner, limits, logLevel, watch, horizon, deeds, deed, r, hr, hvisit⟩ := hx
  have hs := (guarded_fresh owner limits logLevel watch horizon).enactAll deeds
  obtain ⟨hopen, after, hguarded⟩ := hs.deedRuns Machine.guarded_congruence deed r hr
  exact hguarded.visits hopen x hvisit

/-- The locals of a call are one list, whether they are on the return stack or in the
environment.  An index counts along the list: the instruction that loads a local loads the
one at its index, and stops with a fault exactly when there is none.  The environment that
a closure captures lists all the locals again, in the same order, and capturing it leaves
all objects alone that are there.  So the closures that are built here, by an instruction
of their own or because a call has too few arguments, see the same locals when they are
entered without any on the return stack. -/
theorem locals_interchangeable [Yaml.Parser] {x : Machine} (hx : Visited x) :
    ∃ locals, x.Sees locals ∧ (∀ other, x.Sees other → other = locals) ∧
      (∀ i, x.local? i = locals[i]?) ∧
      (∀ i, x.code.fetch x.regs.pc = .instr (.access i) →
        x.step = match locals[i.toNat]? with
          | some v => .running { x.fetched (.access i) with
              regs := { (x.fetched (.access i)).regs with acc := v } }
          | none => (x.fetched (.access i)).fail .internal .badEnvironment none) ∧
      x.heap.Grows x.captureEnv.2 ∧ x.captureEnv.2.Chain x.captureEnv.1 locals ∧
      (∀ n, x.code.fetch x.regs.pc = .instr (.closure n) →
        x.regs.pc + 3 + n.toNat ≤ x.code.size →
        ∃ y, x.step = .running y ∧
          y.regs = { x.regs with acc := y.regs.acc, pc := x.regs.pc + 3 + n.toNat } ∧
          Machine.Resumes y.heap y.regs.acc (x.regs.pc + 3) locals) ∧
      (∀ v, x.code.fetch x.regs.pc = .instr .grab → x.regs.args.top? = some v →
        v.isMark = true →
        ∃ y, (x.step = .running y ∨ x.step = .finished y) ∧
          Machine.Resumes y.heap y.regs.acc x.regs.pc locals) := by
  have hcontained := hx.contained
  obtain ⟨locals, hsees⟩ := hcontained.exists_sees
  refine ⟨locals, hsees, fun other hother => hother.unique hsees, hsees.local?, ?_,
    x.grows_captureEnv, hsees.captureEnv, ?_, ?_⟩
  · intro i hfetch
    have hlocal : (x.fetched (.access i)).local? i.toNat = locals[i.toNat]? :=
      hsees.local? i.toNat
    cases hat : locals[i.toNat]? with
    | none => simp only [Machine.step_of_fetch hfetch, Machine.execute, hlocal, hat]
    | some v => simp only [Machine.step_of_fetch hfetch, Machine.execute, hlocal, hat]
  · intro n hfetch hfits
    have hroom : ¬ (x.fetched (.closure n)).code.size <
        (x.fetched (.closure n)).regs.pc + n.toNat := not_lt.2 hfits
    rw [Machine.step_of_fetch hfetch, Machine.execute]
    dsimp only
    rw [if_neg hroom]
    refine ⟨_, rfl, rfl, ?_⟩
    have hmoved := hsees.moved (x.regs.pc + 3 + n.toNat)
      { offset := x.regs.pc, byte := (Instr.closure n).opcode.byte }
    exact hmoved.loadClosure _
  · intro v hfetch htop hmark
    have hfetched : (x.fetched .grab).Contained :=
      ⟨hcontained.intact, hcontained.regs.moved _⟩
    have hsame : (x.fetched .grab).Sees locals := hsees
    have hstep : x.step = ((x.fetched .grab).loadClosure x.regs.pc).leave := by
      have htop : (x.fetched .grab).regs.args.top? = some v := htop
      rw [Machine.step_of_fetch hfetch, Machine.execute, htop]
      exact if_pos hmark
    obtain ⟨y, hleave, hheap, hacc⟩ :=
      (Machine.contained_loadClosure hfetched x.regs.pc).leave_cases
    refine ⟨y, hstep ▸ hleave, ?_⟩
    rw [hheap, hacc]
    exact hsame.loadClosure x.regs.pc

/-- Code that binds 7, builds a closure and calls it.  The body binds 9 on the return stack
and builds a closure over both. -/
theorem locals_interchangeable_divided :
    ∃ x, Visited x ∧ x.regs.extra = 1 ∧ x.regs.env = .ref .env 1 ∧
      x.Sees [.int 9, .int 7] ∧ x.local? 1 = some (.int 7) ∧ x.local? 2 = none ∧
      x.captureEnv.2.Chain x.captureEnv.1 [.int 9, .int 7] ∧
      ∃ y, x.step = .running y ∧
        Machine.Resumes y.heap y.regs.acc 28 [.int 9, .int 7] := by
  let code : Code := ⟨(Instr.encodeAll [.int64 7, .bind, .closure 15, .int64 9, .bind,
    .access 1, .closure 0, .apply]).toArray⟩
  let s := [Deed.overwrite code].foldl enact (fresh 0 {} none none 7)
  have hany : (s.deedRuns (.runEntry 0)).any (fun r => r.visits.any fun x =>
      x.regs.pc = 25 ∧ x.regs.extra = 1 ∧ x.regs.env = .ref .env 1 ∧
      x.regs.returns.items = [.value (.int 9), .frame 29 .emptyEnv 1, .value (.int 7)] ∧
      x.heap.cells[1]? = some { tag := .env, fields := #[.int 7, .emptyEnv] } ∧
      x.code.fetch 25 = .instr (.closure 0) ∧ x.code.size = 29) = true := by
    decide +kernel
  obtain ⟨r, hr, hvisits⟩ := List.any_eq_true.1 hany
  obtain ⟨x, hx, hfound⟩ := List.any_eq_true.1 hvisits
  obtain ⟨hpc, hextra, henv, hitems, hcell, hfetch, hsize⟩ := of_decide_eq_true hfound
  have hvisited : Visited x := ⟨0, {}, none, none, 7, [.overwrite code], .runEntry 0, r, hr, hx⟩
  have hchain : x.heap.Chain x.regs.env [.int 7] := henv ▸ .cell hcell rfl rfl .empty
  have hsees : x.Sees [.int 9, .int 7] :=
    ⟨[.int 9], _, [.int 7], hitems, hextra, hchain, rfl⟩
  obtain ⟨locals, _, hunique, hlocal, _, _, hcaptured, hclosure, _⟩ :=
    locals_interchangeable hvisited
  obtain rfl := hunique _ hsees
  rw [hpc] at hclosure
  obtain ⟨y, hstep, _, hresumes⟩ := hclosure 0 hfetch (by rw [hsize]; decide)
  exact ⟨x, hvisited, hextra, henv, hsees, hlocal 1, hlocal 2, hcaptured, y, hstep, hresumes⟩

end Session

end Zinc
