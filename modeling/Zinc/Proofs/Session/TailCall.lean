import Zinc.Proofs.Machine.Area
import Zinc.Proofs.Machine.TailCall
import Zinc.Proofs.Session.Sound
import Zinc.Yaml.Parser

/-!
Tail calls in a session.  All code of a session was compiled from expressions, so every
run of every request is one of compiled code, and its return stack is bounded by the
number of calls that wait and the number of binders that are nested in those expressions.
-/

namespace Zinc

/-- The machines that a run finds at an instruction that it starts, in their order. -/
def Run.executions (r : Run) : List Machine :=
  match r.machine.enter r.callee r.args with
  | .running m => m.executions m.horizon
  | .finished _ | .faulted _ _ => []

/-- A run of compiled code goes through machines whose return stack is bounded, and finds
steady ones at its instructions. -/
theorem Run.steady {r : Run} (hopen : r.machine.closed = false)
    (h : Machine.Stable (r.callee :: r.args) r.machine) {units : List Lir}
    (hcode : Machine.HoldsCode units r.machine.code) :
    (∀ x ∈ r.executions, x.Steady (Lir.nesting units)) ∧
      ∀ x ∈ r.visits, x.Bounded (Lir.nesting units) ∧
        x.frames ≤ r.executions.countP Machine.applies := by
  obtain ⟨hcallee, hargs⟩ := List.forall_mem_cons.1 (h.inHand hopen)
  have hfine := Machine.fine_enter (h.sound hopen) hcallee hargs
  have hstepped := r.machine.stepped_enter r.callee r.args
  have hempty := r.machine.returns_enter r.callee r.args
  obtain ⟨is, hbytes, hassembled⟩ := hcode
  have hstart {x : Machine} (hx : x.regs.returns.items = [] ∧ x.regs.extra = 0) :
      x.Bounded (Lir.nesting units) ∧ x.frames ≤ 0 := by
    rw [Machine.Bounded, Machine.frames, Stack.depth_eq, hx.1]
    exact ⟨Nat.zero_le _, Nat.le_refl 0⟩
  rw [Run.executions, Run.visits]
  cases henter : r.machine.enter r.callee r.args with
  | running m =>
      rw [henter] at hfine hstepped hempty
      have hsame : m.code = r.machine.code := hstepped.code
      have hgoing : m.Going := ⟨hfine.1, hfine.2⟩
      have harea : ∃ all, m.code.bytes.toList = Instr.encodeAll all ∧
          Nested (Lir.nesting units) 0 all := by
        rw [hsame]
        exact ⟨is, hbytes, hassembled.nested⟩
      have hsteady : m.Steady (Lir.nesting units) := by
        refine ⟨hgoing, harea, hempty.2 ▸ hgoing.nestedAt_zero harea,
          hempty.2 ▸ Nat.zero_le _, fun pc env extra hmem => ?_⟩
        rw [hempty.1] at hmem
        exact absurd hmem List.not_mem_nil
      obtain ⟨hsteadies, hvisits⟩ := hsteady.visits m.horizon
      refine ⟨hsteadies, fun x hx => ⟨(hvisits x hx).1, ?_⟩⟩
      have hframes : m.frames ≤ 0 := (hstart hempty).2
      have hle := (hvisits x hx).2
      dsimp only at hle ⊢
      omega
  | finished m | faulted _ m =>
      rw [henter] at hempty
      exact ⟨fun x hx => absurd hx List.not_mem_nil,
        List.forall_mem_singleton.2 (hstart hempty)⟩

namespace Session

variable (owner : Nat) (limits : Limits) (logLevel : Option LogLevel)
  (watch : Option Watch) (horizon : Nat)

/-- All runs of a session are runs of code that was compiled from expressions. -/
theorem runs_holdCode [Yaml.Parser] (requests : List Request) (request : Request) :
    let s := (fresh owner limits logLevel watch horizon).after requests
    ∀ r ∈ s.runs request, r.machine.closed = false ∧
      Machine.Stable (r.callee :: r.args) r.machine ∧
      ∃ units, Machine.HoldsCode units r.machine.code := by
  intro s
  have hR := Machine.inOrder_congruence.withCode
    (P := fun c => ∃ units, Machine.HoldsCode units c) fun ⟨units, hcode⟩ hgenerated => by
      obtain ⟨e, hmore⟩ := hcode.append hgenerated
      exact ⟨_, hmore⟩
  have hfresh := inOrder_fresh owner limits logLevel watch horizon
  have hcode : (fresh owner limits logLevel watch horizon).machine.code = {} := by
    rcases logLevel with _ | (_ | _) <;> rfl
  have hlinked := Linked.after hR
    ⟨hfresh.symbols, hfresh.machine, [], hcode ▸ Machine.holdsCode_empty⟩ requests
  intro r hr
  obtain ⟨hopen, _, ⟨_, hstable⟩, hunits⟩ := hlinked.2.runs hR request r hr
  exact ⟨hopen, hstable, hunits⟩

/-- Calls in tail position use no return stack.  A session runs nothing but code compiled
from expressions, with an `APPLY` for each application in them that is not in tail
position.  With `d` binders nested in one of them, each machine that a run goes through
has at most `d + 1` entries on its return stack for every call that waits and `d` more.
Only `APPLY` makes one more call wait, and only leaving a call through its mark makes it
one less; `APPTERM`, and a return that finds an argument, take the locals of the current
call off the stack and leave the rest of it alone.  So a run has never more calls waiting
than it has executed `APPLY`, and the depth of its return stack does not depend on the
number of its other steps. -/
theorem tail_calls_use_no_stack [Yaml.Parser] (requests : List Request) (request : Request) :
    let s := (fresh owner limits logLevel watch horizon).after requests
    ∀ r ∈ s.runs request, (∃ units, Machine.HoldsCode units r.machine.code) ∧
      ∀ units is, Assembled units is → r.machine.code.bytes.toList = Instr.encodeAll is →
        let d := Lir.nesting units
        is.count .apply = (units.map (Lir.calls .value)).sum ∧
        (∀ m ∈ r.visits, m.regs.returns.depth ≤ m.frames * (d + 1) + d ∧
          m.frames ≤ r.executions.countP Machine.applies) ∧
        ∀ m ∈ r.executions, ∃ i, m.code.fetch m.regs.pc = .instr i ∧
          m.step.After fun m' =>
            (m.frames < m'.frames → i = .apply ∧ m'.frames = m.frames + 1) ∧
            (m'.frames < m.frames →
              (i = .ret ∨ i = .grab) ∧ m.regs.args.top? = some .mark) ∧
            (i = .appTerm ∨ i = .ret ∧ m.HasArgument →
              m.Above m'.regs.returns.items ∧ m'.regs.extra = 0) := by
  intro s r hr
  obtain ⟨hopen, hstable, hunits⟩ :=
    runs_holdCode owner limits logLevel watch horizon requests request r hr
  refine ⟨hunits, fun units is hassembled hbytes => ?_⟩
  intro d
  obtain ⟨hsteady, hvisits⟩ := Run.steady hopen hstable ⟨is, hbytes, hassembled⟩
  refine ⟨hassembled.count_apply, hvisits, fun m hm => ?_⟩
  obtain ⟨i, hfetch, hshifts⟩ := (hsteady m hm).going.shifts
  refine ⟨i, hfetch, hshifts.imp fun m' hm' => ?_⟩
  obtain ⟨hup, hle, hdown⟩ := hm'.frames
  refine ⟨fun hmore => ?_, hdown, hm'.replaces⟩
  have hi := hup hmore
  rw [if_pos hi] at hle
  exact ⟨hi, Nat.le_antisymm hle hmore⟩

/-- A function that calls itself for ever, cut off after 60 instructions: one call waits,
that of the host's expression, and no more than three entries are on the return stack. -/
theorem tail_calls_use_no_stack_forever :
    let x : Binder := ⟨0, "x"⟩
    let self : Expr := .lam {} x (.app {} (.var {} (some x)) (.var {} (some x)))
    let s := (fresh 0 {} none none 60).after [.compile (.app {} self self)]
    ∃ r ∈ s.runs (.evaluate ⟨0, 0, 0, 1⟩), r.executions.length = 60 ∧
      (∀ m ∈ r.visits, m.frames ≤ 1 ∧ m.regs.returns.depth ≤ 3) ∧
      ∃ m ∈ r.visits, m.frames = 1 ∧ m.regs.returns.depth = 2 := by
  intro x self s
  let l : Lir :=
    .app (.lam 0 (.app (.var 0 0) (.var 0 0))) (.lam 1 (.app (.var 1 0) (.var 1 0)))
  let double : List Instr := [.closure 7, .grab, .access 0, .push, .access 0, .appTerm]
  let is : List Instr := .pushMark :: double ++ .push :: double ++ [.apply, .ret]
  let r : Run := ⟨s.machine, .ref .closure 0, []⟩
  have hr : r ∈ s.runs (.evaluate ⟨0, 0, 0, 1⟩) := by
    have hvalue : s.machine.value ⟨0, 0, 0, 1⟩ = .ok (.ref .closure 0) := by decide +kernel
    rw [runs, Machine.callRuns, hvalue]
    exact List.mem_singleton_self _
  have hgenerated : (l.generateEntry fun _ => none).code = .ok is := by decide +kernel
  have hbytes : r.machine.code.bytes.toList = Instr.encodeAll is := by decide +kernel
  obtain ⟨_, hall⟩ :=
    tail_calls_use_no_stack 0 {} none none 60 [.compile (.app {} self self)] _ r hr
  obtain ⟨_, hvisits, _⟩ := hall [l] is (.entry .nil hgenerated) hbytes
  have happlies : r.executions.countP Machine.applies = 1 := by decide +kernel
  have hnesting : Lir.nesting [l] = 1 := rfl
  refine ⟨r, hr, by decide +kernel, fun m hm => ?_, ?_⟩
  · obtain ⟨hdepth, hframes⟩ := hvisits m hm
    rw [hnesting] at hdepth
    rw [happlies] at hframes
    exact ⟨hframes, by omega⟩
  · have hany : r.visits.any (fun m => m.frames = 1 ∧ m.regs.returns.depth = 2) = true := by
      decide +kernel
    simpa using hany

end Session

end Zinc
