import Zinc.Proofs.Machine.Contained
import Zinc.Proofs.Machine.Lockstep

/-!
The locals of a call as one list.  Some of them are on the return stack, the top one
first, and the others are in the cells of the environment, one after the other.  Code does
not notice where one part ends and the other begins: an index counts along the list, and a
closure that is built keeps the whole list in its environment, so that the code of the
closure sees the same list when it is entered.
-/

namespace Zinc

namespace Heap

/-- An environment as the list of the values in its cells, the one that it refers to
first. -/
inductive Chain (h : Heap) : Value → List Value → Prop where
  | empty : Chain h .emptyEnv []
  | cell {a : Nat} {c : Cell} {v next : Value} {vs : List Value} :
      h.cells[a]? = some c → c.tag = .env → c.fields = #[v, next] → Chain h next vs →
      Chain h (.ref .env a) (v :: vs)

variable {h h' : Heap} {env : Value} {vs ws : List Value}

namespace Chain

/-- An index into an environment is an index into the list. -/
theorem chainAt (hvs : h.Chain env vs) (i : Nat) : Machine.chainAt h env i = vs[i]? := by
  induction hvs generalizing i with
  | empty =>
      cases i with
      | zero => rfl
      | succ i => rfl
  | cell hcell _ hfields _ ih =>
      cases i with
      | zero => simp [Machine.chainAt, Value.address?, field, fields_of_cell hcell, hfields]
      | succ i =>
          simp [Machine.chainAt, Value.address?, field, fields_of_cell hcell, hfields, ih]

/-- An environment stays what it is as long as its cells are kept. -/
theorem keep {roots : List Value} (hvs : h.Chain env vs) (hkeeps : Keeps roots h h')
    (hwithin : env.Within (h.Reach roots)) : h'.Chain env vs := by
  induction hvs with
  | empty => exact .empty
  | @cell a c v next vs hcell htag hfields _ ih =>
      have ha := Value.within_ref.1 hwithin
      have hnext : next.Within (h.Reach roots) := by
        apply closed_reach h roots a ha
        rw [fields_of_cell hcell, hfields]
        simp
      exact .cell (hkeeps a c ha hcell) htag hfields (ih hnext)

theorem grow (hvs : h.Chain env vs) (hgrows : h.Grows h') : h'.Chain env vs :=
  hvs.keep (hgrows.keeps [env]) (within_reach List.mem_cons_self)

/-- Locals that are captured come before what the environment has already. -/
theorem capture (hvs : h.Chain env vs) (locals : List Value) :
    let captured := (locals.map ReturnEntry.value).foldr Machine.consEnv (env, h)
    captured.2.Chain captured.1 (locals ++ vs) := by
  induction locals with
  | nil => exact hvs
  | cons v locals ih =>
      apply Chain.cell (cells_alloc_self _ _ _) rfl rfl
      exact ih.grow (.alloc _ _ (.refl _))

end Chain

/-- A well-formed environment is such a list. -/
theorem Formed.exists_chain (henv : h.Formed env) (hkind : env.kind = .env) :
    ∃ vs, h.Chain env vs := by
  induction henv with
  | @plain v hnone =>
      cases v with
      | emptyEnv => exact ⟨[], .empty⟩
      | ref kind a => cases hnone
      | undefined => cases hkind
      | int n => cases hkind
      | code offset => cases hkind
      | mark => cases hkind
  | tuple _ _ _ _ => cases hkind
  | closure _ _ _ _ _ _ => cases hkind
  | @env a c v next hcell htag hfields hnext _ _ _ ih =>
      obtain ⟨vs, hvs⟩ := ih hnext
      exact ⟨v :: vs, .cell hcell htag hfields hvs⟩

end Heap

namespace Machine

/-- The locals that a call sees, in the order of their indices: those on the return stack
from the top down, as many as are counted, and then those along the environment. -/
def Sees (m : Machine) (locals : List Value) : Prop :=
  ∃ extras below captured, m.regs.returns.items = extras.map .value ++ below ∧
    m.regs.extra = extras.length ∧ m.heap.Chain m.regs.env captured ∧
    locals = extras ++ captured

/-- Whoever enters a value without locals on the return stack goes on at a place in the
code and sees certain locals there, as long as the heap keeps what the value leads to. -/
def Resumes (h : Heap) (callee : Value) (offset : Int) (locals : List Value) : Prop :=
  ∀ m : Machine, Heap.Keeps [callee] h m.heap → m.regs.extra = 0 →
    ∃ y, m.jump callee = .running y ∧ y.regs.pc = offset ∧ y.regs.extra = 0 ∧ y.Sees locals

variable {m : Machine} {locals : List Value}

/-- A machine that holds well-formed values sees some locals. -/
theorem Contained.exists_sees (h : m.Contained) : ∃ locals, m.Sees locals := by
  obtain ⟨extras, below, hlength, hitems, _⟩ := h.regs.segmented.split
  obtain ⟨captured, hcaptured⟩ := h.regs.env.exists_chain h.regs.envKind
  exact ⟨extras ++ captured, extras, below, captured, hitems, hlength.symm, hcaptured, rfl⟩

namespace Sees

/-- The local at an index is the one at that place of the list. -/
theorem local? (h : m.Sees locals) (i : Nat) : m.local? i = locals[i]? := by
  obtain ⟨extras, below, captured, hitems, hextra, hcaptured, rfl⟩ := h
  rw [local?_eq_lookup hitems hextra]
  clear hitems hextra
  induction extras generalizing i with
  | nil => exact hcaptured.chainAt i
  | cons v extras ih =>
      cases i with
      | zero => rfl
      | succ i => exact ih i

theorem unique {other : List Value} (h : m.Sees locals) (hother : m.Sees other) :
    locals = other := by
  apply List.ext_getElem?
  intro i
  rw [← h.local?, hother.local?]

/-- Where the next instruction is does not matter. -/
theorem moved (h : m.Sees locals) (pc : Int) (started : Started) :
    Sees { m with regs := { m.regs with pc := pc }, started := started } locals :=
  h

/-- The environment that a closure captures has all the locals. -/
theorem captureEnv (h : m.Sees locals) : m.captureEnv.2.Chain m.captureEnv.1 locals := by
  obtain ⟨extras, below, captured, hitems, hextra, hcaptured, rfl⟩ := h
  have htake : m.regs.returns.items.take m.regs.extra = extras.map .value := by
    rw [hitems, hextra]
    exact List.take_left' (by simp)
  rw [Machine.captureEnv, htake]
  exact hcaptured.capture extras

end Sees

/-- Entering a closure makes its code see what is in its environment. -/
theorem resumes_closure {h : Heap} {a : Nat} {c : Cell} {env : Value} {offset : Int}
    (hcell : h.cells[a]? = some c) (hfields : c.fields = #[env, .code offset])
    (henv : h.Chain env locals) : Resumes h (.ref .closure a) offset locals := by
  intro m hkeeps hextra
  have ha : h.Reach [.ref .closure a] a := .root List.mem_cons_self rfl
  have hkept := Heap.fields_of_cell (hkeeps a c ha hcell)
  have hjump : m.jump (.ref .closure a) =
      .running { m with regs := { m.regs with env := env, pc := offset } } := by
    rcases m.jump_cases (.ref .closure a) with ⟨b, heq, _, hjump⟩ | ⟨hsize, _⟩
    · cases heq
      simpa [Heap.field, hkept, hfields, Value.asOffset] using hjump
    · exact absurd (by simp [hkept, hfields]) (hsize a rfl)
  refine ⟨_, hjump, rfl, hextra, [], m.regs.returns.items, locals, rfl, hextra, ?_, rfl⟩
  have hwithin : env.Within (h.Reach [.ref .closure a]) := by
    apply Heap.closed_reach h _ a ha
    rw [Heap.fields_of_cell hcell, hfields]
    simp
  exact henv.keep hkeeps hwithin

/-- The code of a closure that is built here will see the locals that are seen here. -/
theorem Sees.loadClosure (h : m.Sees locals) (offset : Int) :
    Resumes (m.loadClosure offset).heap (m.loadClosure offset).regs.acc offset locals :=
  resumes_closure (Heap.cells_alloc_self _ _ _) rfl
    (h.captureEnv.grow (.alloc _ _ (.refl _)))

/-- Leaving a call neither fails nor does anything to the heap and what is loaded. -/
theorem Contained.leave_cases (h : m.Contained) :
    ∃ y, (m.leave = .running y ∨ m.leave = .finished y) ∧ y.heap = m.heap ∧
      y.regs.acc = m.regs.acc := by
  rw [leave]
  dsimp only
  split
  · exact ⟨_, Or.inr rfl, rfl, rfl⟩
  · rename_i v htop
    -- a value cannot be on top, since all the locals are gone
    have htop : (m.regs.returns.items.drop m.regs.extra).head? = some (.value v) := htop
    rcases h.regs.segmented.drop with hnil | ⟨pc, env, extra, below, hframe, _⟩
    · rw [hnil] at htop
      cases htop
    · rw [hframe] at htop
      cases htop
  · exact ⟨_, Or.inl rfl, rfl, rfl⟩

end Machine

end Zinc
