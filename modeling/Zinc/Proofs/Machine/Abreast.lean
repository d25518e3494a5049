import Zinc.Proofs.Machine.Locals
import Zinc.Proofs.Machine.Safe

/-!
Two machines in step.  The first has some more arguments waiting at the bottom of its
argument stack, the second may have captured some locals that the first still has on its
return stack; apart from that they run the same code on values that are equal up to the
identity of objects.  Collecting garbage on either side leaves them so.
-/

namespace Zinc

open Heap (Mirror)

/-- The same slots, assigned alike, with corresponding values. -/
structure Globals.Mirrors (h h' : Heap) (g g' : Globals) : Prop where
  size : g'.size = g.size
  entry : ∀ (i : Nat) (e : Global), g.entries[i]? = some e →
    ∃ e', g'.entries[i]? = some e' ∧ e'.defined = e.defined ∧
      Mirror h h' e.value e'.value

theorem Globals.mem_values {g : Globals} {i : Nat} {e : Global}
    (he : g.entries[i]? = some e) : e.value ∈ g.values :=
  List.mem_map.2 ⟨e, Array.mem_toList_iff.2 (Array.mem_of_getElem? he), rfl⟩

theorem Globals.Mirrors.keep {h h' h₁ h₁' : Heap} {g g' : Globals}
    {roots roots' : List Value} (hmirrors : g.Mirrors h h' g')
    (hkeeps : Heap.Keeps roots h h₁) (hkeeps' : Heap.Keeps roots' h' h₁')
    (hin : ∀ v ∈ g.values, v.Within (h.Reach roots))
    (hin' : ∀ v ∈ g'.values, v.Within (h'.Reach roots')) : g.Mirrors h₁ h₁' g' := by
  refine ⟨hmirrors.size, fun i e he => ?_⟩
  obtain ⟨e', he', hdefined, hvalue⟩ := hmirrors.entry i e he
  refine ⟨e', he', hdefined, hvalue.keep hkeeps hkeeps' ?_ ?_⟩
  · exact hin _ (Globals.mem_values he)
  · exact hin' _ (Globals.mem_values he')

theorem Globals.Mirrors.set {h h' : Heap} {g g' : Globals} {v v' : Value}
    (hmirrors : g.Mirrors h h' g') (hv : Mirror h h' v v') (i : Nat) :
    Option.Rel (Globals.Mirrors h h') (g.set? i v) (g'.set? i v') := by
  rw [Globals.set?, Globals.set?, hmirrors.size]
  split
  · refine .some ⟨?_, fun j e he => ?_⟩
    · simpa [Globals.size] using hmirrors.size
    · rw [Array.getElem?_modify] at he ⊢
      split at he
      · rename_i hij
        obtain ⟨old, hold, rfl⟩ := Option.map_eq_some_iff.1 he
        obtain ⟨old', hold', _, _⟩ := hmirrors.entry j old hold
        rw [if_pos hij, hold']
        exact ⟨_, rfl, rfl, hv⟩
      · rename_i hij
        rw [if_neg hij]
        exact hmirrors.entry j e he
  · exact .none

/-- The last mark is that of the outermost call. -/
theorem Waiting.eq_nil_iff {w : World} {args : List Value} {returns : List ReturnEntry}
    (h : Waiting w args returns) : args = [] ↔ returns = [] := by
  cases h with
  | bottom => simp
  | call _ _ => simp

/-- What calls itself a closure is one of two fields. -/
theorem Typed.exists_closure {w : World} {v : Value} (h : Typed w .data v)
    (hkind : v.kind = .closure) :
    ∃ a, v = .ref .closure a ∧ (w.heap.fields a).size = 2 := by
  cases h with
  | int n => cases hkind
  | tuple _ _ _ => cases hkind
  | @closure a _ _ _ _ _ hcell _ hfields _ _ _ =>
      refine ⟨a, rfl, ?_⟩
      rw [Heap.fields_of_cell hcell, hfields]
      rfl

/-- A value that has a shape corresponds to itself. -/
theorem Typed.mirror {w : World} {shape : Shape} {v : Value} (h : Typed w shape v) :
    Mirror w.heap w.heap v v := by
  induction h with
  | int n => exact .same rfl
  | tuple hcell _ _ ih =>
      refine .ofCells hcell hcell rfl (List.forall₂_same.2 fun u hu => ?_)
      exact ih u (Array.mem_toList_iff.1 hu)
  | closure hcell _ hfields _ _ _ ih =>
      refine .ofCells hcell hcell rfl ?_
      rw [hfields]
      exact .cons ih (.cons (.same rfl) .nil)
  | nil => exact .same rfl
  | cons hcell _ hfields _ _ ihv ihenv =>
      refine .ofCells hcell hcell rfl ?_
      rw [hfields]
      exact .cons ihv (.cons ihenv .nil)

namespace Machine

/-- The second machine is at the same point as the first, which has `rest` waiting at the
bottom of its argument stack: `front` is what both have on top of that, `locals` are the
locals on the return stack, and `below` are the calls that wait. -/
structure Aligned (rest : List Value) (x y : Machine)
    (front front' locals locals' : List Value) (below below' : List ReturnEntry) :
    Prop where
  code : y.code = x.code
  pc : y.regs.pc = x.regs.pc
  acc : y.regs.acc = .undefined ∨ Mirror x.heap y.heap x.regs.acc y.regs.acc
  args : x.regs.args.items = front ++ rest ++ [.mark]
  args' : y.regs.args.items = front' ++ [.mark]
  front : List.Forall₂ (Mirror x.heap y.heap) front front'
  returns : x.regs.returns.items = locals.map .value ++ below
  returns' : y.regs.returns.items = locals'.map .value ++ below'
  extra : x.regs.extra = locals.length
  extra' : y.regs.extra = locals'.length
  below : Below x.heap y.heap below below'
  globals : x.globals.Mirrors x.heap y.heap y.globals
  held : ∀ v ∈ rest, v ∈ y.handles.values ∧ Mirror x.heap y.heap v v
  tidy : x.heap.Tidy
  tidy' : y.heap.Tidy

/-- Two machines in step, with the same locals. -/
inductive Abreast (rest : List Value) (x y : Machine) : Prop where
  | intro {front front' locals locals' : List Value} {below below' : List ReturnEntry} :
      Aligned rest x y front front' locals locals' below below' →
      Scope x.heap y.heap locals x.regs.env locals' y.regs.env → Abreast rest x y

variable {rest : List Value} {x y : Machine} {front front' locals locals' : List Value}
  {below below' : List ReturnEntry}

section Shape

variable {i : Instr} {m : Machine}

/-- The top of the argument stack is an argument, or the mark of the current call; and
that is the last mark just when no call waits. -/
def Topped (m : Machine) : Prop :=
  ∃ v args, m.regs.args.items = v :: args ∧ (v.isMark = false ∨
    v = .mark ∧ (args = [] ↔ m.regs.returns.items.drop m.regs.extra = []))

/-- What the discipline says of the registers before an instruction. -/
def Shaped (m : Machine) : Instr → Prop
  | .push | .setGlobal _ | .apply | .appTerm | .bind => m.regs.acc ≠ .undefined
  | .unbind => 0 < m.regs.extra
  | .makeBlock n => n.toNat < m.regs.args.items.length
  | .grab => m.Topped
  | .ret => m.regs.acc ≠ .undefined ∧ m.Topped
  | _ => True

variable {captured lets : Nat} {loaded : Bool} {pending : List Slot}
  {pushed waiting locals args : List Value} {returns : List ReturnEntry}

theorem Poised.acc_ne_undefined
    (h : Poised m captured lets true pending pushed waiting locals args returns) :
    m.regs.acc ≠ .undefined := by
  intro hnone
  have htyped := h.acc_typed rfl
  rw [hnone] at htyped
  cases htyped

theorem Poised.topped
    (h : Poised m captured lets loaded [] pushed waiting locals args returns) :
    m.Topped := by
  have hpushed := h.pushed_typed
  have hargs := h.args_eq
  cases hpushed with
  | nil =>
      cases waiting with
      | cons v waiting =>
          exact ⟨v, _, hargs, Or.inl (h.waiting_typed v List.mem_cons_self).isMark⟩
      | nil =>
          refine ⟨.mark, args, hargs, Or.inr ⟨rfl, ?_⟩⟩
          rw [h.returns_eq, h.extra_eq, ← List.length_map (f := ReturnEntry.value),
            List.drop_left]
          exact h.calls.eq_nil_iff

/-- A machine in order is shaped for the instruction that it is about to execute. -/
theorem Going.shaped (h : m.Going) (hfetch : m.code.fetch m.regs.pc = .instr i) :
    m.Shaped i := by
  obtain ⟨hpoised, hat, hdisciplined⟩ := h.running
  obtain ⟨j, is, rfl⟩ := hdisciplined.exists_cons
  have hsame := hat.fetch.symm.trans hfetch
  cases hsame
  generalize (_ : Nat) + _ = count at hdisciplined
  cases hdisciplined with
  | push _ => exact hpoised.acc_ne_undefined
  | setGlobal _ _ => exact hpoised.acc_ne_undefined
  | apply _ => exact hpoised.acc_ne_undefined
  | appTerm => exact hpoised.acc_ne_undefined
  | bind _ => exact hpoised.acc_ne_undefined
  | unbind _ =>
      change 0 < m.regs.extra
      rw [hpoised.extra_eq]
      have hlets := hpoised.lets_le
      omega
  | makeBlock _ =>
      change _ < m.regs.args.items.length
      obtain ⟨top, more, hpushed, hlength, _, _⟩ := hpoised.pushed_typed.split
      rw [hpoised.args_eq, hpushed]
      simp only [List.length_append, List.length_cons]
      omega
  | grab _ => exact hpoised.topped
  | ret => exact ⟨hpoised.acc_ne_undefined, hpoised.topped⟩
  | int64 _ => trivial
  | access _ _ => trivial
  | getGlobal _ _ => trivial
  | pushMark _ => trivial
  | closure _ _ _ => trivial

end Shape

/-- The second machine holds what the first can still use, in the same places. -/
structure Kept (m m' : Machine) : Prop where
  code : m'.code = m.code
  regs : m'.regs = m.regs
  globals : m'.globals = m.globals
  handles : m'.handles = m.handles
  saved : m'.saved = m.saved
  heap : Heap.Keeps m.roots m.heap m'.heap
  tidy : m'.heap.Tidy

theorem Kept.refl {m : Machine} (htidy : m.heap.Tidy) : m.Kept m :=
  ⟨rfl, rfl, rfl, rfl, rfl, .refl _ _, htidy⟩

theorem Kept.grow {m : Machine} {heap : Heap} (htidy : m.heap.Tidy)
    (hgrows : m.heap.Grows heap) : m.Kept { m with heap := heap } :=
  ⟨rfl, rfl, rfl, rfl, rfl, hgrows.keeps _, hgrows.tidy htidy⟩

theorem Kept.trans {m m' m'' : Machine} (hfirst : m.Kept m') (hsecond : m'.Kept m'') :
    m.Kept m'' where
  code := hsecond.code.trans hfirst.code
  regs := hsecond.regs.trans hfirst.regs
  globals := hsecond.globals.trans hfirst.globals
  handles := hsecond.handles.trans hfirst.handles
  saved := hsecond.saved.trans hfirst.saved
  heap := by
    have hroots : m'.roots = m.roots := by
      rw [roots, roots, hfirst.regs, hfirst.handles, hfirst.globals, hfirst.saved]
    exact hfirst.heap.trans (hroots ▸ hsecond.heap)
  tidy := hsecond.tidy

theorem kept_collectIfFull {m : Machine} (htidy : m.heap.Tidy) :
    m.Kept m.collectIfFull := by
  rw [collectIfFull]
  split
  · exact ⟨rfl, rfl, rfl, rfl, rfl, htidy.collect_keeps m.roots, htidy.collect m.roots⟩
  · exact .refl htidy

section Keep

variable {m x' y' : Machine}

theorem mem_roots_args {v : Value} (hv : v ∈ m.regs.args.items) : v ∈ m.roots := by
  simp [roots, hv]

theorem mem_roots_returns {v : Value}
    (hv : v ∈ m.regs.returns.items.map ReturnEntry.held) : v ∈ m.roots := by
  rw [roots]
  simp only [List.mem_cons, List.mem_append]
  exact Or.inr (Or.inr (Or.inr (Or.inl hv)))

theorem mem_roots_handles {v : Value} (hv : v ∈ m.handles.values) : v ∈ m.roots := by
  simp [roots, hv]

theorem mem_roots_globals {v : Value} (hv : v ∈ m.globals.values) : v ∈ m.roots := by
  simp [roots, hv]

theorem held_value (locals : List Value) :
    (locals.map ReturnEntry.value).map ReturnEntry.held = locals := by
  simp [Function.comp_def, ReturnEntry.held]

/-- Machines stay in step when each keeps what it can use. -/
theorem Aligned.keep (h : Aligned rest x y front front' locals locals' below below')
    (hx : x.Kept x') (hy : y.Kept y') :
    Aligned rest x' y' front front' locals locals' below below' := by
  have hin {v : Value} (hv : v ∈ x.roots) : v.Within (x.heap.Reach x.roots) :=
    Heap.within_reach hv
  have hin' {v : Value} (hv : v ∈ y.roots) : v.Within (y.heap.Reach y.roots) :=
    Heap.within_reach hv
  have hfront : List.Forall₂ (Mirror x'.heap y'.heap) front front' := by
    refine Mirror.keep_all h.front hx.heap hy.heap (fun v hv => hin (mem_roots_args ?_))
      fun v hv => hin' (mem_roots_args ?_)
    · simp [h.args, hv]
    · simp [h.args', hv]
  have hbelow : Below x'.heap y'.heap below below' := by
    refine h.below.keep hx.heap hy.heap (fun v hv => hin (mem_roots_returns ?_))
      fun v hv => hin' (mem_roots_returns ?_)
    · rw [h.returns, List.map_append]
      exact List.mem_append_right _ hv
    · rw [h.returns', List.map_append]
      exact List.mem_append_right _ hv
  have hglobals : x.globals.Mirrors x'.heap y'.heap y.globals :=
    h.globals.keep hx.heap hy.heap (fun v hv => hin (mem_roots_globals hv))
      fun v hv => hin' (mem_roots_globals hv)
  refine ⟨?_, ?_, ?_, ?_, ?_, hfront, ?_, ?_, ?_, ?_, hbelow, ?_, ?_, hx.tidy, hy.tidy⟩
  · rw [hx.code, hy.code, h.code]
  · rw [hx.regs, hy.regs, h.pc]
  · rw [hx.regs, hy.regs]
    refine h.acc.imp_right fun hacc => hacc.keep hx.heap hy.heap (hin ?_) (hin' ?_)
    · exact List.mem_cons_self
    · exact List.mem_cons_self
  · rw [hx.regs, h.args]
  · rw [hy.regs, h.args']
  · rw [hx.regs, h.returns]
  · rw [hy.regs, h.returns']
  · rw [hx.regs, h.extra]
  · rw [hy.regs, h.extra']
  · rw [hx.globals, hy.globals]
    exact hglobals
  · intro v hv
    obtain ⟨hheld, hmirror⟩ := h.held v hv
    refine ⟨by rwa [hy.handles], hmirror.keep hx.heap hy.heap (hin (mem_roots_args ?_))
      (hin' (mem_roots_handles hheld))⟩
    simp [h.args, hv]

theorem Abreast.tidy (h : Abreast rest x y) : x.heap.Tidy ∧ y.heap.Tidy := by
  obtain ⟨h, _⟩ := h
  exact ⟨h.tidy, h.tidy'⟩

theorem Abreast.keep (h : Abreast rest x y) (hx : x.Kept x') (hy : y.Kept y') :
    Abreast rest x' y' := by
  obtain ⟨h, hscope⟩ := h
  refine .intro (h.keep hx hy) ?_
  rw [hx.regs, hy.regs]
  -- the environment and the locals are roots
  refine hscope.keep hx.heap hy.heap (fun v hv => Heap.within_reach ?_)
    fun v hv => Heap.within_reach ?_
  · rcases List.mem_cons.1 hv with rfl | hv
    · exact List.mem_cons_of_mem _ List.mem_cons_self
    · refine mem_roots_returns ?_
      rw [h.returns, List.map_append, held_value]
      exact List.mem_append_left _ hv
  · rcases List.mem_cons.1 hv with rfl | hv
    · exact List.mem_cons_of_mem _ List.mem_cons_self
    · refine mem_roots_returns ?_
      rw [h.returns', List.map_append, held_value]
      exact List.mem_append_left _ hv

end Keep

end Machine

end Zinc
