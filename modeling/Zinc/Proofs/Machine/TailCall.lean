import Zinc.Proofs.Code.Nesting
import Zinc.Proofs.Machine.Lockstep
import Zinc.Proofs.Machine.Safe
import Zinc.Proofs.Machine.Usage

/-!
Calls in tail position use no return stack.  The stack holds the frames of the calls that
wait and, above each of them, the locals of the call it was left for.  Only `APPLY` adds a
frame, and only a call that ends takes one away; a call in tail position drops the locals
of the current call and leaves the rest alone.  Since a call never has more locals there
than binders are nested in its code, the depth of the stack is bounded by the number of
frames, however long a run is.
-/

namespace Zinc

/-- Whether an entry is the frame of a call that waits. -/
def ReturnEntry.isFrame : ReturnEntry → Bool
  | .frame _ _ _ => true
  | .value _ => false

namespace Machine

/-- The number of calls that wait for the current one. -/
def frames (m : Machine) : Nat :=
  m.regs.returns.items.countP (·.isFrame)

/-- The locals of the current call lie on top of `below`. -/
def Above (m : Machine) (below : List ReturnEntry) : Prop :=
  ∃ locals : List Value, m.regs.returns.items = locals.map .value ++ below ∧
    m.regs.extra = locals.length

/-- The call has an argument left. -/
def HasArgument (m : Machine) : Prop :=
  ∃ v, m.regs.args.top? = some v ∧ v.isMark = false

/-- What the instruction `i` does to the return stack between `m` and `m'`: nothing, it
binds a local or drops one, it leaves a frame for a call, goes on with another call in
place of the current one, or ends the call. -/
inductive Shifts (m : Machine) (i : Instr) (m' : Machine) : Prop where
  | keep : i ∉ [.appTerm, .ret, .unbind] → m'.regs.returns = m.regs.returns →
      m'.regs.extra = m.regs.extra → m'.regs.pc = m.regs.pc + i.skips → Shifts m i m'
  | bound {v : Value} : i = .bind ∨ i = .grab →
      m'.regs.returns.items = .value v :: m.regs.returns.items →
      m'.regs.extra = m.regs.extra + 1 → m'.regs.pc = m.regs.pc → Shifts m i m'
  | unbound {v : Value} : i = .unbind →
      m.regs.returns.items = .value v :: m'.regs.returns.items →
      m.regs.extra = m'.regs.extra + 1 → m'.regs.pc = m.regs.pc → Shifts m i m'
  | called : i = .apply →
      m'.regs.returns.items =
        .frame m.regs.pc m.regs.env m.regs.extra :: m.regs.returns.items →
      m'.regs.extra = 0 → Shifts m i m'
  | replaced : i = .appTerm ∨ i = .ret ∧ m.HasArgument → m.Above m'.regs.returns.items →
      m'.regs.extra = 0 → Shifts m i m'
  | left {env : Value} : i = .ret ∨ i = .grab → m.regs.args.top? = some .mark →
      m.Above (.frame m'.regs.pc env m'.regs.extra :: m'.regs.returns.items) →
      Shifts m i m'
  | ended : i = .ret ∨ i = .grab → m.regs.args.top? = some .mark → m.Above [] →
      m'.regs.returns.items = [] → m'.regs.extra = 0 → Shifts m i m'

variable {m m' : Machine} {i : Instr}

section Instructions

variable {slots captured lets : Nat} {loaded : Bool} {pending : List Slot}
  {pushed waiting locals args : List Value} {returns : List ReturnEntry} {is : List Instr}

theorem Poised.above
    (h : Poised m captured lets loaded pending pushed waiting locals args returns) :
    m.Above returns :=
  ⟨locals, h.returns_eq, h.extra_eq⟩

theorem Above.drop {below : List ReturnEntry} (h : m.Above below) :
    m.regs.returns.items.drop m.regs.extra = below := by
  obtain ⟨locals, hitems, hextra⟩ := h
  rw [hitems, hextra, ← List.length_map (f := ReturnEntry.value)]
  exact List.drop_left

/-- A jump leaves the return stack alone. -/
theorem returns_jump (m : Machine) (callee : Value) :
    (m.jump callee).After fun last =>
      last.regs.returns = m.regs.returns ∧ last.regs.extra = m.regs.extra := by
  rcases m.jump_cases callee with ⟨_, _, _, heq⟩ | ⟨_, heq⟩
  · rw [heq]
    exact ⟨rfl, rfl⟩
  · rw [heq]
    exact ⟨rfl, rfl⟩

/-- The current call is replaced by another one. -/
theorem shifts_tailCall {below : List ReturnEntry} (habove : m.Above below)
    (hi : i = .appTerm ∨ i = .ret ∧ m.HasArgument) (callee : Value) :
    (m.dropExtras.jump callee).After (m.Shifts i) := by
  refine (returns_jump m.dropExtras callee).imp fun last hlast => ?_
  have hitems : last.regs.returns.items = below := by
    rw [hlast.1]
    exact habove.drop
  exact .replaced hi (hitems ▸ habove) hlast.2

theorem shifts_leave {x : Machine} (hi : i = .ret ∨ i = .grab)
    (hmark : m.regs.args.top? = some .mark) (habove : m.Above returns)
    (hcalls : Waiting w args returns) (hreturns : x.regs.returns = m.regs.returns)
    (hextra : x.regs.extra = m.regs.extra) : x.leave.After (m.Shifts i) := by
  have hdrop : x.regs.returns.items.drop x.regs.extra = returns := by
    rw [hreturns, hextra]
    exact habove.drop
  unfold leave dropExtras
  dsimp only [Stack.top?, Stack.items_drop]
  rw [hdrop]
  cases hcalls with
  | bottom => exact .ended hi hmark habove hdrop rfl
  | @call pc env _ locals _ returns _ _ =>
      refine @Shifts.left _ _ _ env hi hmark ?_
      simpa [hdrop] using habove

/-- The machine `m'` has the return stack of `m` and stands after the instruction `i`. -/
def Stays (m : Machine) (i : Instr) (m' : Machine) : Prop :=
  m'.regs.returns = m.regs.returns ∧ m'.regs.extra = m.regs.extra ∧
    m'.regs.pc = m.regs.pc + i.skips

/-- An instruction that is not about calls or locals leaves the return stack alone. -/
theorem stays_execute (m : Machine) (hi : i.isPlain = true) (hcall : i ≠ .apply) :
    (m.execute i).After (m.Stays i) := by
  have hstay {x : Machine} (hregs : x.regs.returns = m.regs.returns ∧
      x.regs.extra = m.regs.extra ∧ x.regs.pc = m.regs.pc) (hskips : i.skips = 0) :
      m.Stays i x :=
    ⟨hregs.1, hregs.2.1, by rw [hregs.2.2, hskips, Int.natCast_zero, Int.add_zero]⟩
  cases i with
  | int64 value => exact hstay ⟨rfl, rfl, rfl⟩ rfl
  | apply => exact absurd rfl hcall
  | push | pushMark =>
      rw [execute, pushArg]
      split
      · exact hstay ⟨rfl, rfl, rfl⟩ rfl
      · exact hstay ⟨rfl, rfl, rfl⟩ rfl
  | makeBlock n =>
      rw [execute, makeTuple]
      dsimp only
      split
      · exact hstay ⟨rfl, rfl, rfl⟩ rfl
      · exact hstay ⟨rfl, rfl, rfl⟩ rfl
  | access _ | setGlobal _ =>
      rw [execute]
      split
      · exact hstay ⟨rfl, rfl, rfl⟩ rfl
      · exact hstay ⟨rfl, rfl, rfl⟩ rfl
  | getGlobal slot =>
      rw [execute]
      split
      · exact hstay ⟨rfl, rfl, rfl⟩ rfl
      · split
        · exact hstay ⟨rfl, rfl, rfl⟩ rfl
        · exact hstay ⟨rfl, rfl, rfl⟩ rfl
  | ret | appTerm | grab | bind | unbind | closure => cases hi

/-- Binding a local, if there is room for it. -/
theorem shifts_bind {x : Machine} (hi : i = .bind ∨ i = .grab) (v : Value)
    (hreturns : x.regs.returns = m.regs.returns) (hextra : x.regs.extra = m.regs.extra)
    (hpc : x.regs.pc = m.regs.pc) :
    ((x.pushReturn (.value v)).andThen fun y =>
      .running { y with regs := { y.regs with extra := y.regs.extra + 1 } }).After
        (m.Shifts i) := by
  rw [pushReturn]
  split
  · refine .keep ?_ hreturns hextra ?_
    · rcases hi with rfl | rfl <;> decide
    · rcases hi with rfl | rfl <;> simpa [Instr.skips] using hpc
  · refine @Shifts.bound _ _ _ v hi ?_ ?_ hpc
    · exact congrArg (fun s => .value v :: s.items) hreturns
    · exact congrArg (· + 1) hextra

theorem shifts_execute
    (hpoised : Poised m captured lets loaded pending pushed waiting locals args returns)
    (hat : m.code.At m.regs.pc is) {count : Nat}
    (hdisciplined : Disciplined slots count lets loaded pending (i :: is)) :
    (m.execute i).After (m.Shifts i) := by
  have hkeep (hi : i.isPlain = true) (hcall : i ≠ .apply) :
      (m.execute i).After (m.Shifts i) := by
    refine (stays_execute m hi hcall).imp fun last hlast => ?_
    refine .keep (fun hmem => ?_) hlast.1 hlast.2.1 hlast.2.2
    simp only [List.mem_cons, List.not_mem_nil, or_false] at hmem
    rcases hmem with rfl | rfl | rfl <;> cases hi
  have habove := hpoised.above
  have hargs := hpoised.args_eq
  cases hdisciplined with
  | int64 _ | access _ _ | getGlobal _ _ | setGlobal _ _ | push _ | pushMark _ | makeBlock _ =>
      exact hkeep rfl nofun
  | closure hlength _ _ =>
      have hfits := hat.skip.fits
      rw [execute]
      dsimp only
      rw [hlength, if_neg (by omega)]
      exact .keep (by simp) rfl rfl (by rw [Instr.skips, hlength]; rfl)
  | apply _ =>
      rw [execute, pushReturn]
      split
      · exact .keep (by decide) rfl rfl (by simp [Instr.skips])
      · refine (returns_jump _ _).imp fun last hlast => ?_
        exact .called rfl (congrArg Stack.items hlast.1) hlast.2
  | appTerm => exact shifts_tailCall habove (.inl rfl) _
  | grab _ =>
      cases hpoised.pushed_typed
      have hwaiting := hpoised.waiting_typed
      unfold execute Stack.top?
      dsimp only
      rw [hargs]
      cases waiting with
      | nil =>
          refine shifts_leave (.inr rfl) ?_ habove hpoised.calls rfl rfl
          rw [Stack.top?, hargs]
          rfl
      | cons v waiting =>
          have hv := (hwaiting v List.mem_cons_self).isMark
          dsimp only [List.nil_append, List.cons_append, List.head?_cons]
          rw [if_neg (by simp [hv])]
          exact shifts_bind (.inr rfl) v rfl rfl rfl
  | ret =>
      cases hpoised.pushed_typed
      have hwaiting := hpoised.waiting_typed
      unfold execute Stack.top?
      dsimp only
      rw [hargs]
      cases waiting with
      | nil =>
          refine shifts_leave (.inl rfl) ?_ habove hpoised.calls rfl rfl
          rw [Stack.top?, hargs]
          rfl
      | cons v waiting =>
          have hv := (hwaiting v List.mem_cons_self).isMark
          dsimp only [List.nil_append, List.cons_append, List.head?_cons]
          rw [if_neg (by simp [hv])]
          refine shifts_tailCall habove (.inr ⟨rfl, v, ?_, hv⟩) _
          rw [Stack.top?, hargs]
          rfl
  | bind _ => exact shifts_bind (.inl rfl) _ rfl rfl rfl
  | unbind _ =>
      have hlets := hpoised.lets_le
      have hextra := hpoised.extra_eq
      cases locals with
      | nil => simp at hlets
      | cons v locals =>
          rw [List.length_cons] at hextra
          unfold execute
          dsimp only
          rw [if_neg (by omega)]
          refine @Shifts.unbound _ _ _ v rfl ?_ (by simp [hextra]) rfl
          simp [hpoised.returns_eq]

end Instructions

end Machine

/-- At `pc`, the code can be run with `n` locals on the return stack and never has more than
`d` there. -/
def Code.NestedAt (d : Nat) (c : Code) (pc : Int) (n : Nat) : Prop :=
  ∃ is, c.Rest pc is ∧ Nested d n is

namespace Code.NestedAt

variable {c : Code} {pc : Int} {d n : Nat} {i : Instr}

theorem keep (h : c.NestedAt d pc n) (hfetch : c.fetch pc = .instr i)
    (hi : i ∉ [.appTerm, .ret, .unbind]) : c.NestedAt d (pc + i.size + i.skips) n := by
  obtain ⟨is, hrest, hnested⟩ := h
  obtain ⟨js, rfl⟩ := hrest.exists_cons hfetch
  have hnext := hrest.next
  have hafter (hjs : Nested d n js) (hskips : i.skips = 0) :
      c.NestedAt d (pc + i.size + i.skips) n := by
    rw [hskips, Int.natCast_zero, Int.add_zero]
    exact ⟨js, hnext, hjs⟩
  cases hnested with
  | bind _ hjs => exact hafter (hjs.fewer (Nat.le_succ n)) rfl
  | grab _ hjs => exact hafter (hjs.fewer (Nat.le_succ n)) rfl
  | unbind _ => simp at hi
  | closure hlength _ hjs =>
      have hskip := hnext.skip
      rw [← hlength] at hskip
      exact ⟨_, hskip, hjs⟩
  | leaving hleaving _ => rcases hleaving with rfl | rfl <;> simp at hi
  | plain hplain hjs =>
      refine hafter hjs ?_
      cases i with
      | closure _ => cases hplain
      | _ => rfl

theorem bound (h : c.NestedAt d pc n) (hfetch : c.fetch pc = .instr i)
    (hi : i = .bind ∨ i = .grab) : n + 1 ≤ d ∧ c.NestedAt d (pc + i.size) (n + 1) := by
  obtain ⟨is, hrest, hnested⟩ := h
  obtain ⟨js, rfl⟩ := hrest.exists_cons hfetch
  cases hnested with
  | bind hroom hjs => exact ⟨hroom, js, hrest.next, hjs⟩
  | grab hroom hjs => exact ⟨hroom, js, hrest.next, hjs⟩
  | unbind _ => simp at hi
  | closure _ _ _ => simp at hi
  | leaving hleaving _ => rcases hleaving with rfl | rfl <;> simp at hi
  | plain hplain _ => rcases hi with rfl | rfl <;> cases hplain

theorem unbound (h : c.NestedAt d pc (n + 1)) (hfetch : c.fetch pc = .instr .unbind) :
    c.NestedAt d (pc + Instr.unbind.size) n := by
  obtain ⟨is, hrest, hnested⟩ := h
  obtain ⟨js, rfl⟩ := hrest.exists_cons hfetch
  cases hnested with
  | unbind hjs => exact ⟨js, hrest.next, hjs⟩
  | leaving hleaving _ => simp at hleaving
  | plain hplain _ => cases hplain

end Code.NestedAt

namespace Machine

variable {m m' : Machine} {i : Instr} {d : Nat}

/-- A machine that goes on in code in which at most `d` binders are nested.  The current
call and those that wait have no more locals than binders are nested where they stand. -/
structure Steady (d : Nat) (m : Machine) : Prop where
  going : m.Going
  area : ∃ all, m.code.bytes.toList = Instr.encodeAll all ∧ Nested d 0 all
  here : m.code.NestedAt d m.regs.pc m.regs.extra
  extra_le : m.regs.extra ≤ d
  frames : ∀ pc env extra, .frame pc env extra ∈ m.regs.returns.items →
    extra ≤ d ∧ m.code.NestedAt d pc extra

/-- The return stack holds no more than the frames and, for each call, `d` locals. -/
def Bounded (d : Nat) (m : Machine) : Prop :=
  m.regs.returns.depth ≤ m.frames * (d + 1) + d

/-- Wherever compiled code is entered, no local is on the return stack yet. -/
theorem Going.nestedAt_zero (h : m.Going)
    (harea : ∃ all, m.code.bytes.toList = Instr.encodeAll all ∧ Nested d 0 all) :
    m.code.NestedAt d m.regs.pc 0 := by
  obtain ⟨_, hat, _⟩ := h.running
  obtain ⟨all, hbytes, hnested⟩ := harea
  obtain ⟨more, hrest, hsuffix⟩ := hat.rest hbytes
  exact ⟨_, hrest, hnested.suffix hsuffix⟩

/-- The effect of the instruction that comes next. -/
theorem Going.shifts (h : m.Going) : ∃ i, m.code.fetch m.regs.pc = .instr i ∧
    m.step.After ((m.fetched i).Shifts i) := by
  obtain ⟨hpoised, hat, hdisciplined⟩ := h.running
  obtain ⟨i, is, rfl⟩ := hdisciplined.exists_cons
  refine ⟨i, hat.fetch, ?_⟩
  have hfetched : Poised (m.fetched i) _ _ _ _ _ _ _ _ _ :=
    ⟨hpoised.args_eq, hpoised.returns_eq, hpoised.extra_eq, hpoised.lets_le,
      hpoised.env_typed, hpoised.locals_typed, hpoised.pushed_typed,
      hpoised.waiting_typed, hpoised.acc_typed, hpoised.calls⟩
  rw [step_of_fetch hat.fetch]
  exact shifts_execute hfetched hat.next hdisciplined

theorem countP_locals (locals : List Value) (below : List ReturnEntry) :
    (locals.map ReturnEntry.value ++ below).countP (·.isFrame) =
      below.countP (·.isFrame) := by
  rw [List.countP_append, List.countP_map]
  have hnone : locals.countP ((·.isFrame) ∘ ReturnEntry.value) = 0 :=
    List.countP_eq_zero.2 fun _ _ => nofun
  omega

theorem Above.frames {below : List ReturnEntry} (h : m.Above below) :
    m.frames = below.countP (·.isFrame) := by
  obtain ⟨locals, hitems, _⟩ := h
  rw [Machine.frames, hitems, countP_locals]

theorem Above.unique {below below' : List ReturnEntry} (h : m.Above below)
    (h' : m.Above below') : below = below' :=
  h.drop.symm.trans h'.drop

/-- Each call that waits has its frame and its locals on the return stack. -/
theorem length_waiting {w : World} {args : List Value} {returns : List ReturnEntry}
    (h : Waiting w args returns)
    (hframes : ∀ pc env extra, .frame pc env extra ∈ returns → extra ≤ d) :
    returns.length ≤ returns.countP (·.isFrame) * (d + 1) := by
  induction h with
  | bottom => exact Nat.zero_le _
  | @call pc env _ locals _ returns _ _ ih =>
      have hlocals := hframes pc env locals.length List.mem_cons_self
      have hrest := ih fun pc env extra hmem =>
        hframes pc env extra (List.mem_cons_of_mem _ (List.mem_append_right _ hmem))
      rw [List.countP_cons_of_pos rfl, countP_locals, Nat.succ_mul, List.length_cons,
        List.length_append, List.length_map]
      omega

/-- What an instruction does to the number of calls that wait. -/
theorem Shifts.frames (h : m.Shifts i m') :
    (m.frames < m'.frames → i = .apply) ∧
      m'.frames ≤ m.frames + (if i = .apply then 1 else 0) ∧
      (m'.frames < m.frames → (i = .ret ∨ i = .grab) ∧ m.regs.args.top? = some .mark) := by
  have hsame (heq : m'.frames = m.frames) :
      (m.frames < m'.frames → i = .apply) ∧
      m'.frames ≤ m.frames + (if i = .apply then 1 else 0) ∧
      (m'.frames < m.frames → (i = .ret ∨ i = .grab) ∧
        m.regs.args.top? = some .mark) :=
    ⟨fun _ => by omega, by omega, fun _ => by omega⟩
  cases h with
  | keep _ hreturns _ _ => exact hsame (by rw [Machine.frames, Machine.frames, hreturns])
  | bound _ hitems _ _ =>
      refine hsame ?_
      rw [Machine.frames, Machine.frames, hitems,
        List.countP_cons_of_neg (by simp [ReturnEntry.isFrame])]
  | unbound _ hitems _ _ =>
      refine hsame ?_
      rw [Machine.frames, Machine.frames, hitems,
        List.countP_cons_of_neg (by simp [ReturnEntry.isFrame])]
  | called hi hitems _ =>
      have hframes : m'.frames = m.frames + 1 := by
        rw [Machine.frames, Machine.frames, hitems, List.countP_cons_of_pos rfl]
      exact ⟨fun _ => hi, by rw [if_pos hi]; omega, fun _ => by omega⟩
  | replaced _ habove _ => exact hsame habove.frames.symm
  | left hi hmark habove =>
      have hframes := habove.frames
      rw [List.countP_cons_of_pos rfl] at hframes
      change m.frames = m'.frames + 1 at hframes
      exact ⟨fun _ => by omega, by omega, fun _ => ⟨hi, hmark⟩⟩
  | ended hi hmark habove hitems _ =>
      refine hsame ?_
      rw [habove.frames, Machine.frames, hitems]

/-- A call in tail position, and a return that finds an argument, drop the locals of the
current call and nothing else. -/
theorem Shifts.replaces (h : m.Shifts i m')
    (hi : i = .appTerm ∨ i = .ret ∧ m.HasArgument) :
    m.Above m'.regs.returns.items ∧ m'.regs.extra = 0 := by
  have hmarked (hi' : i = .ret ∨ i = .grab) (hmark : m.regs.args.top? = some .mark) :
      False := by
    rcases hi with rfl | ⟨rfl, v, hv, hnot⟩
    · simp at hi'
    · rw [hmark] at hv
      cases hv
      cases hnot
  cases h with
  | keep hkeep _ _ _ => rcases hi with rfl | ⟨rfl, _⟩ <;> simp at hkeep
  | bound hbound _ _ _ => rcases hi with rfl | ⟨rfl, _⟩ <;> simp at hbound
  | unbound hunbind _ _ _ => rcases hi with rfl | ⟨rfl, _⟩ <;> cases hunbind
  | called happly _ _ => rcases hi with rfl | ⟨rfl, _⟩ <;> cases happly
  | replaced _ habove hextra => exact ⟨habove, hextra⟩
  | left hleft hmark _ => exact (hmarked hleft hmark).elim
  | ended hended hmark _ _ _ => exact (hmarked hended hmark).elim

namespace Steady

/-- The locals of the current call and the calls that wait. -/
theorem split (h : m.Steady d) : ∃ below, m.Above below ∧
    below.length ≤ m.frames * (d + 1) := by
  obtain ⟨hpoised, _, _⟩ := h.going.running
  refine ⟨_, hpoised.above, ?_⟩
  rw [hpoised.above.frames]
  refine length_waiting hpoised.calls fun pc env extra hmem => ?_
  refine (h.frames pc env extra ?_).1
  rw [hpoised.returns_eq]
  exact List.mem_append_right _ hmem

theorem bounded (h : m.Steady d) : m.Bounded d := by
  obtain ⟨below, ⟨locals, hitems, hextra⟩, hlength⟩ := h.split
  have hle := h.extra_le
  rw [Bounded, Stack.depth_eq, hitems, List.length_append, List.length_map]
  omega

/-- Whatever the next instruction leads to, the return stack stays bounded. -/
theorem bounded_shifts (h : m.Steady d) (hfetch : m.code.fetch m.regs.pc = .instr i)
    (hshifts : (m.fetched i).Shifts i m') : m'.Bounded d := by
  obtain ⟨below, habove, hlength⟩ := h.split
  have habove : (m.fetched i).Above below := habove
  have hbounded : (m.fetched i).Bounded d := h.bounded
  have hframes : m.frames = below.countP (·.isFrame) := habove.frames
  rw [Bounded, Stack.depth_eq] at hbounded ⊢
  cases hshifts with
  | keep _ hreturns _ _ => rwa [Machine.frames, hreturns]
  | bound hi hitems _ _ =>
      have hroom := (h.here.bound hfetch hi).1
      obtain ⟨locals, hlocals, hextra⟩ := habove
      have hextra : m.regs.extra = locals.length := hextra
      rw [Machine.frames, hitems, hlocals, List.countP_cons_of_neg (by simp [ReturnEntry.isFrame]),
        countP_locals, ← hframes, List.length_cons, List.length_append, List.length_map]
      omega
  | unbound _ hitems _ _ =>
      rw [Machine.frames, hitems, List.countP_cons_of_neg (by simp [ReturnEntry.isFrame]),
        List.length_cons] at hbounded
      rw [Machine.frames]
      omega
  | called _ hitems _ =>
      rw [Machine.frames] at hbounded
      rw [Machine.frames, hitems, List.countP_cons_of_pos rfl, Nat.succ_mul, List.length_cons]
      omega
  | replaced _ habove' _ =>
      obtain rfl := habove.unique habove'
      rw [Machine.frames, ← hframes]
      omega
  | left _ _ habove' =>
      obtain rfl := habove.unique habove'
      rw [List.countP_cons_of_pos rfl] at hframes
      rw [hframes, Nat.succ_mul, List.length_cons] at hlength
      rw [Machine.frames]
      omega
  | ended _ _ _ hitems _ =>
      rw [hitems]
      exact Nat.zero_le _

/-- A step of a steady machine leaves it steady. -/
theorem step (h : m.Steady d) (hstep : m.step = .running m') : m'.Steady d := by
  obtain ⟨i, hfetch, hshifts⟩ := h.going.shifts
  have hfine := fine_step h.going.sound h.going.running
  have hcode := m.stepped_step
  rw [hstep] at hshifts hfine hcode
  have hgoing : m'.Going := ⟨hfine.1, hfine.2⟩
  have hsame : m'.code = m.code := hcode.code
  have harea : ∃ all, m'.code.bytes.toList = Instr.encodeAll all ∧ Nested d 0 all := by
    rw [hsame]
    exact h.area
  have hframes (hsub : ∀ e ∈ m'.regs.returns.items, e.isFrame = true →
      e ∈ m.regs.returns.items) : ∀ pc env extra,
      .frame pc env extra ∈ m'.regs.returns.items →
        extra ≤ d ∧ m'.code.NestedAt d pc extra := by
    intro pc env extra hmem
    rw [hsame]
    exact h.frames pc env extra (hsub _ hmem rfl)
  have hbelow {below : List ReturnEntry} (habove : (m.fetched i).Above below) :
      ∀ e ∈ below, e ∈ m.regs.returns.items := by
    obtain ⟨locals, hitems, _⟩ := habove
    intro e he
    have hitems : m.regs.returns.items = locals.map .value ++ below := hitems
    rw [hitems]
    exact List.mem_append_right _ he
  cases hshifts with
  | keep hi hreturns hextra hpc =>
      have hreturns : m'.regs.returns = m.regs.returns := hreturns
      have hextra : m'.regs.extra = m.regs.extra := hextra
      have hpc : m'.regs.pc = m.regs.pc + i.size + i.skips := hpc
      refine ⟨hgoing, harea, ?_, hextra ▸ h.extra_le, hframes fun e he _ => hreturns ▸ he⟩
      rw [hsame, hextra, hpc]
      exact h.here.keep hfetch hi
  | @bound v hi hitems hextra hpc =>
      have hitems : m'.regs.returns.items = .value v :: m.regs.returns.items := hitems
      have hextra : m'.regs.extra = m.regs.extra + 1 := hextra
      have hpc : m'.regs.pc = m.regs.pc + i.size := hpc
      obtain ⟨hroom, hhere⟩ := h.here.bound hfetch hi
      refine ⟨hgoing, harea, ?_, hextra ▸ hroom, hframes fun e he hframe => ?_⟩
      · rw [hsame, hextra, hpc]
        exact hhere
      · rw [hitems] at he
        rcases List.mem_cons.1 he with rfl | he
        · cases hframe
        · exact he
  | @unbound v hi hitems hextra hpc =>
      subst hi
      have hitems : m.regs.returns.items = .value v :: m'.regs.returns.items := hitems
      have hextra : m.regs.extra = m'.regs.extra + 1 := hextra
      have hpc : m'.regs.pc = m.regs.pc + Instr.unbind.size := hpc
      have hle := h.extra_le
      have hhere := h.here
      rw [hextra] at hhere
      refine ⟨hgoing, harea, ?_, by omega, hframes fun e he _ => ?_⟩
      · rw [hsame, hpc]
        exact hhere.unbound hfetch
      · rw [hitems]
        exact List.mem_cons_of_mem _ he
  | called hi hitems hextra =>
      subst hi
      have hitems : m'.regs.returns.items =
        .frame (m.regs.pc + Instr.apply.size) m.regs.env m.regs.extra ::
          m.regs.returns.items := hitems
      have hafter := h.here.keep hfetch (by decide)
      refine ⟨hgoing, harea, hextra ▸ hgoing.nestedAt_zero harea, hextra ▸ Nat.zero_le d, ?_⟩
      intro pc env extra hmem
      rw [hitems] at hmem
      rw [hsame]
      rcases List.mem_cons.1 hmem with heq | hmem
      · cases heq
        exact ⟨h.extra_le, by simpa [Instr.skips] using hafter⟩
      · exact h.frames pc env extra hmem
  | replaced hi habove hextra =>
      exact ⟨hgoing, harea, hextra ▸ hgoing.nestedAt_zero harea, hextra ▸ Nat.zero_le d,
        hframes fun e he _ => hbelow habove e he⟩
  | @left env hi hmark habove =>
      obtain ⟨hle, hhere⟩ := h.frames _ env _ (hbelow habove _ List.mem_cons_self)
      rw [← hsame] at hhere
      refine ⟨hgoing, harea, hhere, hle, hframes fun e he _ => ?_⟩
      exact hbelow habove e (List.mem_cons_of_mem _ he)
  | ended hi hmark habove hitems hextra =>
      refine ⟨hgoing, harea, hextra ▸ hgoing.nestedAt_zero harea, hextra ▸ Nat.zero_le d, ?_⟩
      refine hframes fun e he _ => ?_
      rw [hitems] at he
      exact absurd he List.not_mem_nil

/-- Between instructions neither the code nor the registers change. -/
theorem ready (h : m.Steady d) : m.ready.2.Steady d := by
  obtain ⟨hregs, _⟩ := m.ready_registers
  have hcode := m.evaluated_ready.code
  exact ⟨h.going.ready.1, hcode ▸ h.area, by rw [hcode, hregs]; exact h.here,
    by rw [hregs]; exact h.extra_le, by rw [hcode, hregs]; exact h.frames⟩

theorem counted (h : m.Steady d) : m.counted.Steady d :=
  ⟨h.going.withRecords _ _ _, h.area, h.here, h.extra_le, h.frames⟩

end Steady

/-- The machines that at most `fuel` steps find at an instruction that they start, in their
order. -/
def executions : Nat → Machine → List Machine
  | 0, _ => []
  | fuel + 1, m =>
    match m.ready with
    | (some _, _) => []
    | (none, m) =>
      m.counted :: match m.counted.step with
        | .running m => executions fuel m
        | .finished _ | .faulted _ _ => []

/-- The next instruction is `APPLY`. -/
def applies (m : Machine) : Bool :=
  match m.code.fetch m.regs.pc with
  | .instr .apply => true
  | _ => false

/-- All machines of a run whose return stack is bounded, with the number of instructions
that have added a frame by the end. -/
theorem Steady.visits (h : m.Steady d) (fuel : Nat) :
    (∀ x ∈ m.executions fuel, x.Steady d) ∧
      ∀ x ∈ m.visits fuel, x.Bounded d ∧
        x.frames ≤ m.frames + (m.executions fuel).countP applies := by
  induction fuel generalizing m with
  | zero =>
      refine ⟨fun x hx => absurd hx List.not_mem_nil, List.forall_mem_singleton.2 ?_⟩
      exact ⟨h.bounded, Nat.le_add_right _ _⟩
  | succ fuel ih =>
      have hready := h.ready
      have hregs := m.ready_registers.1
      have hframes : m.ready.2.frames = m.frames := by
        rw [Machine.frames, Machine.frames, hregs]
      rw [Machine.visits, Machine.executions]
      generalize m.ready = r at hready hframes
      obtain ⟨stop, x⟩ := r
      cases stop with
      | some f =>
          refine ⟨fun x hx => absurd hx List.not_mem_nil, ?_⟩
          refine List.forall_mem_cons.2 ⟨⟨h.bounded, Nat.le_add_right _ _⟩, ?_⟩
          exact List.forall_mem_singleton.2 ⟨hready.bounded, Nat.le_of_eq hframes⟩
      | none =>
          have hcounted := hready.counted
          have hsame : x.counted.frames = m.frames := hframes
          obtain ⟨i, hfetch, hshifts⟩ := hcounted.going.shifts
          have happlies : x.counted.applies = true ↔ i = .apply := by
            rw [applies, hfetch]
            cases i <;> simp
          have hlast {last : Machine} (hlast : (x.counted.fetched i).Shifts i last)
              (rest : List Machine) {k : Nat} (hk : k ≤ last.frames + rest.countP applies) :
              k ≤ m.frames + (x.counted :: rest).countP applies := by
            have hle : last.frames ≤ x.counted.frames + _ := hlast.frames.2.1
            rw [hsame] at hle
            rw [List.countP_cons]
            simp only [happlies]
            omega
          have hstay (rest : List Machine) : m.Bounded d ∧
              m.frames ≤ m.frames + (x.counted :: rest).countP applies :=
            ⟨h.bounded, Nat.le_add_right _ _⟩
          have hstay' (rest : List Machine) : x.counted.Bounded d ∧
              x.counted.frames ≤ m.frames + (x.counted :: rest).countP applies :=
            ⟨hcounted.bounded, hsame ▸ Nat.le_add_right _ _⟩
          dsimp only
          cases hstep : x.counted.step with
          | running next =>
              rw [hstep] at hshifts
              obtain ⟨hsteady, hvisits⟩ := ih (hcounted.step hstep)
              refine ⟨List.forall_mem_cons.2 ⟨hcounted, hsteady⟩, ?_⟩
              refine List.forall_mem_cons.2 ⟨hstay _, List.forall_mem_cons.2 ⟨hstay' _, ?_⟩⟩
              exact fun y hy => ⟨(hvisits y hy).1, hlast hshifts _ (hvisits y hy).2⟩
          | finished last | faulted _ last =>
              rw [hstep] at hshifts
              refine ⟨List.forall_mem_singleton.2 hcounted, ?_⟩
              refine List.forall_mem_cons.2 ⟨hstay _, List.forall_mem_cons.2 ⟨hstay' _, ?_⟩⟩
              refine List.forall_mem_singleton.2 ⟨?_, hlast hshifts [] (Nat.le_add_right _ _)⟩
              exact hcounted.bounded_shifts hfetch hshifts

/-- A run starts with an empty return stack. -/
theorem returns_enter (m : Machine) (callee : Value) (args : List Value) :
    (m.enter callee args).After fun last =>
      last.regs.returns.items = [] ∧ last.regs.extra = 0 := by
  have hpush (vs : List Value) (x : Machine)
      (hx : x.regs.returns.items = [] ∧ x.regs.extra = 0) :
      (x.pushArgs vs).After fun last =>
        last.regs.returns.items = [] ∧ last.regs.extra = 0 := by
    induction vs generalizing x with
    | nil => exact hx
    | cons v rest ih =>
        rw [pushArgs, pushArg]
        split
        · exact hx
        · exact ih _ hx
  rw [enter]
  refine (hpush _ _ ⟨rfl, rfl⟩).andThen fun next hnext => ?_
  refine (returns_jump next callee).imp fun last hlast => ?_
  rw [hlast.1, hlast.2]
  exact hnext

end Machine

end Zinc
