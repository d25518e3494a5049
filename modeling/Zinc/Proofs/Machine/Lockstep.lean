import Zinc.Proofs.Machine.Abreast
import Zinc.Proofs.Machine.Advance

/-!
Instructions on two machines in step.  As long as the second machine does not run out of
arguments, an instruction does the same on both, unless a stack is full.  It runs out of
them at a function that waits for one more, or at a return; there its run is over, while
the first machine goes on with the arguments that it has left.
-/

namespace Zinc.Machine

open Heap (Mirror)

/-- Two steps of machines that were in step: they are still in step, both are over, or
one of them was cut off. -/
inductive Lockstep (rest : List Value) : Progress → Progress → Prop where
  | running {x y : Machine} : Abreast rest x y → Lockstep rest (.running x) (.running y)
  | finished {x y : Machine} : rest = [] →
      Mirror x.heap y.heap x.regs.acc y.regs.acc →
      Lockstep rest (.finished x) (.finished y)
  | faulted {f f' : Fault} {x y : Machine} :
      Lockstep rest (.faulted f x) (.faulted f' y)
  | cutLeft {f : Fault} {x : Machine} {q : Progress} :
      f.kind = .capacity → Lockstep rest (.faulted f x) q
  | cutRight {f : Fault} {y : Machine} {p : Progress} :
      f.kind = .capacity → Lockstep rest p (.faulted f y)

variable {rest : List Value} {x y : Machine} {front front' locals locals' : List Value}
  {below below' : List ReturnEntry}

theorem lockstep_fail (kind : FaultKind) (cause : Cause) (detail detail' : Option String) :
    Lockstep rest (x.fail kind cause detail) (y.fail kind cause detail') :=
  .faulted

theorem Abreast.pushArg (h : Aligned rest x y front front' locals locals' below below')
    (hscope : Scope x.heap y.heap locals x.regs.env locals' y.regs.env) {v v' : Value}
    (hv : Mirror x.heap y.heap v v') : Lockstep rest (x.pushArg v) (y.pushArg v') := by
  rw [Machine.pushArg, Machine.pushArg]
  split
  · exact .cutLeft rfl
  · split
    · exact .cutRight rfl
    · refine .running (.intro (?_ : Aligned rest _ _ (v :: front) (v' :: front') locals
        locals' below below') hscope)
      exact { h with
        args := by simp [h.args]
        args' := by simp [h.args']
        front := .cons hv h.front }

theorem lockstep_pushReturn {e e' : ReturnEntry} {k k' : Machine → Progress}
    (hk : ∀ usage usage', Lockstep rest
      (k { x with
        regs := { x.regs with returns := x.regs.returns.push e }, usage := usage })
      (k' { y with
        regs := { y.regs with returns := y.regs.returns.push e' }, usage := usage' })) :
    Lockstep rest ((x.pushReturn e).andThen k) ((y.pushReturn e').andThen k') := by
  rw [pushReturn, pushReturn]
  split
  · exact .cutLeft rfl
  · split
    · exact .cutRight rfl
    · exact hk _ _

/-- Binding corresponding values. -/
theorem Abreast.bind (h : Aligned rest x y front front' locals locals' below below')
    (hscope : Scope x.heap y.heap locals x.regs.env locals' y.regs.env) {v v' : Value}
    (hv : Mirror x.heap y.heap v v') :
    Lockstep rest
      ((x.pushReturn (.value v)).andThen fun m =>
        .running { m with regs := { m.regs with extra := m.regs.extra + 1 } })
      ((y.pushReturn (.value v')).andThen fun m =>
        .running { m with regs := { m.regs with extra := m.regs.extra + 1 } }) := by
  refine lockstep_pushReturn fun usage usage' => .running ?_
  refine .intro (?_ : Aligned rest _ _ front front' (v :: locals) (v' :: locals') below
    below') (.shared hv hscope)
  exact { h with
    returns := by simp [h.returns]
    returns' := by simp [h.returns']
    extra := by simp [h.extra]
    extra' := by simp [h.extra'] }

theorem drop_locals (locals : List Value) (below : List ReturnEntry) :
    (locals.map ReturnEntry.value ++ below).drop locals.length = below := by
  rw [← List.length_map (f := ReturnEntry.value), List.drop_left]

theorem Aligned.dropExtras
    (h : Aligned rest x y front front' locals locals' below below') :
    Aligned rest x.dropExtras y.dropExtras front front' [] [] below below' :=
  { h with
    returns := by
      change x.regs.returns.items.drop x.regs.extra = below
      rw [h.returns, h.extra, drop_locals]
    returns' := by
      change y.regs.returns.items.drop y.regs.extra = below'
      rw [h.returns', h.extra', drop_locals]
    extra := rfl
    extra' := rfl }

/-- Entering corresponding closures. -/
theorem Aligned.jump (h : Aligned rest x y front front' [] [] below below')
    {callee callee' : Value} (hcallee : Mirror x.heap y.heap callee callee') :
    Lockstep rest (x.jump callee) (y.jump callee') := by
  rcases x.jump_cases callee with ⟨a, rfl, hsize, heq⟩ | ⟨hnot, heq⟩
  · obtain ⟨a', rfl⟩ := hcallee.exists_ref
    rcases y.jump_cases (.ref .closure a') with ⟨b, hb, _, heq'⟩ | ⟨hnot, _⟩
    · cases hb
      rw [heq, heq']
      refine .running (.intro (?_ : Aligned rest _ _ front front' [] [] below below')
        (.env (hcallee.field 0)))
      exact { h with pc := (hcallee.field 1).asOffset }
    · exact absurd (hcallee.size_fields.trans hsize) (hnot a' rfl)
  · rw [heq]
    rcases y.jump_cases callee' with ⟨a', rfl, hsize', _⟩ | ⟨_, heq'⟩
    · obtain ⟨a, rfl⟩ := hcallee.exists_ref_of_ref
      exact absurd (hcallee.size_fields.symm.trans hsize') (hnot a rfl)
    · rw [heq']
      exact lockstep_fail _ _ _ _

theorem loadClosure_eq {m : Machine} (hreturns : m.regs.returns.items =
    locals.map .value ++ below) (hextra : m.regs.extra = locals.length) (offset : Int) :
    m.loadClosure offset =
      { m with
        heap := (closureOf m.heap m.regs.env locals offset).2
        regs := { m.regs with acc := (closureOf m.heap m.regs.env locals offset).1 } } := by
  have htake : m.regs.returns.items.take m.regs.extra =
      locals.map ReturnEntry.value := by
    rw [hreturns, hextra, ← List.length_map (f := ReturnEntry.value), List.take_left]
  rw [loadClosure, captureEnv, htake]
  rfl

theorem grows_closureOf (heap : Heap) (env : Value) (locals : List Value)
    (offset : Int) : heap.Grows (closureOf heap env locals offset).2 :=
  .alloc _ _ (grows_capture heap env locals)

/-- Closures over the same locals correspond. -/
theorem mirror_closureOf {h h' : Heap} {env env' : Value}
    (hscope : Scope h h' locals env locals' env') (offset : Int) :
    Mirror (closureOf h env locals offset).2 (closureOf h' env' locals' offset).2
      (closureOf h env locals offset).1 (closureOf h' env' locals' offset).1 :=
  .alloc .closure (.cons hscope.capture (.cons (.same rfl) .nil))

/-- The closure that the second call builds holds its code, and the same locals in its
environment. -/
theorem scope_closureOf {h h' : Heap} {env env' : Value}
    (hscope : Scope h h' locals env locals' env') (offset : Int) :
    ∃ a, (closureOf h' env' locals' offset).1 = .ref .closure a ∧
      ((closureOf h' env' locals' offset).2.fields a).size = 2 ∧
      ((closureOf h' env' locals' offset).2.field a 1).asOffset = offset ∧
      Scope h (closureOf h' env' locals' offset).2 locals env []
        ((closureOf h' env' locals' offset).2.field a 0) := by
  obtain ⟨a, hclosure, hfields⟩ : ∃ a,
      (closureOf h' env' locals' offset).1 = .ref .closure a ∧
      (closureOf h' env' locals' offset).2.fields a =
        #[((locals'.map ReturnEntry.value).foldr consEnv (env', h')).1, .code offset] :=
    ⟨_, rfl, Heap.fields_alloc_self _ _ _⟩
  refine ⟨a, hclosure, ?_, ?_, ?_⟩
  · rw [hfields]
    rfl
  · rw [Heap.field, hfields]
    rfl
  · rw [Heap.field, hfields]
    exact hscope.enclose.grow (.refl h) (.alloc _ _ (.refl _))

/-- Both machines load a closure over their locals. -/
theorem Aligned.loadClosure
    (h : Aligned rest x y front front' locals locals' below below')
    (hscope : Scope x.heap y.heap locals x.regs.env locals' y.regs.env) (offset : Int) :
    Aligned rest (x.loadClosure offset) (y.loadClosure offset) front front' locals
        locals' below below' ∧
      Scope (x.loadClosure offset).heap (y.loadClosure offset).heap locals
        (x.loadClosure offset).regs.env locals' (y.loadClosure offset).regs.env ∧
      Mirror (x.loadClosure offset).heap (y.loadClosure offset).heap
        (x.loadClosure offset).regs.acc (y.loadClosure offset).regs.acc := by
  rw [loadClosure_eq h.returns h.extra, loadClosure_eq h.returns' h.extra']
  have hgrows := grows_closureOf x.heap x.regs.env locals offset
  have hgrows' := grows_closureOf y.heap y.regs.env locals' offset
  have hclosure := mirror_closureOf hscope offset
  have hgrown := h.keep (.grow h.tidy hgrows) (.grow h.tidy' hgrows')
  exact ⟨{ hgrown with acc := Or.inr hclosure }, hscope.grow hgrows hgrows', hclosure⟩

theorem leave_of_nil {m : Machine} (hbelow : m.regs.returns.items.drop m.regs.extra = []) :
    m.leave = .finished { m with regs := { m.regs with
      args := m.regs.args.drop 1
      returns := m.regs.returns.drop m.regs.extra, extra := 0 } } := by
  unfold leave Machine.dropExtras
  dsimp only [Stack.top?, Stack.items_drop]
  rw [hbelow]
  rfl

theorem leave_of_frame {m : Machine} {pc : Int} {env : Value} {extra : Nat}
    {below : List ReturnEntry}
    (hbelow : m.regs.returns.items.drop m.regs.extra = .frame pc env extra :: below) :
    m.leave = .running { m with regs := { m.regs with
      args := m.regs.args.drop 1
      returns := (m.regs.returns.drop m.regs.extra).drop 1
      pc := pc, env := env, extra := extra } } := by
  unfold leave Machine.dropExtras
  dsimp only [Stack.top?, Stack.items_drop]
  rw [hbelow]
  rfl

/-- The outermost calls end together. -/
theorem Aligned.leave_nil (h : Aligned [] x y front front' locals locals' [] [])
    (hacc : Mirror x.heap y.heap x.regs.acc y.regs.acc) : Lockstep [] x.leave y.leave := by
  rw [leave_of_nil h.dropExtras.returns, leave_of_nil h.dropExtras.returns']
  exact .finished rfl hacc

/-- The callers go on together. -/
theorem Aligned.leave_call
    (h : Aligned rest x y (.mark :: front) (.mark :: front') locals locals' below below')
    (hacc : Mirror x.heap y.heap x.regs.acc y.regs.acc) (hcalled : below' ≠ []) :
    Lockstep rest x.leave y.leave := by
  have hdropped := h.dropExtras.returns
  have hdropped' := h.dropExtras.returns'
  have hbelow := h.below
  cases hbelow with
  | bottom => exact absurd rfl hcalled
  | @call pc env env' locals locals' below below' hscope hrest =>
      have hdrop : x.regs.returns.items.drop x.regs.extra =
          .frame pc env locals.length :: (locals.map .value ++ below) := hdropped
      have hdrop' : y.regs.returns.items.drop y.regs.extra =
          .frame pc env' locals'.length :: (locals'.map .value ++ below') := hdropped'
      rw [leave_of_frame hdrop, leave_of_frame hdrop']
      refine .running (.intro (?_ : Aligned rest _ _ front front' locals locals' below
        below') hscope)
      have hfront := h.front
      cases hfront with
      | cons _ hfront =>
          exact { h with
            pc := rfl
            acc := Or.inr hacc
            args := by simp [h.args]
            args' := by simp [h.args']
            front := hfront
            returns := by simp [hdrop]
            returns' := by simp [hdrop']
            extra := rfl
            extra' := rfl
            below := hrest }

/-- Both machines build a tuple of what they have pushed. -/
theorem Abreast.makeTuple
    (h : Aligned rest x y front front' locals locals' below below')
    (hscope : Scope x.heap y.heap locals x.regs.env locals' y.regs.env) {n : Nat}
    (hpushed : n < y.regs.args.items.length) :
    Lockstep rest (x.makeTuple n) (y.makeTuple n) := by
  have hlength := h.front.length_eq
  have hn' : n ≤ front'.length := by
    rw [h.args', List.length_append, List.length_singleton] at hpushed
    omega
  have hn : n ≤ front.length := by omega
  have htake : x.regs.args.items.take n = front.take n := by
    rw [h.args, List.append_assoc, List.take_append_of_le_length hn]
  have htake' : y.regs.args.items.take n = front'.take n := by
    rw [h.args', List.take_append_of_le_length hn']
  have hdepth : ¬ x.regs.args.depth < n := by
    rw [x.regs.args.depth_eq, h.args]
    simp only [List.length_append]
    omega
  have hdepth' : ¬ y.regs.args.depth < n := by
    rw [y.regs.args.depth_eq]
    omega
  have hfields : List.Forall₂ (Mirror x.heap y.heap) (front.take n).reverse
      (front'.take n).reverse :=
    List.forall₂_reverse_iff.2 (List.forall₂_take n h.front)
  have hgrows : x.heap.Grows (x.heap.alloc .tuple (front.take n).reverse.toArray).2 :=
    .alloc _ _ (.refl _)
  have hgrows' : y.heap.Grows (y.heap.alloc .tuple (front'.take n).reverse.toArray).2 :=
    .alloc _ _ (.refl _)
  have hgrown := h.keep (.grow h.tidy hgrows) (.grow h.tidy' hgrows')
  unfold Machine.makeTuple
  dsimp only
  rw [if_neg hdepth, if_neg hdepth', popFields_of_deep hdepth, popFields_of_deep hdepth',
    htake, htake']
  refine .running (.intro (?_ : Aligned rest _ _ (front.drop n) (front'.drop n) locals
    locals' below below') (hscope.grow hgrows hgrows'))
  exact { hgrown with
    acc := Or.inr (.alloc .tuple hfields)
    args := by
      change x.regs.args.items.drop n = _
      rw [h.args, List.append_assoc, List.drop_append_of_le_length hn,
        List.append_assoc]
    args' := by
      change y.regs.args.items.drop n = _
      rw [h.args', List.drop_append_of_le_length hn']
    front := List.forall₂_drop n hgrown.front }

/-- A machine that has run out of arguments has no calls below, and the arguments of the
other one are those that it has left. -/
theorem Aligned.exhausted
    (h : Aligned rest x y front front' locals locals' below below') (htopped : y.Topped)
    (hargs : y.regs.args.items = [.mark]) :
    front = [] ∧ front' = [] ∧ below = [] ∧ below' = [] := by
  have hnone : front' = [] := by
    have hlength := congrArg List.length (h.args'.symm.trans hargs)
    simpa using hlength
  obtain ⟨u, args, hitems, hkind⟩ := htopped
  rw [hargs] at hitems
  cases hitems
  have hdropped : y.regs.returns.items.drop y.regs.extra = below' := h.dropExtras.returns'
  rw [hdropped] at hkind
  have hbelow := h.below
  subst hnone
  have hfront := h.front
  cases hfront with
  | nil =>
      rcases hkind with hmark | ⟨_, hlast⟩
      · cases hmark
      · obtain rfl := hlast.1 rfl
        cases hbelow with
        | bottom => exact ⟨rfl, rfl, rfl, rfl⟩

/-- What both machines find on top of their arguments: an argument, the mark of a call
that has been made since, or the last mark with nothing more to come. -/
theorem Aligned.top_cases
    (h : Aligned rest x y front front' locals locals' below below') (htopped : y.Topped)
    (hmore : rest = [] ∨ y.regs.args.items ≠ [.mark]) :
    (∃ v v' top top', front = v :: top ∧ front' = v' :: top' ∧
      Mirror x.heap y.heap v v' ∧ v.isMark = false ∧ v'.isMark = false) ∨
    (∃ top top', front = .mark :: top ∧ front' = .mark :: top' ∧ below' ≠ []) ∨
    rest = [] ∧ front = [] ∧ front' = [] ∧ below = [] ∧ below' = [] := by
  have hargs := h.args'
  have hfront := h.front
  cases hfront with
  | nil =>
      obtain ⟨_, _, hbelow, hbelow'⟩ := h.exhausted htopped hargs
      exact Or.inr (Or.inr ⟨hmore.resolve_right (· hargs), rfl, rfl, hbelow, hbelow'⟩)
  | @cons v v' top top' hv _ =>
      obtain ⟨u, args, hitems, hkind⟩ := htopped
      have hdropped : y.regs.returns.items.drop y.regs.extra = below' :=
        h.dropExtras.returns'
      rw [hitems, List.cons_append] at hargs
      cases hargs
      rw [hdropped] at hkind
      rcases hkind with hmark | ⟨rfl, hlast⟩
      · exact Or.inl ⟨v, v', top, top', rfl, rfl, hv, by rw [← hv.isMark, hmark], hmark⟩
      · refine Or.inr (Or.inl ⟨top, top', ?_, rfl, fun hnone => ?_⟩)
        · cases hv with
          | same _ => rfl
        · have hnil := hlast.2 hnone
          simp at hnil

/-- A function takes its next argument on both machines, or is the result on both. -/
theorem lockstep_grab (h : Aligned rest x y front front' locals locals' below below')
    (hscope : Scope x.heap y.heap locals x.regs.env locals' y.regs.env)
    (hstarted : y.started.offset = x.started.offset) (htopped : y.Topped)
    (hmore : rest = [] ∨ y.regs.args.items ≠ [.mark]) :
    Lockstep rest (x.execute .grab) (y.execute .grab) := by
  obtain ⟨hloaded, _, hclosure⟩ := h.loadClosure hscope x.started.offset
  unfold execute
  rw [hstarted]
  dsimp only [Stack.top?]
  rw [h.args, h.args']
  rcases h.top_cases htopped hmore with
    ⟨v, v', top, top', rfl, rfl, hv, hmark, hmark'⟩ | ⟨top, top', rfl, rfl, hcalled⟩ |
    ⟨rfl, rfl, rfl, rfl, rfl⟩
  · dsimp only [List.cons_append, List.head?_cons]
    rw [if_neg (by simp [hmark]), if_neg (by simp [hmark'])]
    have hfront := h.front
    cases hfront with
    | cons _ hfront =>
        have htaken : Aligned rest
            { x with regs := { x.regs with args := x.regs.args.drop 1 } }
            { y with regs := { y.regs with args := y.regs.args.drop 1 } } top top' locals
            locals' below below' :=
          { h with
            args := by simp [h.args]
            args' := by simp [h.args']
            front := hfront }
        exact Abreast.bind htaken hscope hv
  · exact hloaded.leave_call hclosure hcalled
  · exact hloaded.leave_nil hclosure

/-- A result is called with the arguments left on both machines, or the call ends on
both. -/
theorem lockstep_ret (h : Aligned rest x y front front' locals locals' below below')
    (hacc : y.regs.acc ≠ .undefined) (htopped : y.Topped)
    (hmore : rest = [] ∨ y.regs.args.items ≠ [.mark]) :
    Lockstep rest (x.execute .ret) (y.execute .ret) := by
  have hmirror := h.acc.resolve_left hacc
  unfold execute
  dsimp only [Stack.top?]
  rw [h.args, h.args']
  rcases h.top_cases htopped hmore with
    ⟨v, v', top, top', rfl, rfl, hv, hmark, hmark'⟩ | ⟨top, top', rfl, rfl, hcalled⟩ |
    ⟨rfl, rfl, rfl, rfl, rfl⟩
  · dsimp only [List.cons_append, List.head?_cons]
    rw [if_neg (by simp [hmark]), if_neg (by simp [hmark'])]
    exact h.dropExtras.jump hmirror
  · exact h.leave_call hmirror hcalled
  · exact h.leave_nil hmirror

/-- An instruction does the same on both machines, unless the second has no argument left
where the first has one. -/
theorem lockstep_execute (h : Aligned rest x y front front' locals locals' below below')
    (hscope : Scope x.heap y.heap locals x.regs.env locals' y.regs.env)
    (hstarted : y.started.offset = x.started.offset) {i : Instr} (hshaped : y.Shaped i)
    (hmore : rest = [] ∨ y.regs.args.items ≠ [.mark] ∨ i ≠ .grab ∧ i ≠ .ret) :
    Lockstep rest (x.execute i) (y.execute i) := by
  have load {v v' : Value} (hv : Mirror x.heap y.heap v v') : Lockstep rest
      (.running { x with regs := { x.regs with acc := v } })
      (.running { y with regs := { y.regs with acc := v' } }) := by
    refine .running (.intro (?_ : Aligned rest _ _ front front' locals locals' below
      below') hscope)
    exact { h with acc := Or.inr hv }
  cases i with
  | int64 value => exact load (.same rfl)
  | push => exact Abreast.pushArg h hscope (h.acc.resolve_left hshaped)
  | pushMark => exact Abreast.pushArg h hscope (.same rfl)
  | access index =>
      have hlocal := hscope.lookup index.toNat
      rw [← local?_eq_lookup h.returns h.extra,
        ← local?_eq_lookup h.returns' h.extra'] at hlocal
      unfold execute
      dsimp only
      generalize x.local? index.toNat = found at hlocal
      generalize y.local? index.toNat = found' at hlocal
      cases hlocal with
      | none => exact lockstep_fail _ _ _ _
      | some hv => exact load hv
  | closure length =>
      have hsize : y.code.size = x.code.size := by rw [h.code]
      unfold execute
      dsimp only
      rw [hsize, h.pc]
      split
      · exact lockstep_fail _ _ _ _
      · have hskipped : Aligned rest
            { x with regs := { x.regs with pc := x.regs.pc + length.toNat } }
            { y with regs := { y.regs with pc := x.regs.pc + length.toNat } }
            front front' locals locals' below below' := { h with pc := rfl }
        obtain ⟨hloaded, hscope', _⟩ := hskipped.loadClosure hscope x.regs.pc
        exact .running (.intro hloaded hscope')
  | apply =>
      unfold execute
      rw [h.pc]
      refine lockstep_pushReturn fun usage usage' => ?_
      have hcalled : Aligned rest
          { x with
            usage := usage
            regs := { x.regs with
              extra := 0
              returns := x.regs.returns.push
                (.frame x.regs.pc x.regs.env x.regs.extra) } }
          { y with
            usage := usage'
            regs := { y.regs with
              extra := 0
              returns := y.regs.returns.push
                (.frame x.regs.pc y.regs.env y.regs.extra) } }
          front front' [] []
          (.frame x.regs.pc x.regs.env locals.length :: (locals.map .value ++ below))
          (.frame x.regs.pc y.regs.env locals'.length ::
            (locals'.map .value ++ below')) :=
        { h with
          returns := by simp [h.returns, h.extra]
          returns' := by simp [h.returns', h.extra']
          extra := rfl
          extra' := rfl
          below := .call hscope h.below }
      exact hcalled.jump (h.acc.resolve_left hshaped)
  | appTerm => exact h.dropExtras.jump (h.acc.resolve_left hshaped)
  | grab =>
      exact lockstep_grab h hscope hstarted hshaped
        (hmore.imp_right fun hmore => hmore.resolve_right fun hnot => hnot.1 rfl)
  | ret =>
      exact lockstep_ret h hshaped.1 hshaped.2
        (hmore.imp_right fun hmore => hmore.resolve_right fun hnot => hnot.2 rfl)
  | makeBlock n => exact Abreast.makeTuple h hscope hshaped
  | bind => exact Abreast.bind h hscope (h.acc.resolve_left hshaped)
  | unbind =>
      have hpos : 0 < y.regs.extra := hshaped
      have hle := hscope.length_le
      have hextra := h.extra
      have hextra' := h.extra'
      unfold execute
      rw [if_neg (by omega), if_neg (by omega)]
      cases locals' with
      | nil => exact absurd hextra' (Nat.ne_of_gt hpos)
      | cons v' locals' =>
          obtain ⟨v, locals, rfl, hinner⟩ := hscope.unbind
          refine .running (.intro (?_ : Aligned rest _ _ front front' locals locals' below
            below') hinner)
          exact { h with
            returns := by simp [h.returns]
            returns' := by simp [h.returns']
            extra := by simp [h.extra]
            extra' := by simp [h.extra'] }
  | setGlobal slot =>
      have hset := h.globals.set (h.acc.resolve_left hshaped) slot.toNat
      unfold execute
      dsimp only
      generalize x.globals.set? slot.toNat x.regs.acc = r at hset
      generalize y.globals.set? slot.toNat y.regs.acc = r' at hset
      cases hset with
      | none => exact lockstep_fail _ _ _ _
      | some hglobals =>
          refine .running (.intro (?_ : Aligned rest _ _ front front' locals locals' below
            below') hscope)
          exact { h with globals := hglobals }
  | getGlobal slot =>
      unfold execute
      dsimp only
      cases hentry : x.globals.entries[slot.toNat]? with
      | none =>
          have hnone : y.globals.entries[slot.toNat]? = none := by
            rw [Array.getElem?_eq_none_iff] at hentry ⊢
            rwa [show y.globals.entries.size = _ from h.globals.size]
          rw [hnone]
          exact lockstep_fail _ _ _ _
      | some g =>
          obtain ⟨g', hentry', hdefined, hvalue⟩ := h.globals.entry _ g hentry
          rw [hentry']
          dsimp only
          rw [hdefined]
          split
          · exact load hvalue
          · exact lockstep_fail _ _ _ _

theorem Aligned.fetched (h : Aligned rest x y front front' locals locals' below below')
    (i : Instr) :
    Aligned rest (x.fetched i) (y.fetched i) front front' locals locals' below below' :=
  { h with pc := congrArg (· + (i.size : Int)) h.pc }

/-- The second machine has run out of arguments, at an instruction that asks for one. -/
def Exhausted (m : Machine) : Prop :=
  m.regs.args.items = [.mark] ∧
    (m.code.fetch m.regs.pc = .instr .grab ∨ m.code.fetch m.regs.pc = .instr .ret)

/-- Machines in step take the same step, unless the second one has run out of
arguments. -/
theorem Abreast.step (h : Abreast rest x y) (hgoing : y.Going)
    (hmore : rest = [] ∨ ¬ y.Exhausted) : Lockstep rest x.step y.step := by
  obtain ⟨h, hscope⟩ := h
  have hsame : y.code.fetch y.regs.pc = x.code.fetch x.regs.pc := by rw [h.code, h.pc]
  cases hfetch : x.code.fetch x.regs.pc with
  | instr i =>
      rw [hfetch] at hsame
      rw [step_of_fetch hfetch, step_of_fetch hsame]
      refine lockstep_execute (h.fetched i) hscope h.pc (hgoing.shaped hsame) ?_
      refine hmore.imp_right fun hnot => ?_
      by_cases hargs : y.regs.args.items = [.mark]
      · refine Or.inr ⟨?_, ?_⟩
        · rintro rfl
          exact hnot ⟨hargs, Or.inl hsame⟩
        · rintro rfl
          exact hnot ⟨hargs, Or.inr hsame⟩
      · exact Or.inl hargs
  | outside | unknown b | cut op =>
      rw [hfetch] at hsame
      rw [step_eq, step_eq, hfetch, hsame]
      exact lockstep_fail _ _ _ _

/-- The machine at the start of a call of the closure at `a`. -/
def entering (m : Machine) (a : Nat) (args : List Value) : Machine :=
  { m with regs := {
      pc := (m.heap.field a 1).asOffset
      env := m.heap.field a 0
      args := .of (args ++ [.mark]) } }

/-- The first machine is where the second will be once the closure `v`, the result of
its run, is applied to the arguments that the first has left. -/
def Parted (rest : List Value) (x : Machine) (v : Value) (last : Machine) : Prop :=
  ∃ a, v = .ref .closure a ∧ (last.heap.fields a).size = 2 ∧
    Abreast [] x (last.entering a rest)

/-- Where the arguments of the second machine end, those that the first has left are the
first ones of the next call. -/
theorem Aligned.entering (h : Aligned rest x y [] [] locals locals' [] []) {last : Machine}
    {a : Nat} (hcode : last.code = y.code) (hglobals : last.globals = y.globals)
    (hgrows : y.heap.Grows last.heap) (hpc : (last.heap.field a 1).asOffset = x.regs.pc)
    (hscope : Scope x.heap last.heap locals x.regs.env [] (last.heap.field a 0)) :
    Abreast [] x (last.entering a rest) := by
  have hgrown := h.keep (.grow h.tidy (.refl x.heap)) (.grow h.tidy' hgrows)
  refine .intro (?_ : Aligned [] x (last.entering a rest) rest rest locals [] [] []) hscope
  exact
    { code := hcode.trans h.code
      pc := hpc
      acc := Or.inl rfl
      args := by simpa using h.args
      args' := rfl
      front := List.forall₂_same.2 fun v hv => (hgrown.held v hv).2
      returns := h.returns
      returns' := rfl
      extra := h.extra
      extra' := rfl
      below := .bottom
      globals := by
        change x.globals.Mirrors x.heap last.heap last.globals
        rw [hglobals]
        exact hgrown.globals
      held := fun v hv => absurd hv List.not_mem_nil
      tidy := h.tidy
      tidy' := hgrown.tidy' }

/-- A function that waits for an argument in vain is the result of the second run; the
first machine goes on as that function does when it gets the arguments left. -/
theorem Abreast.parts_grab (h : Abreast rest x y) (hgoing : y.Going)
    (hargs : y.regs.args.items = [.mark])
    (hfetch : y.code.fetch y.regs.pc = .instr .grab) :
    ∃ last, y.step = .finished last ∧ Parted rest x last.regs.acc last := by
  obtain ⟨h, hscope⟩ := h
  obtain ⟨rfl, rfl, rfl, rfl⟩ := h.exhausted (hgoing.shaped hfetch) hargs
  have hf := h.fetched .grab
  have htop : (y.fetched .grab).regs.args.top? = some .mark :=
    congrArg List.head? hargs
  have hdrop : ((y.fetched .grab).loadClosure y.regs.pc).regs.returns.items.drop
      ((y.fetched .grab).loadClosure y.regs.pc).regs.extra = [] := by
    rw [loadClosure_eq hf.returns' hf.extra']
    exact h.dropExtras.returns'
  have hstep : y.step = ((y.fetched .grab).loadClosure y.regs.pc).leave := by
    rw [step_of_fetch hfetch]
    unfold execute
    rw [htop]
    rfl
  rw [hstep, leave_of_nil hdrop, loadClosure_eq hf.returns' hf.extra']
  obtain ⟨a, hclosure, hsize, hpc, hinner⟩ := scope_closureOf hscope y.regs.pc
  exact ⟨_, rfl, a, hclosure, hsize,
    h.entering rfl rfl (grows_closureOf _ _ _ _) (hpc.trans h.pc) hinner⟩

/-- A result that is not called in the second run is called with the arguments left in
the first one; if it is not a closure, the first run ends there. -/
theorem Abreast.parts_ret (h : Abreast rest x y) (hgoing : y.Going) (hrest : rest ≠ [])
    (hargs : y.regs.args.items = [.mark])
    (hfetch : y.code.fetch y.regs.pc = .instr .ret) :
    ∃ last, y.step = .finished last ∧
      ((∃ next, x.step = .running next ∧ Parted rest next last.regs.acc last) ∨
        (∃ f next, x.step = .faulted f next) ∧ last.regs.acc.kind ≠ .closure) := by
  obtain ⟨h, hscope⟩ := h
  obtain ⟨hacc, htopped⟩ := hgoing.shaped hfetch
  obtain ⟨rfl, rfl, rfl, rfl⟩ := h.exhausted htopped hargs
  have hf := h.fetched .ret
  have hmirror := h.acc.resolve_left hacc
  have htop : (y.fetched .ret).regs.args.top? = some .mark := congrArg List.head? hargs
  have hstep : y.step = (y.fetched .ret).leave := by
    rw [step_of_fetch hfetch]
    unfold execute
    rw [htop]
    rfl
  -- the first machine has an argument on top, which is no mark
  have hcalled : x.step = (x.fetched .ret).dropExtras.jump x.regs.acc := by
    have hsame : x.code.fetch x.regs.pc = .instr .ret := by rwa [← h.code, ← h.pc]
    obtain ⟨v, more, rfl⟩ := List.exists_cons_of_ne_nil hrest
    have hv := (hgoing.sound.handles v (h.held v List.mem_cons_self).1).isMark
    have htop : (x.fetched .ret).regs.args.top? = some v := by
      change x.regs.args.items.head? = some v
      rw [h.args]
      rfl
    rw [step_of_fetch hsame]
    unfold execute
    rw [htop]
    dsimp only
    rw [if_neg (by simp [hv])]
    rfl
  have hfine := fine_step hgoing.sound hgoing.running
  rw [hstep, leave_of_nil hf.dropExtras.returns'] at hfine ⊢
  refine ⟨_, rfl, ?_⟩
  rw [hcalled]
  rcases (x.fetched .ret).dropExtras.jump_cases x.regs.acc with
    ⟨a, ha, hsize, heq⟩ | ⟨hnot, heq⟩
  · rw [ha] at hmirror
    rw [heq]
    obtain ⟨a', ha'⟩ := hmirror.exists_ref
    rw [ha'] at hmirror
    refine Or.inl ⟨_, rfl, a', ha', hmirror.size_fields.trans hsize, ?_⟩
    have hentered : Aligned rest
        { (x.fetched .ret).dropExtras with
          regs := { (x.fetched .ret).dropExtras.regs with
            env := x.heap.field a 0, pc := (x.heap.field a 1).asOffset } }
        { (y.fetched .ret).dropExtras with
          regs := { (y.fetched .ret).dropExtras.regs with
            pc := (x.heap.field a 1).asOffset } }
        [] [] [] [] [] [] := { hf.dropExtras with pc := rfl }
    exact hentered.entering rfl rfl (.refl _) (hmirror.field 1).asOffset
      (.env (hmirror.field 0))
  · rw [heq]
    refine Or.inr ⟨⟨_, _, rfl⟩, fun hkind => ?_⟩
    -- a closure in order has two fields, so the jump would have gone well
    have htyped : Typed y.world .data y.regs.acc := hfine.2
    obtain ⟨a', ha', hsize⟩ := htyped.exists_closure hkind
    rw [ha'] at hmirror
    obtain ⟨a, ha⟩ := hmirror.exists_ref_of_ref
    rw [ha] at hmirror
    exact hnot a ha (hmirror.size_fields.symm.trans hsize)

end Zinc.Machine
