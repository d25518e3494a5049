import Zinc.Machine.Step
import Zinc.Proofs.Heap.Mirror

/-!
Locals in two places.  A local of a call is on the return stack or in the environment,
and a closure that is built moves all of them into the environment.  Two calls with the
same locals may therefore hold them differently: what one of them still has on the
stack, the other may have captured.  They find the same local under every index all the
same, and they capture the same environment.
-/

namespace Zinc

open Heap (Mirror)

/-- The same locals, of which the second call may have captured more. -/
inductive Scope (h h' : Heap) : List Value → Value → List Value → Value → Prop where
  | env {env env' : Value} : Mirror h h' env env' → Scope h h' [] env [] env'
  | shared {v v' env env' : Value} {locals locals' : List Value} :
      Mirror h h' v v' → Scope h h' locals env locals' env' →
      Scope h h' (v :: locals) env (v' :: locals') env'
  | captured {v v' env env' : Value} {locals : List Value} {a' : Nat} {c' : Cell} :
      h'.cells[a']? = some c' → c'.tag = .env → c'.fields = #[v', env'] →
      Mirror h h' v v' → Scope h h' locals env [] env' →
      Scope h h' (v :: locals) env [] (.ref .env a')

/-- The calls below the current one, with the same locals each. -/
inductive Below (h h' : Heap) : List ReturnEntry → List ReturnEntry → Prop where
  | bottom : Below h h' [] []
  | call {pc : Int} {env env' : Value} {locals locals' : List Value}
      {below below' : List ReturnEntry} :
      Scope h h' locals env locals' env' → Below h h' below below' →
      Below h h' (.frame pc env locals.length :: (locals.map .value ++ below))
        (.frame pc env' locals'.length :: (locals'.map .value ++ below'))

namespace Machine

/-- The local at an index: first those on the stack, then those in the environment. -/
def lookup (heap : Heap) (env : Value) : List Value → Nat → Option Value
  | [], i => chainAt heap env i
  | v :: _, 0 => some v
  | _ :: locals, i + 1 => lookup heap env locals i

theorem lookup_eq (heap : Heap) (env : Value) (locals : List Value)
    (below : List ReturnEntry) (i : Nat) :
    (if i < locals.length then
        (locals.map ReturnEntry.value ++ below)[i]?.map ReturnEntry.localValue
      else chainAt heap env (i - locals.length)) = lookup heap env locals i := by
  induction locals generalizing i with
  | nil => simp [lookup]
  | cons v locals ih =>
      cases i with
      | zero => simp [lookup, ReturnEntry.localValue]
      | succ i => simpa [lookup] using ih i

theorem local?_eq_lookup {m : Machine} {locals : List Value} {below : List ReturnEntry}
    (hreturns : m.regs.returns.items = locals.map .value ++ below)
    (hextra : m.regs.extra = locals.length) (i : Nat) :
    m.local? i = lookup m.heap m.regs.env locals i := by
  rw [local?, hreturns, hextra, lookup_eq]

end Machine

/-- Corresponding environments hold corresponding locals. -/
theorem Heap.Mirror.chainAt {h h' : Heap} {env env' : Value} (hm : Mirror h h' env env')
    (i : Nat) :
    Option.Rel (Mirror h h') (Machine.chainAt h env i) (Machine.chainAt h' env' i) := by
  induction i generalizing env env' with
  | zero =>
      cases hm with
      | same hnone =>
          rw [Machine.chainAt, Machine.chainAt, hnone]
          exact .none
      | ref _ _ _ _ hfields => exact .some (hfields 0)
  | succ i ih =>
      cases hm with
      | same hnone =>
          rw [Machine.chainAt, Machine.chainAt, hnone]
          exact .none
      | ref _ _ _ _ hfields => exact ih (hfields 1)

variable {h h' h₁ h₁' : Heap} {env env' : Value} {locals locals' : List Value}
  {below below' : List ReturnEntry}

namespace Scope

theorem length_le (hscope : Scope h h' locals env locals' env') :
    locals'.length ≤ locals.length := by
  induction hscope with
  | env _ => exact Nat.le_refl _
  | shared _ _ ih => exact Nat.succ_le_succ ih
  | captured _ _ _ _ _ _ => exact Nat.zero_le _

/-- A local that the second call has on the stack is there in the first call too. -/
theorem unbind {v' : Value} (hscope : Scope h h' locals env (v' :: locals') env') :
    ∃ v rest, locals = v :: rest ∧ Scope h h' rest env locals' env' := by
  cases hscope with
  | shared _ hscope => exact ⟨_, _, rfl, hscope⟩

theorem keep {roots roots' : List Value} (hscope : Scope h h' locals env locals' env')
    (hkeeps : Heap.Keeps roots h h₁) (hkeeps' : Heap.Keeps roots' h' h₁')
    (hin : ∀ v ∈ env :: locals, v.Within (h.Reach roots))
    (hin' : ∀ v ∈ env' :: locals', v.Within (h'.Reach roots')) :
    Scope h₁ h₁' locals env locals' env' := by
  induction hscope with
  | env henv =>
      exact .env (henv.keep hkeeps hkeeps' (hin _ List.mem_cons_self)
        (hin' _ List.mem_cons_self))
  | shared hv _ ih =>
      refine .shared (hv.keep hkeeps hkeeps' (hin _ (by simp)) (hin' _ (by simp))) ?_
      refine ih (fun u hu => hin u ?_) fun u hu => hin' u ?_
      · simp only [List.mem_cons] at hu ⊢
        exact hu.imp_right Or.inr
      · simp only [List.mem_cons] at hu ⊢
        exact hu.imp_right Or.inr
  | @captured v v' env env' locals a' c' hcell htag hfields hv _ ih =>
      have ha' := Value.within_ref.1 (hin' _ List.mem_cons_self)
      -- what the second call has captured is reached through its environment
      have hcaptured (u : Value) (hu : u ∈ c'.fields) : u.Within (h'.Reach roots') := by
        apply Heap.closed_reach h' roots' a' ha'
        rwa [Heap.fields_of_cell hcell]
      refine .captured (hkeeps' a' c' ha' hcell) htag hfields
        (hv.keep hkeeps hkeeps' (hin _ (by simp)) (hcaptured _ (by simp [hfields])))
        (ih (fun u hu => hin u ?_) fun u hu => ?_)
      · simp only [List.mem_cons] at hu ⊢
        exact hu.imp_right Or.inr
      · rw [List.mem_singleton.1 hu]
        exact hcaptured _ (by simp [hfields])

theorem grow (hscope : Scope h h' locals env locals' env') (hgrows : h.Grows h₁)
    (hgrows' : h'.Grows h₁') : Scope h₁ h₁' locals env locals' env' :=
  hscope.keep (hgrows.keeps _) (hgrows'.keeps _) (fun _ => Heap.within_reach)
    fun _ => Heap.within_reach

/-- Both calls find corresponding locals under every index. -/
theorem lookup (hscope : Scope h h' locals env locals' env') (i : Nat) :
    Option.Rel (Mirror h h') (Machine.lookup h env locals i)
      (Machine.lookup h' env' locals' i) := by
  induction hscope generalizing i with
  | env henv => exact henv.chainAt i
  | shared hv _ ih =>
      cases i with
      | zero => exact .some hv
      | succ i => exact ih i
  | @captured v v' env env' locals a' c' hcell htag hfields hv _ ih =>
      cases i with
      | zero =>
          have hfirst : h'.field a' 0 = v' := by
            simp [Heap.field, Heap.fields_of_cell hcell, hfields]
          change Option.Rel _ (some v) (some (h'.field a' 0))
          rw [hfirst]
          exact .some hv
      | succ i =>
          have hnext : h'.field a' 1 = env' := by
            simp [Heap.field, Heap.fields_of_cell hcell, hfields]
          change Option.Rel _ _ (Machine.chainAt h' (h'.field a' 1) i)
          rw [hnext]
          exact ih i

end Scope

namespace Machine

theorem grows_capture (heap : Heap) (env : Value) (locals : List Value) :
    heap.Grows ((locals.map ReturnEntry.value).foldr consEnv (env, heap)).2 := by
  induction locals with
  | nil => exact .refl _
  | cons v locals ih => exact .alloc _ _ ih

end Machine

/-- Both calls capture the same environment. -/
theorem Scope.capture (hscope : Scope h h' locals env locals' env') :
    Mirror ((locals.map ReturnEntry.value).foldr Machine.consEnv (env, h)).2
      ((locals'.map ReturnEntry.value).foldr Machine.consEnv (env', h')).2
      ((locals.map ReturnEntry.value).foldr Machine.consEnv (env, h)).1
      ((locals'.map ReturnEntry.value).foldr Machine.consEnv (env', h')).1 := by
  induction hscope with
  | env henv => exact henv
  | @shared v v' env env' locals locals' hv _ ih =>
      refine .alloc .env (.cons ?_ (.cons ih .nil))
      exact hv.grow (Machine.grows_capture h env locals)
        (Machine.grows_capture h' env' locals')
  | @captured v v' env env' locals a' c' hcell htag hfields hv _ ih =>
      refine .ofCells (Heap.cells_alloc_self _ _ _) hcell htag ?_
      rw [hfields]
      have hlast {u u' : Value} := fun hu : Mirror
          ((locals.map ReturnEntry.value).foldr Machine.consEnv (env, h)).2 h' u u' =>
        hu.grow (.alloc .env #[v, ((locals.map ReturnEntry.value).foldr Machine.consEnv
          (env, h)).1] (.refl _)) (.refl h')
      refine .cons (hlast ?_) (.cons (hlast ih) .nil)
      exact hv.grow (Machine.grows_capture h env locals) (.refl h')

/-- The second call alone captures all its locals. -/
theorem Scope.enclose (hscope : Scope h h' locals env locals' env') :
    Scope h ((locals'.map ReturnEntry.value).foldr Machine.consEnv (env', h')).2 locals
      env [] ((locals'.map ReturnEntry.value).foldr Machine.consEnv (env', h')).1 := by
  induction hscope with
  | env henv => exact .env henv
  | @shared v v' env env' locals locals' hv _ ih =>
      refine .captured (Heap.cells_alloc_self _ _ _) rfl rfl ?_
        (ih.grow (.refl h) (.alloc _ _ (.refl _)))
      exact hv.grow (.refl h) (.alloc _ _ (Machine.grows_capture h' env' locals'))
  | captured hcell htag hfields hv hrest _ =>
      exact .captured hcell htag hfields hv hrest

theorem Below.keep {roots roots' : List Value} (hbelow : Below h h' below below')
    (hkeeps : Heap.Keeps roots h h₁) (hkeeps' : Heap.Keeps roots' h' h₁')
    (hin : ∀ v ∈ below.map ReturnEntry.held, v.Within (h.Reach roots))
    (hin' : ∀ v ∈ below'.map ReturnEntry.held, v.Within (h'.Reach roots')) :
    Below h₁ h₁' below below' := by
  induction hbelow with
  | bottom => exact .bottom
  | @call pc env env' locals locals' below below' hscope _ ih =>
      have hheld (ls : List Value) : (ls.map ReturnEntry.value).map ReturnEntry.held = ls := by
        simp [Function.comp_def, ReturnEntry.held]
      simp only [List.map_cons, List.map_append, hheld, List.mem_cons,
        List.mem_append] at hin hin'
      refine .call (hscope.keep hkeeps hkeeps' (fun u hu => hin u ?_)
        fun u hu => hin' u ?_) (ih (fun u hu => hin u ?_) fun u hu => hin' u ?_)
      · exact (List.mem_cons.1 hu).imp_right Or.inl
      · exact (List.mem_cons.1 hu).imp_right Or.inl
      · exact Or.inr (Or.inr hu)
      · exact Or.inr (Or.inr hu)

end Zinc
