import Mathlib.Data.List.Forall2
import Zinc.Proofs.Code.Effect
import Zinc.Proofs.Heap.Region
import Zinc.Proofs.Machine.Lockstep

/-!
Roles of calls.  The call of a definition computes its expression from what globals hold
and nothing else: it has no environment and takes no arguments before it has assigned its
global.  So all the data of it, and of the calls that it makes, lies in a calm part of the
heap, from where no closure that assigns can be reached.  Calls outside of definitions may
get at anything, but assign nothing by themselves.
-/

namespace Zinc

namespace Machine

/-- Two sets of objects.  From the calm ones no closure that assigns a global can be
reached; the known ones are all that a run can get at. -/
structure Zones where
  calm : Nat → Prop
  known : Nat → Prop

/-- The second zones are the first ones with more objects. -/
structure Zones.Le (z z' : Zones) : Prop where
  calm : ∀ a, z.calm a → z'.calm a
  known : ∀ a, z.known a → z'.known a

/-- A closure may do what its code does: it assigns the global that has been granted to its
address, and then it has no environment, or nothing. -/
def Permitted (grant : Nat → UInt16 → Prop) (c : Code) (a : Nat) (env : Value) (pc : Int) :
    Prop :=
  (∀ k, ¬ grant a k) ∧ c.Acts none pc ∨
    env = .emptyEnv ∧ (∃ k, grant a k) ∧ ∀ k, grant a k → c.Acts (some k) pc

/-- The zones of a heap, when the closure at `a` assigns the global in slot `k` if that has
been granted to it. -/
structure Zones.Fit (z : Zones) (grant : Nat → UInt16 → Prop) (c : Code) (h : Heap) :
    Prop where
  granted : ∀ a k, grant a k → a < h.cells.size
  sub : ∀ a, z.calm a → z.known a
  calm : h.Region (fun _ _ pc => c.Acts none pc) z.calm
  known : h.Region (Permitted grant c) z.known

/-- What a call is there for: it works for a definition, it is the call of a definition
before the assignment, or it is neither.  A definition that is `alone` has not been given
any argument. -/
inductive Role where
  | calm
  | defining (slot : UInt16) (alone : Bool)
  | free

namespace Role

/-- The slot of the global that a call is going to assign. -/
def slot : Role → Option UInt16
  | defining k _ => some k
  | _ => none

/-- Where the data of a call lies. -/
def zone (z : Zones) : Role → Nat → Prop
  | free => z.known
  | _ => z.calm

/-- A value that a call can compute with. -/
def Own (z : Zones) (r : Role) (v : Value) : Prop :=
  v.In (r.zone z)

/-- A value that can wait as an argument for what a call returns. -/
def Given (z : Zones) : Role → Value → Prop
  | calm, v => v.In z.calm
  | defining _ alone, v => alone = false ∧ v.In z.known
  | free, v => v.In z.known

/-- Which calls a call can make, or be replaced by. -/
inductive Calls : Role → Role → Prop where
  | calm {r : Role} : r ≠ .free → Calls r .calm
  | free : Calls .free .free
  | defining {k : UInt16} : Calls .free (.defining k false)

/-- What an instruction can do to the roles of the current call and those that wait, short
of an assignment. -/
inductive Next : List Role → List Role → Prop where
  | stay (rs : List Role) : Next rs rs
  | called {r r' : Role} {rs : List Role} : r.Calls r' → Next (r :: rs) (r' :: r :: rs)
  | replaced {r r' : Role} {rs : List Role} :
      r.slot = none → r.Calls r' → Next (r :: rs) (r' :: rs)
  | left {r : Role} {rs : List Role} : r.slot = none → Next (r :: rs) rs

end Role

variable {z z' z'' : Zones} {grant : Nat → UInt16 → Prop} {c : Code} {h h' : Heap}
  {r r' r'' : Role} {v : Value}

namespace Zones

theorem Le.refl (z : Zones) : z.Le z :=
  ⟨fun _ ha => ha, fun _ ha => ha⟩

theorem Le.trans (hfirst : z.Le z') (hsecond : z'.Le z'') : z.Le z'' :=
  ⟨fun a ha => hsecond.calm a (hfirst.calm a ha),
    fun a ha => hsecond.known a (hfirst.known a ha)⟩

theorem Le.zone (hle : z.Le z') (r : Role) : ∀ a, r.zone z a → r.zone z' a := by
  cases r with
  | free => exact hle.known
  | _ => exact hle.calm

theorem Le.own (hle : z.Le z') (hv : r.Own z v) : r.Own z' v :=
  hv.mono (hle.zone r)

theorem Le.given (hle : z.Le z') (hv : r.Given z v) : r.Given z' v := by
  cases r with
  | calm => exact Value.In.mono hv hle.calm
  | defining k alone => exact ⟨hv.1, hv.2.mono hle.known⟩
  | free => exact Value.In.mono hv hle.known

theorem Fit.zone (hfit : z.Fit grant c h) (r : Role) : ∃ ok, h.Region ok (r.zone z) := by
  cases r with
  | free => exact ⟨_, hfit.known⟩
  | _ => exact ⟨_, hfit.calm⟩

theorem Fit.fade (hfit : z.Fit grant c h) (hfades : h.Fades h') : z.Fit grant c h' :=
  ⟨fun a k hk => Nat.lt_of_lt_of_le (hfit.granted a k hk) hfades.size_le, hfit.sub,
    hfit.calm.fade hfades, hfit.known.fade hfades⟩

/-- More code does no harm. -/
theorem Fit.code (hfit : z.Fit grant c h) {c' : Code}
    (hlonger : c.bytes.toList <+: c'.bytes.toList) : z.Fit grant c' h := by
  refine ⟨hfit.granted, hfit.sub, hfit.calm.mono fun _ _ _ _ hacts => hacts.mono hlonger,
    hfit.known.mono fun a env pc _ hok => ?_⟩
  rcases hok with ⟨hnone, hacts⟩ | ⟨henv, hsome, hacts⟩
  · exact .inl ⟨hnone, hacts.mono hlonger⟩
  · exact .inr ⟨henv, hsome, fun k hk => (hacts k hk).mono hlonger⟩

/-- A new object that a call builds lies among its data.  If it is a closure, its code
assigns nothing. -/
theorem Fit.alloc (hfit : z.Fit grant c h) (r : Role) (tag : Kind) {fields : Array Value}
    (hfields : ∀ v ∈ fields, v.Within (r.zone z))
    (hclosure : ∀ env pc, fields = #[env, .code pc] → c.Acts none pc) :
    ∃ z', z.Le z' ∧ z'.Fit grant c (h.alloc tag fields).2 ∧ r.zone z' h.cells.size := by
  have hfades : h.Fades (h.alloc tag fields).2 := (Heap.Grows.alloc _ _ (.refl _)).fades
  have hnew (k : UInt16) (hk : grant h.cells.size k) : False :=
    Nat.lt_irrefl _ (hfit.granted _ k hk)
  have hgranted (a : Nat) (k : UInt16) (hk : grant a k) := (hfit.fade hfades).granted a k hk
  have hknown (hin : ∀ v ∈ fields, v.Within z.known) :=
    hfit.known.alloc tag hin fun env pc heq => .inl ⟨hnew, hclosure env pc heq⟩
  have hcalm (hin : ∀ v ∈ fields, v.Within z.calm) :
      ∃ z', z.Le z' ∧ z'.Fit grant c (h.alloc tag fields).2 ∧ z'.calm h.cells.size := by
    refine ⟨⟨fun a => z.calm a ∨ a = h.cells.size, fun a => z.known a ∨ a = h.cells.size⟩,
      ⟨fun _ => .inl, fun _ => .inl⟩, ⟨hgranted, fun a ha => ha.imp_left (hfit.sub a), ?_, ?_⟩,
      .inr rfl⟩
    · exact hfit.calm.alloc tag hin hclosure
    · exact hknown fun v hv => (hin v hv).mono hfit.sub
  cases r with
  | free =>
      exact ⟨⟨z.calm, fun a => z.known a ∨ a = h.cells.size⟩, ⟨fun _ ha => ha, fun _ => .inl⟩,
        ⟨hgranted, fun a ha => .inl (hfit.sub a ha), hfit.calm.fade hfades, hknown hfields⟩,
        .inr rfl⟩
  | _ => exact hcalm hfields

/-- Fields that calls pass to each other make no closure. -/
theorem Fit.allocData (hfit : z.Fit grant c h) (r : Role) (tag : Kind) (htag : tag ≠ .mark)
    {fields : Array Value} (hfields : ∀ v ∈ fields, r.Own z v) :
    ∃ z', z.Le z' ∧ z'.Fit grant c (h.alloc tag fields).2 ∧
      r.Own z' (.ref tag h.cells.size) := by
  have hopen (env : Value) (pc : Int) : fields ≠ #[env, .code pc] := by
    rintro rfl
    exact (hfields (.code pc) (by simp)).ne_code pc rfl
  obtain ⟨z', hle, hfit', hnew⟩ := hfit.alloc r tag (fun v hv => (hfields v hv).within)
    fun env pc heq => absurd heq (hopen env pc)
  exact ⟨z', hle, hfit', Value.in_ref htag hnew⟩

/-- The environment that a closure captures lies among the data of the call. -/
theorem Fit.capture (hfit : z.Fit grant c h) (r : Role) {env : Value} (henv : r.Own z env)
    {locals : List Value} (hlocals : ∀ v ∈ locals, r.Own z v) :
    let captured := (locals.map ReturnEntry.value).foldr consEnv (env, h)
    ∃ z', z.Le z' ∧ z'.Fit grant c captured.2 ∧ r.Own z' captured.1 := by
  induction locals with
  | nil => exact ⟨z, .refl z, hfit, henv⟩
  | cons v rest ih =>
      obtain ⟨hv, hrest⟩ := List.forall_mem_cons.1 hlocals
      obtain ⟨z', hle, hfit', hcaptured⟩ := ih hrest
      have hfields : ∀ u ∈ #[v, ((rest.map ReturnEntry.value).foldr consEnv (env, h)).1],
          r.Own z' u := by
        simpa using ⟨hle.own hv, hcaptured⟩
      obtain ⟨z'', hle', hfit'', hnew⟩ :=
        hfit'.allocData r .env (fun h => by cases h) hfields
      exact ⟨z'', hle.trans hle', hfit'', hnew⟩

/-- A closure that a call builds lies among its data. -/
theorem Fit.closureOf (hfit : z.Fit grant c h) (r : Role) {env : Value} (henv : r.Own z env)
    {locals : List Value} (hlocals : ∀ v ∈ locals, r.Own z v) {offset : Int}
    (hacts : c.Acts none offset) :
    ∃ z', z.Le z' ∧ z'.Fit grant c (closureOf h env locals offset).2 ∧
      r.Own z' (closureOf h env locals offset).1 := by
  obtain ⟨z', hle, hfit', hcaptured⟩ := hfit.capture r henv hlocals
  have hfields : ∀ u ∈ #[((locals.map ReturnEntry.value).foldr consEnv (env, h)).1,
      .code offset], u.Within (r.zone z') := by
    simpa using ⟨hcaptured.within, nofun⟩
  obtain ⟨z'', hle', hfit'', hnew⟩ := hfit'.alloc r .closure hfields fun env' pc heq => by
    cases heq
    exact hacts
  exact ⟨z'', hle.trans hle', hfit'', Value.in_ref (fun h => by cases h) hnew⟩

end Zones

/-- A value that a program computes with, or an environment, is no place in the code. -/
theorem own_of_typed {w : World} {shape : Shape} (htyped : Typed w shape v)
    (hv : v.Within (r.zone z)) : r.Own z v := by
  refine ⟨?_, fun pc => ?_, hv⟩
  · cases htyped <;> rfl
  · rintro rfl
    cases htyped

namespace Role

theorem Calls.given (hcalls : r.Calls r') (hv : r.Own z v) : r'.Given z v := by
  cases hcalls with
  | calm hr =>
      cases r with
      | free => exact absurd rfl hr
      | _ => exact hv
  | free => exact hv
  | defining => exact ⟨rfl, hv⟩

theorem own_of_given (hr : r.slot = none) (hv : r.Given z v) : r.Own z v := by
  cases r with
  | defining k alone => cases hr
  | _ => exact hv

/-- What a call returns is data of its caller. -/
theorem Calls.returns (hcalls : r.Calls r') (hr' : r'.slot = none) (hv : r'.Own z v) :
    r.Own z v := by
  cases hcalls with
  | calm hr =>
      cases r with
      | free => exact absurd rfl hr
      | _ => exact hv
  | free => exact hv
  | defining => cases hr'

theorem Calls.trans (hfirst : r.Calls r') (hr' : r'.slot = none) (hsecond : r'.Calls r'') :
    r.Calls r'' := by
  cases hfirst with
  | calm hr =>
      cases hsecond with
      | calm _ => exact .calm hr
  | free => exact hsecond
  | defining => cases hr'

/-- Once it has assigned its global, the call of a definition is like any other. -/
theorem Calls.assigned {k : UInt16} {alone : Bool} (hcalls : r.Calls (.defining k alone)) :
    r.Calls .free := by
  cases hcalls with
  | defining => exact .free

end Role

/-- What a slot of the discipline says of a value. -/
def Slot.Fits (P : Value → Prop) : Slot → Value → Prop
  | .value, v => P v
  | .mark, v => v = .mark

theorem Slot.Fits.mono {P Q : Value → Prop} (hle : ∀ v, P v → Q v) {slot : Slot}
    (hfits : Slot.Fits P slot v) : Slot.Fits Q slot v := by
  cases slot with
  | value => exact hle v hfits
  | mark => exact hfits

/-- What has been pushed, down to some depth, are values. -/
theorem split_pushed {P : Value → Prop} {count : Nat} {pending : List Slot}
    {vs : List Value}
    (h : List.Forall₂ (Slot.Fits P) (List.replicate count .value ++ pending) vs) :
    ∃ top below, vs = top ++ below ∧ top.length = count ∧ (∀ v ∈ top, P v) ∧
      List.Forall₂ (Slot.Fits P) pending below := by
  induction count generalizing vs with
  | zero => exact ⟨[], vs, rfl, rfl, by simp, h⟩
  | succ count ih =>
      rw [List.replicate_succ, List.cons_append] at h
      cases h with
      | @cons _ v _ vs hv hrest =>
          obtain ⟨top, below, rfl, hlength, htop, hbelow⟩ := ih hrest
          exact ⟨v :: top, below, rfl, by rw [List.length_cons, hlength],
            List.forall_mem_cons.2 ⟨hv, htop⟩, hbelow⟩

/-- A call in its role that goes on at `pc`.  It has `top` on the argument stack, the
arguments that wait for what it returns at the bottom, and `locals` on the return stack. -/
inductive Engaged (c : Code) (slots : Nat) (z : Zones) (r : Role) (pc : Int) (env : Value)
    (top locals : List Value) : Prop where
  | intro {n lets : Nat} {pending : List Slot} {is : List Instr}
      {pushed waiting : List Value} :
      c.At pc is → Disciplined slots n lets true pending is → c.Acts r.slot pc →
      lets ≤ locals.length → r.Own z env → (∀ v ∈ locals, r.Own z v) →
      List.Forall₂ (Slot.Fits (r.Own z)) pending pushed → (∀ v ∈ waiting, r.Given z v) →
      top = pushed ++ waiting → Engaged c slots z r pc env top locals

/-- The calls, by role, that wait below a call in the role `r`. -/
inductive Stacked (c : Code) (slots : Nat) (z : Zones) :
    Role → List Role → List Value → List ReturnEntry → Prop where
  | bottom {r : Role} : Stacked c slots z r [] [] []
  | call {r r' : Role} {rs : List Role} {pc : Int} {env : Value}
      {top locals args : List Value} {returns : List ReturnEntry} :
      r'.Calls r → Engaged c slots z r' pc env top locals →
      Stacked c slots z r' rs args returns →
      Stacked c slots z r (r' :: rs) (top ++ .mark :: args)
        (.frame pc env locals.length :: (locals.map .value ++ returns))

variable {slots : Nat} {rs : List Role} {args : List Value} {returns : List ReturnEntry}

theorem Engaged.mono {pc : Int} {env : Value} {top locals : List Value}
    (h : Engaged c slots z r pc env top locals) (hle : z.Le z') :
    Engaged c slots z' r pc env top locals := by
  obtain ⟨hat, hdisciplined, hacts, hlets, henv, hlocals, hpushed, hwaiting, htop⟩ := h
  exact .intro hat hdisciplined hacts hlets (hle.own henv) (fun v hv => hle.own (hlocals v hv))
    (hpushed.imp fun _ _ hv => hv.mono fun _ => hle.own) (fun v hv => hle.given (hwaiting v hv))
    htop

theorem Stacked.mono (h : Stacked c slots z r rs args returns) (hle : z.Le z') :
    Stacked c slots z' r rs args returns := by
  induction h with
  | bottom => exact .bottom
  | call hcalls hengaged _ ih => exact .call hcalls (hengaged.mono hle) ih

/-- The current call is replaced by one in another role. -/
theorem Stacked.retarget (h : Stacked c slots z r rs args returns)
    (hcalls : ∀ p : Role, p.Calls r → p.Calls r') : Stacked c slots z r' rs args returns := by
  cases h with
  | bottom => exact .bottom
  | call hcall hengaged hbelow => exact .call (hcalls _ hcall) hengaged hbelow

/-- The registers hold the data of the current call, which is in the role `r`, and the
calls below it wait for its end. -/
structure Seated (c : Code) (slots : Nat) (z : Zones) (r : Role) (rs : List Role)
    (lets : Nat) (pending : List Slot) (pushed waiting locals args : List Value)
    (returns : List ReturnEntry) (regs : Registers) : Prop where
  args_eq : regs.args.items = pushed ++ waiting ++ .mark :: args
  returns_eq : regs.returns.items = locals.map .value ++ returns
  extra_eq : regs.extra = locals.length
  lets_le : lets ≤ locals.length
  env : r.Own z regs.env
  locals : ∀ v ∈ locals, r.Own z v
  pushed : List.Forall₂ (Slot.Fits (r.Own z)) pending pushed
  waiting : ∀ v ∈ waiting, r.Given z v
  calls : Stacked c slots z r rs args returns

theorem Seated.mono {lets : Nat} {pending : List Slot} {pushed waiting locals : List Value}
    {regs : Registers}
    (h : Seated c slots z r rs lets pending pushed waiting locals args returns regs)
    (hle : z.Le z') :
    Seated c slots z' r rs lets pending pushed waiting locals args returns regs :=
  { h with
    env := hle.own h.env
    locals := fun v hv => hle.own (h.locals v hv)
    pushed := h.pushed.imp fun _ _ hv => hv.mono fun _ => hle.own
    waiting := fun v hv => hle.given (h.waiting v hv)
    calls := h.calls.mono hle }

/-- A machine whose current call is in the role `r` and has others, in the roles `rs`,
waiting for its end. -/
inductive Flowing (grant : Nat → UInt16 → Prop) (z : Zones) (r : Role) (rs : List Role)
    (m : Machine) : Prop where
  | intro {n lets : Nat} {loaded : Bool} {pending : List Slot}
      {pushed waiting locals args : List Value} {returns : List ReturnEntry}
      {is : List Instr} :
      z.Fit grant m.code m.heap → (∀ g ∈ m.globals.entries, g.value.Within z.calm) →
      Seated m.code m.globals.size z r rs lets pending pushed waiting locals args returns
        m.regs →
      (loaded = true → r.Own z m.regs.acc) → m.code.At m.regs.pc is →
      Disciplined m.globals.size n lets loaded pending is → m.code.Acts r.slot m.regs.pc →
      Flowing grant z r rs m

end Machine

end Zinc
