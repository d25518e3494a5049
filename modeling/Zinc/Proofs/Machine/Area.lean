import Zinc.Proofs.Code.Nesting
import Zinc.Proofs.Machine.Congruence

/-!
What the code area holds.  Code gets there by compiling only, and taking a program back
restores the area as it was; so what is true of an empty area and stays true when generated
code is appended is true of every machine that a host can get to.
-/

namespace Zinc.Machine

variable {E : Code → Globals → Int → Prop} {R : List Value → Machine → Machine → Prop}

/-- What generated code can be appended to without harm holds next to any relation that
operations keep. -/
theorem Congruence.withCode (hR : Congruence E R) {P : Code → Prop}
    (hinstall : ∀ {m is}, P m.code → Generated m is →
      P (m.code.append (Instr.encodeAll is))) :
    Congruence E fun vs m m' => R vs m m' ∧ P m.code where
  closed h := hR.closed h.1
  handles h := hR.handles h.1
  globals h := hR.globals h.1
  code h := hR.code h.1
  usage h := hR.usage h.1
  entry := hR.entry
  drop h hsub := ⟨hR.drop h.1 hsub, h.2⟩
  int n h := ⟨hR.int n h.1, h.2⟩
  handle h hopen hv := ⟨hR.handle h.1 hopen hv, h.2⟩
  global h hopen hg hdefined := ⟨hR.global h.1 hopen hg hdefined, h.2⟩
  fields h hopen hv hkind := by
    obtain ⟨hsame, hfields⟩ := hR.fields h.1 hopen hv hkind
    exact ⟨hsame, hfields, h.2⟩
  inspect h hv := hR.inspect h.1 hv
  toHost h hv := hR.toHost h.1 hv
  hold handles h hhold := ⟨hR.hold handles h.1 hhold, h.2⟩
  declare s h hopen := ⟨hR.declare s h.1 hopen, h.2⟩
  install op h hopen hgenerated := by
    obtain ⟨hinstalled, hentry⟩ := hR.install op h.1 hopen hgenerated
    refine ⟨⟨hinstalled, ?_⟩, hentry⟩
    rw [code_extended]
    exact hinstall h.2 hgenerated
  closure h hopen hentry := by
    obtain ⟨hsame, hclosure⟩ := hR.closure h.1 hopen hentry
    exact ⟨hsame, hclosure, h.2⟩
  tuple ws h hopen hws := by
    obtain ⟨hsame, htuple⟩ := hR.tuple ws h.1 hopen hws
    exact ⟨hsame, htuple, h.2⟩
  run {vs m m' callee args} h hopen hcallee hargs := by
    obtain ⟨hanswer, hmachine⟩ := hR.run h.1 hopen hcallee hargs
    refine ⟨hanswer, hmachine, ?_⟩
    rw [(m.evaluated_run callee args).code]
    exact h.2
  collect h hopen := ⟨hR.collect h.1 hopen, h.2⟩
  close {vs m m'} h := by
    refine ⟨hR.close h.1, ?_⟩
    unfold Machine.close Machine.whenOpen
    split
    · exact h.2
    · exact h.2
  checkpoint h := ⟨hR.checkpoint h.1, h.2⟩
  commit h := ⟨hR.commit h.1, h.2⟩
  rollback hstart h hgrown := by
    refine ⟨hR.rollback hstart.1 h.1 hgrown, ?_⟩
    rw [hgrown.rollback.code]
    exact hstart.2

/-- The code area holds nothing but code compiled from `units`, in that order. -/
def HoldsCode (units : List Lir) (c : Code) : Prop :=
  ∃ is, c.bytes.toList = Instr.encodeAll is ∧ Assembled units is

theorem HoldsCode.append {c : Code} {is : List Instr} {m : Machine} {units : List Lir}
    (h : HoldsCode units c) (hgenerated : Generated m is) :
    ∃ e, HoldsCode (units ++ [e]) (c.append (Instr.encodeAll is)) := by
  obtain ⟨older, hbytes, hassembled⟩ := h
  have hmore : (c.append (Instr.encodeAll is)).bytes.toList =
      Instr.encodeAll (older ++ is) := by
    rw [Code.toList_append, hbytes, Instr.encodeAll_append]
  cases hgenerated with
  | entry hcode => exact ⟨_, _, hmore, hassembled.entry hcode⟩
  | definition hcode => exact ⟨_, _, hmore, hassembled.definition hcode⟩

theorem holdsCode_empty : HoldsCode [] {} :=
  ⟨[], rfl, .nil⟩

end Zinc.Machine
