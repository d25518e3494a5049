import Zinc.Program
import Zinc.Proofs.Code.Refers
import Zinc.Proofs.Machine.Beyond
import Zinc.Proofs.Machine.Compile

/-!
What the stages of loading make of a program, told apart from when they do it.  Lowering
a unit depends on the globals that are declared by then, and its code on their slots
alone; so taking all units through one stage after the other comes to the same as
lowering and compiling each of them when its turn has come.
-/

namespace Zinc

namespace Globals

variable {g g' : Globals} {s t : Symbol} {declared : Declared}

/-- A declaration finds the symbol in the table or puts it into a new slot. -/
theorem declare_cases (h : g.declare s = (.ok declared, g')) :
    (g.isDeclared s = true ∧ g' = g) ∨
      (g.slot? s = none ∧ g.size ≤ maxGlobalSlot ∧
        g' = g.plus #[{ symbol := s }] (g.index.insert s g.size)) := by
  rw [declare] at h
  split at h
  · rename_i i hslot
    obtain ⟨_, rfl⟩ := Prod.mk.inj h
    exact Or.inl ⟨isDeclared_iff.2 ⟨i, hslot⟩, rfl⟩
  · rename_i hslot
    dsimp only at h
    split at h
    · simp at h
    · rename_i hroom
      obtain ⟨_, rfl⟩ := Prod.mk.inj h
      exact Or.inr ⟨hslot, Nat.not_lt.1 hroom, rfl⟩

theorem isDeclared_declare (h : g.declare s = (.ok declared, g')) :
    g'.isDeclared s = true := by
  rcases declare_cases h with ⟨hs, rfl⟩ | ⟨_, _, rfl⟩
  · exact hs
  · simp [isDeclared, plus]

theorem declare_of_isDeclared (h : g.isDeclared s = true) :
    ∃ declared, g.declare s = (.ok declared, g) := by
  obtain ⟨i, hslot⟩ := isDeclared_iff.1 h
  refine ⟨⟨i, false⟩, ?_⟩
  rw [declare, hslot]

/-- A declared symbol keeps its slot. -/
theorem slot?_declare (h : g.declare s = (.ok declared, g')) (ht : g.isDeclared t = true) :
    g'.slot? t = g.slot? t := by
  rcases declare_cases h with ⟨_, rfl⟩ | ⟨hnone, _, rfl⟩
  · rfl
  · have hne : s ≠ t := by
      rintro rfl
      obtain ⟨i, hi⟩ := isDeclared_iff.1 ht
      rw [hnone] at hi
      cases hi
    simp [slot?, plus, Std.ExtHashMap.getElem?_insert, hne]

theorem isDeclared_of_slot?_eq (h : g'.slot? t = g.slot? t) :
    g'.isDeclared t = g.isDeclared t := by
  rw [isDeclared, isDeclared, Std.ExtHashMap.contains_eq_isSome_getElem?,
    Std.ExtHashMap.contains_eq_isSome_getElem?]
  exact congrArg Option.isSome h

theorem Level.isDeclared_eq (h : g.Level g') : g'.isDeclared = g.isDeclared := by
  funext s
  rw [isDeclared, isDeclared, h.index]

theorem Level.slot?_eq (h : g.Level g') : g'.slot? = g.slot? := by
  funext s
  rw [slot?, slot?, h.index]

theorem Level.symm (h : g.Level g') : g'.Level g :=
  ⟨h.size.symm, h.index.symm⟩

theorem plus_nil (h : g.Level g') : g'.plus #[] g.index = g' := by
  rw [plus, Array.append_empty, ← h.index]

theorem plus_plus (g : Globals) (slots slots' : Array Global)
    (index index' : Std.ExtHashMap Symbol Nat) :
    (g.plus slots index).plus slots' index' = g.plus (slots ++ slots') index' := by
  rw [plus, plus, plus, Array.append_assoc]

/-- Tables with the same symbols in their slots take a declaration alike. -/
theorem Level.declare {g₁ : Globals} (h : g.Level g')
    (hdeclare : g.declare s = (.ok declared, g₁)) :
    ∃ slots, g₁ = g.plus slots g₁.index ∧
      g'.declare s = (.ok declared, g'.plus slots g₁.index) ∧
      g₁.Level (g'.plus slots g₁.index) := by
  unfold Globals.declare at hdeclare ⊢
  rw [h.slot?_eq, h.size]
  cases hslot : g.slot? s with
  | some i =>
      rw [hslot] at hdeclare
      obtain ⟨hanswer, rfl⟩ := Prod.mk.inj hdeclare
      refine ⟨#[], (plus_nil (.refl g)).symm, ?_, ?_⟩
      · rw [plus_nil h, ← hanswer]
      · rw [plus_nil h]
        exact h
  | none =>
      rw [hslot] at hdeclare
      dsimp only at hdeclare ⊢
      split at hdeclare
      · cases (Prod.mk.inj hdeclare).1
      · rename_i hroom
        obtain ⟨hanswer, rfl⟩ := Prod.mk.inj hdeclare
        rw [if_neg hroom, ← hanswer]
        refine ⟨#[{ symbol := s }], rfl, ?_, ?_, rfl⟩
        · rw [plus, h.index]
          rfl
        · have hsize : g'.entries.size = g.entries.size := h.size
          simp [plus, Globals.size, hsize]

end Globals

namespace Machine

variable {m : Machine} {s : Symbol} {l : Lir} {g : Globals}

/-- A global that can be declared and lowered is compiled, or the machine stays as it was. -/
theorem defineEntryWith_of_lowered {ε : Type} {declared : Globals.Declared}
    (hopen : m.closed = false) (hdeclare : m.globals.declare s = (.ok declared, g))
    (refuse : Fault → ε) (lower : Machine → Except ε Lir)
    (hlower : lower { m with globals := g } = .ok l) :
    m.defineEntryWith s refuse (fun m => (lower m, m)) =
      (some (l.generateDefinition g.slot? s).tree,
        match (l.generateDefinition g.slot? s).code with
        | .error f => (.error (refuse f), m)
        | .ok is => (.ok m.code.size, { m with globals := g }.extended "define" is)) := by
  have hundo := giveUp_eq hdeclare
  unfold defineEntryWith
  rw [if_neg (by simp [hopen]), hdeclare]
  dsimp only
  rw [hlower]
  dsimp only
  rw [compileDefinition_eq]
  dsimp only
  cases (l.generateDefinition g.slot? s).code with
  | error f => exact congrArg (fun m' => (some _, Except.error (refuse f), m')) hundo
  | ok is => rfl

/-- A definition that can be lowered and has code is compiled. -/
theorem define_of_lowered {e : Expr} {declared : Globals.Declared} {is : List Instr}
    (hopen : m.closed = false) (hframe : m.handles.depth ≠ 0)
    (hdeclare : m.globals.declare s = (.ok declared, g))
    (hlower : Lir.lower g.isDeclared e = .ok l)
    (hcode : (l.generateDefinition g.slot? s).code = .ok is) :
    m.define s e = ({ m with globals := g }.extended "define" is).entryHandle m.code.size := by
  have hdefine := defineEntryWith_of_lowered hopen hdeclare id
    (fun m => Lir.lower m.globals.isDeclared e) hlower
  rw [hcode] at hdefine
  rw [define, whenFramed, whenOpen, if_neg (by simp [hopen]), if_neg hframe, defineExpr,
    hdefine]

theorem compileEntry_of_open (hopen : m.closed = false) (l : Lir) :
    m.compileEntry l =
      match (l.generateEntry m.globals.slot?).code with
      | .error f => (⟨(l.generateEntry m.globals.slot?).tree, .error f⟩, m)
      | .ok is => (⟨(l.generateEntry m.globals.slot?).tree, .ok m.code.size⟩,
          m.extended "compile" is) := by
  rw [compileEntry, if_neg (by simp [hopen]), compileExpr_eq]
  cases (l.generateEntry m.globals.slot?).code <;> rfl

end Machine

namespace ProgramUnit

/-- Puts the code of a unit into a machine and answers where it starts.  A definition is
declared before it is lowered. -/
def install (u : ProgramUnit) (m : Machine) : Machine.Reply Nat :=
  match u.name with
  | some s => (m.defineExpr s u.body).2
  | none =>
    match m.lower u.body with
    | .error f => (.error f, m)
    | .ok l =>
      let (compiled, m) := m.compileEntry l
      (compiled.entry, m)

/-- Runs the code of a unit.  The value of a main expression is rooted and replaces the
result so far. -/
def finish (u : ProgramUnit) (result : Option Handle) (entry : Int) (m : Machine) :
    Machine.Reply (Option Handle) :=
  match m.runEntry entry with
  | (.error f, m) => (.error f, m)
  | (.ok v, m) =>
    if u.name.isSome then (.ok result, m)
    else
      match m.newHandle v with
      | (.error f, m) => (.error f, m)
      | (.ok h, m) => (.ok (some h), m)

/-- Takes one unit all the way. -/
def process (u : ProgramUnit) (result : Option Handle) (m : Machine) :
    Machine.Reply (Option Handle) :=
  match u.install m with
  | (.error f, m) => (.error f, m)
  | (.ok entry, m) => u.finish result entry m

/-- Takes units all the way one after the other, up to the first that fails. -/
def processAll : List ProgramUnit → Option Handle → Machine → Machine.Reply (Option Handle)
  | [], result, m => (.ok result, m)
  | u :: rest, result, m =>
    match u.process result m with
    | (.error f, m) => (.error f, m)
    | (.ok result, m) => processAll rest result m

/-- The global of a unit is declared, if it has one. -/
def Declares (u : ProgramUnit) (g g' : Globals) : Prop :=
  match u.name with
  | some s => ∃ declared, g.declare s = (.ok declared, g')
  | none => g' = g

/-- A unit is declared and lowered. -/
structure Lowers (u : ProgramUnit) (g : Globals) (l : Lir) (g' : Globals) : Prop where
  declares : u.Declares g g'
  lower : Lir.lower g'.isDeclared u.body = .ok l

/-- What is generated for a unit from its lowered form. -/
def generated (u : ProgramUnit) (slot : Symbol → Option Nat) (l : Lir) : Generated :=
  match u.name with
  | some s => l.generateDefinition slot s
  | none => l.generateEntry slot

section Unit

variable {u : ProgramUnit} {m : Machine} {g g' : Globals} {l : Lir}

theorem Lowers.slot? (h : u.Lowers g l g') {s : Symbol} (hs : g.isDeclared s = true) :
    g'.slot? s = g.slot? s := by
  have hdeclares := h.declares
  unfold Declares at hdeclares
  split at hdeclares
  · obtain ⟨_, hdeclare⟩ := hdeclares
    exact Globals.slot?_declare hdeclare hs
  · rw [hdeclares]

/-- The code of a lowered unit does not depend on what is declared after it. -/
theorem Lowers.generated_eq (h : u.Lowers g l g') {slot : Symbol → Option Nat}
    (hslots : ∀ s, g'.isDeclared s = true → slot s = g'.slot? s) :
    u.generated slot l = u.generated g'.slot? l := by
  have hrefers := (Lir.lower_refers h.lower).generate_eq hslots
  have hdeclares := h.declares
  unfold Declares at hdeclares
  unfold generated
  split at hdeclares
  · rename_i s _
    obtain ⟨_, hdeclare⟩ := hdeclares
    dsimp only [Lir.generateDefinition]
    rw [hslots s (Globals.isDeclared_declare hdeclare), hrefers]
  · dsimp only [Lir.generateEntry]
    rw [hrefers]

/-- A unit is lowered alike against tables with the same symbols in their slots. -/
theorem Lowers.level (h : u.Lowers g l g') {h' : Globals} (hlevel : g.Level h') :
    ∃ slots, g' = g.plus slots g'.index ∧ u.Lowers h' l (h'.plus slots g'.index) ∧
      g'.Level (h'.plus slots g'.index) := by
  obtain ⟨hdeclares, hlower⟩ := h
  unfold Declares at hdeclares
  split at hdeclares
  · rename_i s hname
    obtain ⟨_, hdeclare⟩ := hdeclares
    obtain ⟨slots, hplus, hdeclare', hlevel'⟩ := hlevel.declare hdeclare
    refine ⟨slots, hplus, ⟨?_, ?_⟩, hlevel'⟩
    · unfold Declares
      rw [hname]
      exact ⟨_, hdeclare'⟩
    · rw [hlevel'.isDeclared_eq]
      exact hlower
  · rename_i hname
    subst hdeclares
    refine ⟨#[], (Globals.plus_nil (.refl g')).symm, ?_⟩
    rw [Globals.plus_nil hlevel]
    refine ⟨⟨?_, ?_⟩, hlevel⟩
    · unfold Declares
      rw [hname]
    · rw [hlevel.isDeclared_eq]
      exact hlower

/-- The stage of lowering declares and lowers a unit. -/
theorem Lowers.lower_eq (h : u.Lowers m.globals l g') (hopen : m.closed = false) :
    u.lower m = (none, { u with lir := some l }, { m with globals := g' }) := by
  obtain ⟨name, pos, body, lir, entry⟩ := u
  obtain ⟨hdeclares, hlower⟩ := h
  have hbody : Machine.lower { m with globals := g' } body = .ok l := by
    rw [Machine.lower, if_neg (by simp [hopen])]
    exact hlower
  cases name with
  | some s =>
      obtain ⟨declared, hdeclare⟩ := hdeclares
      have hdeclared : m.declare s = (.ok (), { m with globals := g' }) := by
        rw [Machine.declare, Machine.whenOpen, if_neg (by simp [hopen]), hdeclare]
        rfl
      unfold ProgramUnit.lower
      dsimp only
      rw [hdeclared]
      dsimp only
      rw [hbody]
  | none =>
      obtain rfl : g' = m.globals := hdeclares
      unfold ProgramUnit.lower
      dsimp only
      rw [hbody]

theorem lowers_of_lower (hopen : m.closed = false) (h : (u.lower m).1 = none) :
    ∃ l g', u.Lowers m.globals l g' := by
  obtain ⟨name, pos, body, lir, entry⟩ := u
  unfold ProgramUnit.lower at h
  cases name with
  | some s =>
      dsimp only at h
      cases hdeclare : m.globals.declare s with
      | mk answer g' =>
          have hdeclared : m.declare s =
              (answer.map fun _ => (), { m with globals := g' }) := by
            rw [Machine.declare, Machine.whenOpen, if_neg (by simp [hopen]), hdeclare]
          rw [hdeclared] at h
          cases answer with
          | error f => cases h
          | ok declared =>
              have hok : (Except.ok declared : Except Fault _).map (fun _ => ()) =
                  .ok () := rfl
              rw [hok] at h
              dsimp only at h
              rw [Machine.lower, if_neg (by simp [hopen])] at h
              cases hlower : Lir.lower g'.isDeclared body with
              | error f =>
                  rw [hlower] at h
                  cases h
              | ok l => exact ⟨l, g', ⟨declared, hdeclare⟩, hlower⟩
  | none =>
      dsimp only at h
      rw [Machine.lower, if_neg (by simp [hopen])] at h
      cases hlower : Lir.lower m.globals.isDeclared body with
      | error f =>
          rw [hlower] at h
          cases h
      | ok l => exact ⟨l, m.globals, rfl, hlower⟩

/-- A unit that can be lowered and has code is installed. -/
theorem Lowers.install_eq (h : u.Lowers m.globals l g') (hopen : m.closed = false)
    {is : List Instr} (hcode : (u.generated g'.slot? l).code = .ok is) :
    ∃ op, u.install m = (.ok m.code.size, { m with globals := g' }.extended op is) := by
  obtain ⟨name, pos, body, lir, entry⟩ := u
  obtain ⟨hdeclares, hlower⟩ := h
  cases name with
  | some s =>
      obtain ⟨declared, hdeclare⟩ := hdeclares
      have hcode : (l.generateDefinition g'.slot? s).code = .ok is := hcode
      have hdefine := Machine.defineEntryWith_of_lowered hopen hdeclare id
        (fun m => Lir.lower m.globals.isDeclared body) hlower
      rw [hcode] at hdefine
      exact ⟨"define", congrArg Prod.snd hdefine⟩
  | none =>
      obtain rfl : g' = m.globals := hdeclares
      have hcode : (l.generateEntry m.globals.slot?).code = .ok is := hcode
      have hbody : m.lower body = .ok l := by
        rw [Machine.lower, if_neg (by simp [hopen])]
        exact hlower
      refine ⟨"compile", ?_⟩
      unfold install
      dsimp only
      rw [hbody]
      dsimp only
      rw [Machine.compileEntry_of_open hopen, hcode]

theorem lowers_of_install (hopen : m.closed = false) {e : Nat}
    (h : (u.install m).1 = .ok e) :
    ∃ l g' is, u.Lowers m.globals l g' ∧ (u.generated g'.slot? l).code = .ok is := by
  obtain ⟨name, pos, body, lir, entry⟩ := u
  cases name with
  | some s =>
      rcases m.defineEntryWith_cases s id (fun m => Lir.lower m.globals.isDeclared body) with
        ⟨_, _, heq⟩ | ⟨declared, globals, l, _, is, _, hdeclare, hlower, hcode, _⟩
      · have hanswer := congrArg (fun r => r.2.1) heq
        cases hanswer.symm.trans h
      · exact ⟨l, globals, is, ⟨⟨declared, hdeclare⟩, hlower⟩, hcode⟩
  | none =>
      unfold install at h
      dsimp only at h
      rw [Machine.lower, if_neg (by simp [hopen])] at h
      cases hlower : Lir.lower m.globals.isDeclared body with
      | error f =>
          rw [hlower] at h
          cases h
      | ok l =>
          rw [hlower] at h
          dsimp only at h
          rw [Machine.compileEntry_of_open hopen] at h
          cases hcode : (l.generateEntry m.globals.slot?).code with
          | error f =>
              rw [hcode] at h
              cases h
          | ok is => exact ⟨l, m.globals, is, ⟨rfl, hlower⟩, hcode⟩

/-- A closed machine takes no unit, in whatever way. -/
theorem refused_of_closed (hclosed : m.closed = true) (u : ProgramUnit) :
    (∃ f, (u.lower m).1 = some f) ∧ ∃ f, (u.install m).1 = .error f := by
  obtain ⟨name, pos, body, lir, entry⟩ := u
  have hlower : m.lower body = .error (Machine.closedFault "lower") := if_pos hclosed
  cases name with
  | some s =>
      have hdeclare : m.declare s = (.error (Machine.closedFault "declare"), m) :=
        if_pos hclosed
      have hdefine : m.defineExpr s body =
          (none, .error (Machine.closedFault "define"), m) := if_pos hclosed
      unfold ProgramUnit.lower install
      dsimp only
      rw [hdeclare, hdefine]
      exact ⟨⟨_, rfl⟩, _, rfl⟩
  | none =>
      unfold ProgramUnit.lower install
      dsimp only
      rw [hlower]
      exact ⟨⟨_, rfl⟩, _, rfl⟩

/-- A unit that is lowered, and whose global is declared. -/
structure Pending (g : Globals) (u : ProgramUnit) (l : Lir) : Prop where
  lir : u.lir = some l
  declared : ∀ s, u.name = some s → g.isDeclared s = true

/-- The stage of compiling appends the code of a unit, or fails. -/
theorem Pending.compile_eq (h : u.Pending m.globals l) (hopen : m.closed = false) :
    ∃ op, u.compile m =
      match (u.generated m.globals.slot? l).code with
      | .error f =>
        (some f, { u with lir := some (u.generated m.globals.slot? l).tree, entry := -1 }, m)
      | .ok is =>
        (none, { u with
          lir := some (u.generated m.globals.slot? l).tree, entry := m.code.size },
          m.extended op is) := by
  obtain ⟨name, pos, body, lir, entry⟩ := u
  obtain ⟨rfl, hdeclared⟩ := h
  cases name with
  | some s =>
      obtain ⟨declared, hdeclare⟩ := Globals.declare_of_isDeclared (hdeclared s rfl)
      refine ⟨"define", ?_⟩
      unfold compile Machine.defineEntry
      dsimp only [generated, Option.getD_some]
      rw [Machine.defineEntryWith_of_lowered hopen hdeclare id (fun _ => .ok l) rfl]
      cases (l.generateDefinition m.globals.slot? s).code <;> rfl
  | none =>
      refine ⟨"compile", ?_⟩
      unfold compile
      dsimp only [generated, Option.getD_some]
      rw [Machine.compileEntry_of_open hopen]
      cases (l.generateEntry m.globals.slot?).code <;> rfl

end Unit

/-- Units are lowered one after the other, each against what is declared by then. -/
inductive Lowered : Globals → List ProgramUnit → List ProgramUnit → Globals → Prop where
  | nil (g : Globals) : Lowered g [] [] g
  | cons {u : ProgramUnit} {l : Lir} {units lowered : List ProgramUnit}
      {g g₁ g₂ : Globals} : u.Lowers g l g₁ → Lowered g₁ units lowered g₂ →
      Lowered g (u :: units) ({ u with lir := some l } :: lowered) g₂

/-- Lowered units are compiled one after the other from an offset on. -/
inductive Placed (slot : Symbol → Option Nat) :
    Nat → List ProgramUnit → List ProgramUnit → List UInt8 → Prop where
  | nil (offset : Nat) : Placed slot offset [] [] []
  | cons {u : ProgramUnit} {l : Lir} {is : List Instr} {lowered placed : List ProgramUnit}
      {offset : Nat} {bytes : List UInt8} : u.lir = some l →
      (u.generated slot l).code = .ok is →
      Placed slot (offset + (Instr.encodeAll is).length) lowered placed bytes →
      Placed slot offset (u :: lowered)
        ({ u with lir := some (u.generated slot l).tree, entry := offset } :: placed)
        (Instr.encodeAll is ++ bytes)

/-- A stage that comes to its end has taken the first unit and then the others. -/
theorem eq_none_of_each_cons {σ : Type} {u : ProgramUnit} {rest : List ProgramUnit} {s : σ}
    {step : ProgramUnit → σ → Option Fault × ProgramUnit × σ}
    (h : (each step (u :: rest) s).1 = none) :
    (step u s).1 = none ∧ (each step rest (step u s).2.2).1 = none := by
  rw [each] at h
  generalize step u s = r at *
  obtain ⟨fault, v, t⟩ := r
  cases fault with
  | some f => cases h
  | none => exact ⟨rfl, h⟩

section Units

variable {units lowered placed : List ProgramUnit} {g g' : Globals} {m : Machine}

theorem Lowered.slot? (h : Lowered g units lowered g') {s : Symbol}
    (hs : g.isDeclared s = true) : g'.slot? s = g.slot? s := by
  induction h with
  | nil g => rfl
  | cons hu _ ih =>
      have hslot := hu.slot? hs
      rw [ih ((Globals.isDeclared_of_slot?_eq hslot).trans hs), hslot]

/-- Every unit that is lowered can be compiled when all of them are. -/
theorem Lowered.pending (h : Lowered g units lowered g') :
    ∀ u ∈ lowered, ∃ l, u.Pending g' l := by
  induction h with
  | nil g => exact fun u hu => absurd hu List.not_mem_nil
  | @cons u l units lowered g g₁ g₂ hu hrest ih =>
      refine List.forall_mem_cons.2 ⟨⟨l, rfl, fun s hs => ?_⟩, ih⟩
      have hdeclares := hu.declares
      unfold Declares at hdeclares
      rw [show u.name = some s from hs] at hdeclares
      obtain ⟨_, hdeclare⟩ := hdeclares
      have hknown := Globals.isDeclared_declare hdeclare
      rw [Globals.isDeclared_of_slot?_eq (hrest.slot? hknown), hknown]

/-- Units are lowered alike against tables with the same symbols in their slots. -/
theorem Lowered.level (h : Lowered g units lowered g') {h' : Globals}
    (hlevel : g.Level h') :
    ∃ slots, g' = g.plus slots g'.index ∧
      Lowered h' units lowered (h'.plus slots g'.index) := by
  induction h generalizing h' with
  | nil g =>
      refine ⟨#[], (Globals.plus_nil (.refl g)).symm, ?_⟩
      rw [Globals.plus_nil hlevel]
      exact .nil h'
  | @cons u l units lowered g g₁ g₂ hu hrest ih =>
      obtain ⟨slots, hplus, hu', hlevel'⟩ := hu.level hlevel
      obtain ⟨slots', hplus', hrest'⟩ := ih hlevel'
      rw [Globals.plus_plus] at hrest'
      refine ⟨slots ++ slots', ?_, .cons hu' hrest'⟩
      rw [hplus, Globals.plus_plus] at hplus'
      exact hplus'

/-- The stage of lowering lowers the units in turn. -/
theorem Lowered.each_eq (h : Lowered g units lowered g') (hopen : m.closed = false) :
    each ProgramUnit.lower units { m with globals := g } =
      (none, lowered, { m with globals := g' }) := by
  induction h with
  | nil g => rfl
  | cons hu _ ih =>
      have hlower := Lowers.lower_eq (m := { m with globals := _ }) hu hopen
      rw [each, hlower]
      dsimp only
      rw [ih]

theorem lowered_of_each (hopen : m.closed = false)
    (h : (each ProgramUnit.lower units m).1 = none) :
    ∃ lowered g', Lowered m.globals units lowered g' := by
  induction units generalizing m with
  | nil => exact ⟨[], m.globals, .nil _⟩
  | cons u rest ih =>
      obtain ⟨hfirst, hothers⟩ := eq_none_of_each_cons h
      obtain ⟨l, g₁, hu⟩ := lowers_of_lower hopen hfirst
      rw [hu.lower_eq hopen] at hothers
      obtain ⟨lowered, g₂, hrest⟩ := ih (m := { m with globals := g₁ }) hopen hothers
      exact ⟨_, g₂, .cons hu hrest⟩

/-- The stage of compiling places the code of the units in turn. -/
theorem Placed.each_eq {slot : Symbol → Option Nat} {offset : Nat} {bytes : List UInt8}
    (h : Placed slot offset lowered placed bytes) (hopen : m.closed = false)
    (hslot : m.globals.slot? = slot) (hoffset : m.code.size = offset)
    (hpending : ∀ u ∈ lowered, ∃ l, u.Pending m.globals l) :
    ∃ log, each ProgramUnit.compile lowered m =
      (none, placed, { m with code := m.code.append bytes, log := log }) := by
  induction h generalizing m with
  | nil offset =>
      refine ⟨m.log, ?_⟩
      rw [each, Code.append_nil]
  | @cons u l is lowered placed offset bytes hlir hcode _ ih =>
      subst hslot hoffset
      obtain ⟨⟨l', hu⟩, hrest⟩ := List.forall_mem_cons.1 hpending
      obtain rfl : l = l' := Option.some.inj (hlir.symm.trans hu.lir)
      obtain ⟨op, hcompile⟩ := hu.compile_eq hopen
      obtain ⟨log, heq⟩ := m.extended_eq op is
      rw [hcode] at hcompile
      dsimp only at hcompile
      rw [heq] at hcompile
      obtain ⟨log', hothers⟩ := ih
        (m := { m with code := m.code.append (Instr.encodeAll is), log := log }) hopen rfl
        Code.size_append hrest
      refine ⟨log', ?_⟩
      rw [each, hcompile]
      dsimp only
      rw [hothers, Code.append_append]

theorem placed_of_each (hopen : m.closed = false)
    (hpending : ∀ u ∈ lowered, ∃ l, u.Pending m.globals l)
    (h : (each ProgramUnit.compile lowered m).1 = none) :
    ∃ placed bytes, Placed m.globals.slot? m.code.size lowered placed bytes := by
  induction lowered generalizing m with
  | nil => exact ⟨[], [], .nil _⟩
  | cons u rest ih =>
      obtain ⟨⟨l, hu⟩, hrest⟩ := List.forall_mem_cons.1 hpending
      obtain ⟨hfirst, hothers⟩ := eq_none_of_each_cons h
      obtain ⟨op, hcompile⟩ := hu.compile_eq hopen
      rw [hcompile] at hfirst hothers
      cases hcode : (u.generated m.globals.slot? l).code with
      | error f =>
          rw [hcode] at hfirst
          cases hfirst
      | ok is =>
          rw [hcode] at hothers
          obtain ⟨log, heq⟩ := m.extended_eq op is
          dsimp only at hothers
          rw [heq] at hothers
          obtain ⟨placed, bytes, hplaced⟩ := ih
            (m := { m with code := m.code.append (Instr.encodeAll is), log := log }) hopen
            hrest hothers
          dsimp only at hplaced
          rw [Code.size_append] at hplaced
          exact ⟨_, _, .cons hu.lir hcode hplaced⟩

end Units

end ProgramUnit

end Zinc
