import Zinc.Machine.Compile
import Zinc.Proofs.Code.Emit
import Zinc.Proofs.Globals

/-!
What compiling does to a machine.  A unit that fails to compile leaves the machine as it
was, with the global that was declared for it given up again; a unit that compiles
appends its code, and a definition has its global declared.
-/

namespace Zinc.Machine

/-- Appends generated code, if there is any, and answers where it starts. -/
def install (m : Machine) (op : String) (code : Except Fault (List Instr)) : Reply Nat :=
  match code with
  | .error f => (.error f, m)
  | .ok is =>
    let entry := m.code.size
    let bytes := Instr.encodeAll is
    let m := { m with code := m.code.append bytes }
    (.ok entry, m.logged (compiledRecord op entry bytes.length))

/-- What an emitter has placed is taken over as code that was generated apart. -/
theorem takeOver_placed (m : Machine) (op : String) (g : Generated) :
    m.takeOver op (Emitter.placed { code := m.code } g) =
      (⟨g.tree, (m.install op g.code).1⟩, (m.install op g.code).2) := by
  obtain ⟨tree, code⟩ := g
  cases code with
  | error f => rfl
  | ok is =>
      dsimp only [Emitter.placed, takeOver, install]
      rw [Code.size_append, Nat.add_sub_cancel_left]

/-- Compiling an expression installs the code that is generated for it. -/
theorem compileExpr_eq (m : Machine) (l : Lir) :
    m.compileExpr l =
      (⟨(l.generateEntry m.globals.slot?).tree,
          (m.install "compile" (l.generateEntry m.globals.slot?).code).1⟩,
        (m.install "compile" (l.generateEntry m.globals.slot?).code).2) := by
  rw [compileExpr, Emitter.compileExpr_eq, takeOver_placed]

/-- Compiling a definition installs the code that is generated for it. -/
theorem compileDefinition_eq (m : Machine) (s : Symbol) (l : Lir) :
    m.compileDefinition s l =
      (⟨(l.generateDefinition m.globals.slot? s).tree,
          (m.install "define" (l.generateDefinition m.globals.slot? s).code).1⟩,
        (m.install "define" (l.generateDefinition m.globals.slot? s).code).2) := by
  rw [compileDefinition, Emitter.compileDefinition_eq, takeOver_placed]

/-- The machine after the code of a unit is appended. -/
def extended (m : Machine) (op : String) (is : List Instr) : Machine :=
  (m.install op (.ok is)).2

theorem extended_eq (m : Machine) (op : String) (is : List Instr) :
    ∃ log, m.extended op is =
      { m with code := m.code.append (Instr.encodeAll is), log := log } := by
  rw [extended, install]
  dsimp only
  rw [logged]
  split
  · exact ⟨_, rfl⟩
  · exact ⟨m.log, rfl⟩

section Extended

variable (m : Machine) (op : String) (is : List Instr)

@[simp] theorem code_extended :
    (m.extended op is).code = m.code.append (Instr.encodeAll is) := by
  obtain ⟨log, heq⟩ := m.extended_eq op is
  rw [heq]

@[simp] theorem heap_extended : (m.extended op is).heap = m.heap := by
  obtain ⟨log, heq⟩ := m.extended_eq op is
  rw [heq]

@[simp] theorem regs_extended : (m.extended op is).regs = m.regs := by
  obtain ⟨log, heq⟩ := m.extended_eq op is
  rw [heq]

@[simp] theorem globals_extended : (m.extended op is).globals = m.globals := by
  obtain ⟨log, heq⟩ := m.extended_eq op is
  rw [heq]

@[simp] theorem handles_extended : (m.extended op is).handles = m.handles := by
  obtain ⟨log, heq⟩ := m.extended_eq op is
  rw [heq]

@[simp] theorem closed_extended : (m.extended op is).closed = m.closed := by
  obtain ⟨log, heq⟩ := m.extended_eq op is
  rw [heq]

end Extended

/-- An expression is compiled, or nothing happens. -/
theorem compileEntry_cases (m : Machine) (l : Lir) :
    (∃ tree f, m.compileEntry l = (⟨tree, .error f⟩, m)) ∨
    ∃ tree is, m.closed = false ∧
      (l.generateEntry m.globals.slot?).code = .ok is ∧
      m.compileEntry l = (⟨tree, .ok m.code.size⟩, m.extended "compile" is) := by
  rw [compileEntry]
  by_cases hclosed : m.closed = true
  · rw [if_pos hclosed]
    exact Or.inl ⟨_, _, rfl⟩
  · rw [if_neg hclosed, compileExpr_eq]
    cases hcode : (l.generateEntry m.globals.slot?).code with
    | error f => exact Or.inl ⟨_, _, rfl⟩
    | ok is =>
        exact Or.inr ⟨_, is, Bool.eq_false_iff.2 hclosed, rfl, rfl⟩

/-- A declaration that is given up leaves the table as it was. -/
theorem giveUp_eq {m : Machine} {s : Symbol} {declared : Globals.Declared}
    {globals : Globals} (h : m.globals.declare s = (.ok declared, globals)) :
    (if declared.fresh then { m with globals := globals.undeclare s }
      else { m with globals := globals }) = m := by
  obtain ⟨slot, fresh⟩ := declared
  cases fresh with
  | true => rw [if_pos rfl, Globals.undeclare_declare h]
  | false =>
      rw [if_neg Bool.false_ne_true]
      -- a symbol that had a slot leaves the table alone
      rw [Globals.declare] at h
      split at h
      · obtain ⟨_, rfl⟩ := Prod.mk.inj h
        rfl
      · dsimp only at h
        split at h
        · simp at h
        · simp at h

/-- A global is declared and its definition compiled, or nothing happens. -/
theorem defineEntryWith_cases {ε : Type} (m : Machine) (s : Symbol)
    (refuse : Fault → ε) (lower : Machine → Except ε Lir) :
    (∃ tree f, m.defineEntryWith s refuse (fun m => (lower m, m)) =
      (tree, .error f, m)) ∨
    ∃ declared globals l tree is, m.closed = false ∧
      m.globals.declare s = (.ok declared, globals) ∧
      lower { m with globals := globals } = .ok l ∧
      (l.generateDefinition globals.slot? s).code = .ok is ∧
      m.defineEntryWith s refuse (fun m => (lower m, m)) =
        (tree, .ok m.code.size,
          { m with globals := globals }.extended "define" is) := by
  unfold defineEntryWith
  by_cases hclosed : m.closed = true
  · rw [if_pos hclosed]
    exact Or.inl ⟨_, _, rfl⟩
  · rw [if_neg hclosed]
    cases hdeclare : m.globals.declare s with
    | mk answer globals =>
        cases answer with
        | error f =>
            refine Or.inl ⟨none, refuse f, ?_⟩
            -- a full table is left alone
            have hsame : globals = m.globals := by
              rw [Globals.declare] at hdeclare
              split at hdeclare
              · simp at hdeclare
              · dsimp only at hdeclare
                split at hdeclare
                · exact (Prod.mk.inj hdeclare).2.symm
                · simp at hdeclare
            rw [hsame]
        | ok declared =>
            have hundo := giveUp_eq hdeclare
            dsimp only
            cases hlower : lower { m with globals := globals } with
            | error e =>
                exact Or.inl ⟨none, e,
                  congrArg (fun m' => (none, Except.error e, m')) hundo⟩
            | ok l =>
                dsimp only
                rw [compileDefinition_eq]
                dsimp only
                cases hcode : (l.generateDefinition globals.slot? s).code with
                | error f =>
                    exact Or.inl ⟨_, refuse f, congrArg
                      (fun m' => (some _, Except.error (refuse f), m')) hundo⟩
                | ok is =>
                    exact Or.inr ⟨declared, globals, l, _, is,
                      Bool.eq_false_iff.2 hclosed, rfl, hlower, hcode, rfl⟩

end Zinc.Machine
