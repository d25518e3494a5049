import Zinc.Code.Emit
import Zinc.Proofs.Code.Generate
import Zinc.Proofs.Code.Layout

/-!
Writing in place and generating apart.  An emitter works inside a code area that is not
its own: it overwrites placeholders at absolute offsets, and what it has written when it
is stopped is cut off again.  All the same it appends exactly the code that is generated
for the unit on its own, or nothing.  Neither the code that is already there nor what
earlier units have left in the emitter makes a difference.
-/

namespace Zinc

namespace Code

/-- The length of a closure is written over the placeholder behind its opcode, and over
nothing else. -/
theorem patch16?_closure (c : Code) (body : List UInt8) (first length : UInt16) :
    (c.append ((Instr.closure first).encode ++ body)).patch16? ((c.size + 1 : Nat) : Int) length =
      some (c.append ((Instr.closure length).encode ++ body)) := by
  have hinside : ¬ (((c.size + 1 : Nat) : Int) < 0 ∨
      (c.append ((Instr.closure first).encode ++ body)).size <
        ((c.size + 1 : Nat) : Int).toNat + 2) := by
    rw [size_append, List.length_append, Instr.length_encode, Int.toNat_natCast]
    simp only [Instr.size, Instr.opcode, Opcode.width]
    omega
  rw [patch16?, if_neg hinside]
  simp only [Word.bytes16]
  congr 1
  apply ext_bytes
  simp only [Array.toList_setIfInBounds, toList_append, Int.toNat_natCast]
  have hsize : c.size = c.bytes.toList.length := by simp [size]
  rw [hsize, List.set_append_right _ _ (by omega), List.set_append_right _ _ (by omega)]
  simp only [Nat.add_assoc, Nat.add_sub_cancel_left]
  rfl

end Code

namespace Emitter

/-- The emitter after it has written some instructions. -/
def wrote (c : Emitter) (is : List Instr) : Emitter :=
  { c with code := c.code.append (Instr.encodeAll is) }

theorem wrote_nil (c : Emitter) : c.wrote [] = c := by
  rw [wrote, Instr.encodeAll_nil, Code.append_nil]

theorem wrote_wrote (c : Emitter) (is js : List Instr) :
    (c.wrote is).wrote js = c.wrote (is ++ js) := by
  rw [wrote, wrote, wrote, Instr.encodeAll_append, ← Code.append_append]

theorem write_eq (c : Emitter) (i : Instr) : c.write i = c.wrote [i] := by
  rw [write, wrote, Instr.encodeAll_cons, Instr.encodeAll_nil, List.append_nil]

theorem foldl_write (c : Emitter) (is : List Instr) : is.foldl write c = c.wrote is := by
  induction is generalizing c with
  | nil => exact c.wrote_nil.symm
  | cons i rest ih => rw [List.foldl_cons, ih, write_eq, wrote_wrote, List.singleton_append]

theorem older_wrote (c : Emitter) (is : List Instr) :
    c.code.bytes.toList <+: (c.wrote is).code.bytes.toList := by
  rw [wrote, Code.toList_append]
  exact List.prefix_append _ _

/-- Going into a scope and out of it again only leaves what was written in between. -/
theorem leave_wrote_enter (c : Emitter) (id : Nat) (is : List Instr) :
    ((c.enter id).wrote is).leave = c.wrote is := rfl

theorem settle_wrote (c : Emitter) (p : Position) (is : List Instr) :
    (c.wrote is).settle p = c.wrote (Lir.settle p is) := by
  cases p with
  | value | head => rfl
  | tail => exact ((c.wrote is).write_eq .ret).trans (c.wrote_wrote is [.ret])

/-- What is written first for a call. -/
def callPrelude : Position → List Instr
  | .value => [.pushMark]
  | _ => []

theorem openCall_eq (c : Emitter) (p : Position) : c.openCall p = c.wrote (callPrelude p) := by
  cases p with
  | value => exact c.write_eq .pushMark
  | head | tail => exact c.wrote_nil.symm

theorem closeCall_wrote (c : Emitter) (p : Position) (spine : List Instr) :
    (c.wrote (callPrelude p ++ spine)).closeCall p = c.wrote (Lir.closeCall p spine) := by
  cases p with
  | value =>
      rw [closeCall, write_eq, wrote_wrote]
      rfl
  | head => rfl
  | tail =>
      rw [closeCall, write_eq, wrote_wrote]
      rfl

/-- Writing an expression against generating its code: all of the code was written and the
scope is what it was, or writing stopped with the same fault and with the older code
still in place. -/
inductive Emits (c : Emitter) : Generated → Emitted → Prop where
  | done (tree : Lir) (is : List Instr) : Emits c ⟨tree, .ok is⟩ ⟨tree, none, c.wrote is⟩
  | stopped (tree : Lir) (f : Fault) {after : Emitter} :
      c.code.bytes.toList <+: after.code.bytes.toList →
      Emits c ⟨tree, .error f⟩ ⟨tree, some f, after⟩

/-- What is written first for a function. -/
def bodyPrelude : Position → List Instr
  | .tail => [.grab]
  | _ => [.closure 0xffff, .grab]

theorem openBody_eq (c : Emitter) (p : Position) : c.openBody p = c.wrote (bodyPrelude p) := by
  cases p with
  | tail => exact c.write_eq .grab
  | value | head =>
      change (c.write (.closure 0xffff)).write .grab = _
      rw [write_eq, write_eq, wrote_wrote]
      rfl

/-- The length that is found when a body is complete is the length of its code. -/
theorem length_behind (c : Emitter) (length : UInt16) (body : List Instr) :
    (c.wrote (.closure length :: body)).code.size - (c.code.size + 1) - 2 =
      Instr.sizeAll body := by
  have hsize : (c.wrote (.closure length :: body)).code.size =
      c.code.size + (3 + Instr.sizeAll body) := by
    rw [wrote, Code.size_append, Instr.length_encodeAll, Instr.sizeAll_cons]
    rfl
  omega

theorem patched_wrote (c : Emitter) (first length : UInt16) (body : List Instr) :
    (c.wrote (.closure first :: body)).code.patch16? ((c.code.size + 1 : Nat) : Int) length =
      some (c.wrote (.closure length :: body)).code := by
  rw [wrote, Instr.encodeAll_cons, Code.patch16?_closure, wrote, Instr.encodeAll_cons]

/-- A function whose body is complete: its length is too large, or it replaces the
placeholder. -/
theorem emits_closeBody (c : Emitter) (p : Position) (tree : Lir) (code : List Instr) :
    let closed := (c.wrote (bodyPrelude p ++ code)).closeBody p c.code.size
    Emits c ⟨tree, Lir.closeOver p (.grab :: code)⟩ ⟨tree, closed.1, closed.2⟩ := by
  have hclosure : Emits c ⟨tree, Lir.closeOver .value (.grab :: code)⟩
      ⟨tree, ((c.wrote (.closure 0xffff :: .grab :: code)).closeBody .value c.code.size).1,
        ((c.wrote (.closure 0xffff :: .grab :: code)).closeBody .value c.code.size).2⟩ := by
    unfold closeBody Lir.closeOver
    dsimp only
    rw [length_behind]
    split
    · exact .stopped _ _ (c.older_wrote _)
    · rw [patched_wrote]
      exact .done _ _
  cases p with
  | value | head => exact hclosure
  | tail => exact .done _ _

/-- The instruction that yields a value, after those that it needs. -/
theorem Emits.settle (c : Emitter) (tree : Lir) (p : Position) (is : List Instr) (i : Instr) :
    Emits c ⟨tree, .ok (Lir.settle p (is ++ [i]))⟩
      ⟨tree, none, ((c.wrote is).write i).settle p⟩ := by
  rw [write_eq, wrote_wrote, settle_wrote]
  exact .done _ _

theorem Emits.load (c : Emitter) (tree : Lir) (p : Position) (i : Instr) :
    Emits c ⟨tree, .ok (Lir.settle p [i])⟩ ⟨tree, none, (c.write i).settle p⟩ := by
  have h := Emits.settle c tree p [] i
  rwa [wrote_nil] at h

theorem Emits.refused (c : Emitter) (tree : Lir) (f : Fault) :
    Emits c ⟨tree, .error f⟩ ⟨tree, some f, c⟩ :=
  .stopped tree f (List.prefix_refl _)

end Emitter

namespace Lir

open Emitter

variable {slot : Symbol → Option Nat}

mutual

/-- Writing an expression in place appends the code that is generated for it apart. -/
theorem emits_generate : (l : Lir) → (p : Position) → (c : Emitter) →
    Emits c (generate slot c.scope p l) (emit slot p c l)
  | .int value, p, c => by
      rw [generate, emit]
      exact .load c _ p _
  | .var origin depth, p, c => by
      rw [generate, emit]
      cases c.scope.idxOf? origin with
      | none => exact .refused c _ _
      | some index =>
          dsimp only
          split
          · exact .refused c _ _
          · exact .load c _ p _
  | .global symbol, p, c => by
      rw [generate, emit]
      cases slot symbol with
      | none => exact .refused c _ _
      | some i => exact .load c _ p _
  | .app fn arg, p, c => by
      have harg : Emits _ (generate slot c.scope .value arg) _ :=
        emits_generate arg .value (c.wrote (callPrelude p))
      rw [generate, emit, openCall_eq]
      generalize generate slot c.scope .value arg = g at harg ⊢
      generalize emit slot .value (c.wrote (callPrelude p)) arg = r at harg ⊢
      cases harg with
      | stopped tree f hpre => exact .stopped _ _ ((c.older_wrote _).trans hpre)
      | done tree argCode =>
          have hfn : Emits _ (generate slot c.scope .head fn) _ :=
            emits_generate fn .head (c.wrote (callPrelude p ++ (argCode ++ [.push])))
          dsimp only
          rw [write_eq, wrote_wrote, wrote_wrote]
          generalize generate slot c.scope .head fn = g at hfn ⊢
          generalize emit slot .head (c.wrote (callPrelude p ++ (argCode ++ [.push]))) fn = r
            at hfn ⊢
          cases hfn with
          | stopped tree f hpre => exact .stopped _ _ ((c.older_wrote _).trans hpre)
          | done tree fnCode =>
              dsimp only
              rw [wrote_wrote, List.append_assoc, List.append_assoc, closeCall_wrote]
              exact .done _ _
  | .lam id body, p, c => by
      have hbody : Emits _ (generate slot (id :: c.scope) .tail body) _ :=
        emits_generate body .tail ((c.wrote (bodyPrelude p)).enter id)
      rw [generate, emit, openBody_eq]
      dsimp only
      generalize generate slot (id :: c.scope) .tail body = g at hbody ⊢
      generalize emit slot .tail ((c.wrote (bodyPrelude p)).enter id) body = r at hbody ⊢
      cases hbody with
      | stopped tree f hpre => exact .stopped _ _ ((c.older_wrote _).trans hpre)
      | done tree code =>
          dsimp only
          rw [leave_wrote_enter, wrote_wrote]
          exact emits_closeBody c p _ code
  | .letIn id value body, p, c => by
      have hvalue : Emits _ (generate slot c.scope .value value) _ :=
        emits_generate value .value c
      rw [generate_letIn_eq, emit]
      generalize generate slot c.scope .value value = g at hvalue ⊢
      generalize emit slot .value c value = r at hvalue ⊢
      cases hvalue with
      | stopped tree f hpre => exact .stopped _ _ hpre
      | done tree valueCode =>
          have hbody : Emits _ (generate slot (id :: c.scope) p.ofBody body) _ :=
            emits_generate body p.ofBody ((c.wrote (valueCode ++ [.bind])).enter id)
          dsimp only
          rw [write_eq, wrote_wrote]
          generalize generate slot (id :: c.scope) p.ofBody body = g at hbody ⊢
          generalize emit slot p.ofBody ((c.wrote (valueCode ++ [.bind])).enter id) body = r
            at hbody ⊢
          cases hbody with
          | stopped tree f hpre => exact .stopped _ _ ((c.older_wrote _).trans hpre)
          | done tree code =>
              dsimp only
              rw [leave_wrote_enter, wrote_wrote, write_eq, wrote_wrote,
                List.append_assoc valueCode]
              exact .done _ _
  | .block kind fields, p, c => by
      rw [generate, emit]
      dsimp only
      split
      · exact .refused c _ _
      · have hfields := emits_generateFields kind fields [] [] c
        rw [wrote_nil, List.reverse_nil] at hfields
        generalize generateFields slot c.scope fields [] [] = g at hfields ⊢
        generalize emitFields slot c fields [] = r at hfields ⊢
        obtain ⟨trees, code⟩ := g
        obtain ⟨trees', fault, after⟩ := r
        cases hfields with
        | stopped tree f hpre => exact .stopped _ _ hpre
        | done tree is => exact .settle c _ p is _
  | .missing, p, c => by
      rw [generate, emit]
      exact .refused c _ _

/-- The fields of a block, written after the code `before` of the fields before them. -/
theorem emits_generateFields (kind : UInt8) : (fields done : List Lir) →
    (before : List Instr) → (c : Emitter) →
    let generated := generateFields slot c.scope fields done before.reverse
    let emitted := emitFields slot (c.wrote before) fields done
    Emits c ⟨.block kind generated.1, generated.2⟩
      ⟨.block kind emitted.1, emitted.2.1, emitted.2.2⟩
  | [], done, before, c => by
      rw [generateFields, emitFields, List.reverse_reverse]
      exact .done _ _
  | field :: rest, done, before, c => by
      have hfield : Emits _ (generate slot c.scope .value field) _ :=
        emits_generate field .value (c.wrote before)
      rw [generateFields, emitFields]
      dsimp only
      generalize generate slot c.scope .value field = g at hfield ⊢
      generalize emit slot .value (c.wrote before) field = r at hfield ⊢
      cases hfield with
      | stopped tree f hpre => exact .stopped _ _ ((c.older_wrote _).trans hpre)
      | done tree code =>
          have hrest := emits_generateFields kind rest (tree :: done)
            (before ++ code ++ [.push]) c
          dsimp only
          rw [write_eq, wrote_wrote, wrote_wrote]
          simpa [List.reverseAux_eq] using hrest

end

end Lir

namespace Emitter

/-- The emitter and the unit after the generated code was appended, or nothing was. -/
def placed (c : Emitter) (g : Generated) : Compiled × Emitter :=
  match g.code with
  | .ok is => (⟨g.tree, .ok c.code.size⟩, { code := c.code.append (Instr.encodeAll is) })
  | .error f => (⟨g.tree, .error f⟩, { code := c.code })

/-- The last instructions of a unit. -/
theorem Emits.finish {c : Emitter} {g : Generated} {r : Emitted} (h : Emits c g r)
    (is : List Instr) :
    Emits c ⟨g.tree, g.code.map (· ++ is)⟩ (Emitter.finish r is) := by
  cases h with
  | stopped tree f hpre => exact .stopped tree f hpre
  | done tree code =>
      rw [Emitter.finish]
      dsimp only
      rw [foldl_write, wrote_wrote]
      exact .done tree _

/-- A unit is written in an empty scope, whatever the emitter has been used for before. -/
theorem Emits.compile {c : Emitter} {g : Generated} {unit : Emitter → Emitted}
    (h : Emits { code := c.code } g (unit { code := c.code })) :
    c.compile unit = c.placed g := by
  unfold Emitter.compile
  dsimp only
  generalize unit { code := c.code } = r at h ⊢
  cases h with
  | done tree is => rfl
  | stopped tree f hpre =>
      dsimp only [placed]
      rw [Code.take_size_eq hpre]

theorem compileExpr_eq (c : Emitter) (slot : Symbol → Option Nat) (e : Lir) :
    c.compileExpr slot e = c.placed (e.generateEntry slot) :=
  Emits.compile ((Lir.emits_generate e .value { code := c.code }).finish [.ret])

theorem compileDefinition_eq (c : Emitter) (slot : Symbol → Option Nat) (s : Symbol)
    (e : Lir) : c.compileDefinition slot s e = c.placed (e.generateDefinition slot s) := by
  apply Emits.compile
  rw [Lir.generateDefinition]
  cases slot s with
  | none => exact .refused _ _ _
  | some i =>
      exact (Lir.emits_generate e .value { code := c.code }).finish
        [.setGlobal (UInt16.ofNat i), .ret]

/-- What compiling a unit did to the code area: `outcome` was appended to it, and the unit
starts where the code ended, or the unit was refused and the code is what it was. -/
inductive Appends (c : Emitter) : Except Fault (List UInt8) → Compiled × Emitter → Prop where
  | appended {tree : Lir} {bytes : List UInt8} {after : Emitter} :
      after.code.bytes.toList = c.code.bytes.toList ++ bytes →
      Appends c (.ok bytes) (⟨tree, .ok c.code.size⟩, after)
  | refused {tree : Lir} {f : Fault} {after : Emitter} :
      after.code = c.code → Appends c (.error f) (⟨tree, .error f⟩, after)

theorem appends_placed (c : Emitter) (g : Generated) :
    Appends c (g.code.map Instr.encodeAll) (c.placed g) := by
  obtain ⟨tree, code⟩ := g
  cases code with
  | ok is => exact .appended Code.toList_append
  | error f => exact .refused rfl

/-- The older code is still in place, whether all was written or not. -/
theorem Emits.older {c : Emitter} {g : Generated} {r : Emitted} (h : Emits c g r) :
    c.code.bytes.toList <+: r.after.code.bytes.toList := by
  cases h with
  | done tree is => exact c.older_wrote is
  | stopped tree f hpre => exact hpre

/-- Compilation only appends, and where it appends makes no difference.  An expression or
a definition is refused and leaves the code area as it was, or it starts where the code
ended and appends bytes that are given by the tree and the slots of the globals: they are
the same for every code area and whatever the emitter was used for before.  While code is
being written, and placeholders in it are overwritten, no older byte changes, even if
writing is stopped. -/
theorem compilation_appends (slot : Symbol → Option Nat) (s : Symbol) (e : Lir)
    (c : Emitter) :
    Appends c ((e.generateEntry slot).code.map Instr.encodeAll) (c.compileExpr slot e) ∧
      Appends c ((e.generateDefinition slot s).code.map Instr.encodeAll)
        (c.compileDefinition slot s e) ∧
      ∀ p : Position, c.code.bytes.toList <+: (e.emit slot p c).after.code.bytes.toList := by
  refine ⟨?_, ?_, fun p => ?_⟩
  · rw [compileExpr_eq]
    exact c.appends_placed _
  · rw [compileDefinition_eq]
    exact c.appends_placed _
  · exact (Lir.emits_generate e p c).older

end Emitter

end Zinc
