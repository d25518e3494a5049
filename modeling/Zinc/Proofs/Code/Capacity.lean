import Zinc.Proofs.Code.Emit
import Zinc.Proofs.Expr.Scope
import Zinc.Proofs.Globals

/-!
What can be encoded.  The code of an expression is spelled out with operands that can be
any number, and its length is counted, both from the expression alone.  The generator
writes exactly that code when each operand fits its field, which can be read off the nodes
of the expression one by one: the distance of a variable from its binder, the length of a
function body and the number of fields of a tuple.  Where one of them does not fit, the
expression is refused and no operand is ever cut.
-/

namespace Zinc

/-- An instruction whose operand can be any number. -/
structure WideInstr where
  opcode : Opcode
  operand : Int := 0
deriving DecidableEq, Repr

/-- An instruction with its operand as a number. -/
def Instr.widen (i : Instr) : WideInstr :=
  ⟨i.opcode, i.operand⟩

namespace Position

/-- What hands on the value in the accumulator. -/
def settled : Position → List WideInstr
  | .tail => [{ opcode := .ret }]
  | _ => []

/-- The code of a call around its arguments and its function. -/
def called (p : Position) (spine : List WideInstr) : List WideInstr :=
  match p with
  | .value => { opcode := .pushMark } :: spine ++ [{ opcode := .apply }]
  | .head => spine
  | .tail => spine ++ [{ opcode := .appTerm }]

/-- The code of a function around a body of so many bytes. -/
def closed (p : Position) (length : Nat) (body : List WideInstr) : List WideInstr :=
  match p with
  | .tail => body
  | _ => ⟨.closure, length⟩ :: body

/-- The bytes that hand on a value. -/
def settledSize : Position → Nat
  | .tail => 1
  | _ => 0

/-- The bytes of a call besides those of its arguments and its function. -/
def calledSize : Position → Nat
  | .value => 2
  | .head => 0
  | .tail => 1

/-- The bytes of a function besides those of its body. -/
def closedSize : Position → Nat
  | .tail => 0
  | _ => 3

end Position

namespace Expr

mutual

/-- The number of bytes that the code of an expression takes. -/
def codeSize (p : Position) : Expr → Nat
  | .lam _ _ body => p.closedSize + (1 + body.codeSize .tail)
  | .app _ fn arg => p.calledSize + (arg.codeSize .value + (1 + fn.codeSize .head))
  | .letIn _ _ value body => value.codeSize .value + (1 + body.codeSize p.ofBody) + 1
  | .tuple _ fields => fieldsSize fields + 3 + p.settledSize
  | .var _ _ => 2 + p.settledSize
  | .global _ _ => 3 + p.settledSize
  | .int _ _ => 9 + p.settledSize
  | .missing => 0

/-- The number of bytes that the code of the fields of a tuple takes. -/
def fieldsSize : List Expr → Nat
  | [] => 0
  | field :: rest => field.codeSize .value + (1 + fieldsSize rest)

end

mutual

/-- The code of an expression inside the bodies of `binders`, innermost first.  A variable
is the number of binders between it and its own, and a closure has the length of its
body. -/
def spelling (slot : Symbol → Option Nat) (binders : List Binder) (p : Position) :
    Expr → List WideInstr
  | .lam _ param body =>
    p.closed (1 + body.codeSize .tail)
      ({ opcode := .grab } :: body.spelling slot (param :: binders) .tail)
  | .app _ fn arg =>
    p.called (arg.spelling slot binders .value ++
      { opcode := .push } :: fn.spelling slot binders .head)
  | .letIn _ binder value body =>
    value.spelling slot binders .value ++
      { opcode := .bind } :: body.spelling slot (binder :: binders) p.ofBody ++
      [{ opcode := .unbind }]
  | .tuple _ fields =>
    fieldsSpelling slot binders fields ++ [⟨.makeBlock, fields.length⟩] ++ p.settled
  | .var _ binder => ⟨.access, (binder.map binders.idxOf).getD 0⟩ :: p.settled
  | .global _ symbol => ⟨.getGlobal, (symbol.bind slot).getD 0⟩ :: p.settled
  | .int _ value => ⟨.int64, value.toInt⟩ :: p.settled
  | .missing => []

/-- The code that pushes the fields of a tuple. -/
def fieldsSpelling (slot : Symbol → Option Nat) (binders : List Binder) :
    List Expr → List WideInstr
  | [] => []
  | field :: rest =>
    field.spelling slot binders .value ++
      { opcode := .push } :: fieldsSpelling slot binders rest

end

end Expr

namespace Occurrence

/-- The operand of a node fits its field: a variable is near enough to its binder, a
function that becomes a closure is short enough, and a tuple has few enough fields. -/
def Fits (o : Occurrence) : Prop :=
  match o.node with
  | .var _ (some b) => o.binders.idxOf b ≤ maxAccessIndex
  | .lam _ _ body => o.position ≠ .tail → 1 + body.codeSize .tail ≤ maxBodyLength
  | .tuple _ fields => fields.length ≤ maxBlockFields
  | _ => True

instance (o : Occurrence) : Decidable o.Fits :=
  match o with
  | ⟨_, binders, .var _ (some b)⟩ =>
    inferInstanceAs (Decidable (binders.idxOf b ≤ maxAccessIndex))
  | ⟨p, _, .lam _ _ body⟩ =>
    inferInstanceAs (Decidable (p ≠ .tail → 1 + body.codeSize .tail ≤ maxBodyLength))
  | ⟨_, _, .tuple _ fields⟩ => inferInstanceAs (Decidable (fields.length ≤ maxBlockFields))
  | ⟨_, _, .var _ none⟩ | ⟨_, _, .app _ _ _⟩ | ⟨_, _, .letIn _ _ _ _⟩ | ⟨_, _, .global _ _⟩
  | ⟨_, _, .int _ _⟩ | ⟨_, _, .missing⟩ => .isTrue trivial

/-- A fault for an operand of one of the nodes that does not fit. -/
structure Exceeds (os : List Occurrence) (f : Fault) : Prop where
  unfit : ∃ o ∈ os, ¬ o.Fits
  kind : f.kind = .capacity
  cause : f.cause = .operandRange

theorem Exceeds.mono {os os' : List Occurrence} {f : Fault} (h : Exceeds os f)
    (hsub : os ⊆ os') : Exceeds os' f := by
  obtain ⟨o, ho, hunfit⟩ := h.unfit
  exact ⟨⟨o, hsub ho, hunfit⟩, h.kind, h.cause⟩

end Occurrence

theorem toNat_ofNat8 {n : Nat} (h : n ≤ maxAccessIndex) : (UInt8.ofNat n).toNat = n := by
  rw [maxAccessIndex] at h
  rw [UInt8.toNat_ofNat', Nat.mod_eq_of_lt (by omega)]

theorem toNat_ofNat16 {n : Nat} (h : n ≤ 0xffff) : (UInt16.ofNat n).toNat = n := by
  rw [UInt16.toNat_ofNat', Nat.mod_eq_of_lt (by omega)]

/-- The instructions take the bytes that were counted, and they are those that were
spelled out if every slot that is in use fits its field. -/
structure Spells (slot : Symbol → Option Nat) (size : Nat) (spelling : List WideInstr)
    (is : List Instr) : Prop where
  size_eq : Instr.sizeAll is = size
  widen_eq : (∀ s i, slot s = some i → i ≤ maxGlobalSlot) → is.map Instr.widen = spelling

namespace Spells

variable {slot : Symbol → Option Nat} {size size' : Nat} {spelling spelling' : List WideInstr}
  {is js : List Instr}

theorem nil : Spells slot 0 [] [] := ⟨rfl, fun _ => rfl⟩

/-- One instruction, whose operand is known if the slots fit. -/
theorem single (i : Instr) {operand : Int}
    (h : (∀ s i, slot s = some i → i ≤ maxGlobalSlot) → i.operand = operand) :
    Spells slot i.size [⟨i.opcode, operand⟩] [i] where
  size_eq := by simp
  widen_eq := fun hslots => by rw [← h hslots]; rfl

theorem one (i : Instr) : Spells slot i.size [i.widen] [i] :=
  single i fun _ => rfl

theorem append (h : Spells slot size spelling is) (h' : Spells slot size' spelling' js) :
    Spells slot (size + size') (spelling ++ spelling') (is ++ js) where
  size_eq := by rw [Instr.sizeAll_append, h.size_eq, h'.size_eq]
  widen_eq := fun hslots => by rw [List.map_append, h.widen_eq hslots, h'.widen_eq hslots]

theorem cons (i : Instr) (h : Spells slot size spelling is) :
    Spells slot (i.size + size) (i.widen :: spelling) (i :: is) :=
  (one i).append h

theorem settle (h : Spells slot size spelling is) (p : Position) :
    Spells slot (size + p.settledSize) (spelling ++ p.settled) (Lir.settle p is) := by
  cases p with
  | value | head =>
      change Spells slot size (spelling ++ []) is
      rwa [List.append_nil]
  | tail => exact h.append (one .ret)

theorem closeCall (h : Spells slot size spelling is) (p : Position) :
    Spells slot (p.calledSize + size) (p.called spelling) (Lir.closeCall p is) := by
  cases p with
  | value =>
      have hcall := (h.cons .pushMark).append (one .apply)
      have hsize : 1 + size + 1 = 2 + size := by omega
      exact ⟨hcall.size_eq.trans hsize, hcall.widen_eq⟩
  | head => exact ⟨h.size_eq.trans (Nat.zero_add _).symm, h.widen_eq⟩
  | tail =>
      have hcall := h.append (one .appTerm)
      exact ⟨hcall.size_eq.trans (Nat.add_comm _ _), hcall.widen_eq⟩

end Spells

namespace Lir

/-- No two of the binders in scope and those of a tree share a node. -/
def Apart (scope : Scope) (l : Lir) : Prop :=
  (scope.map Prod.snd ++ l.binders).Nodup

namespace Apart

variable {scope : Scope} {id : Nat} {l body fn arg : Lir}

theorem scope_nodup (h : Apart scope l) : (scope.map Prod.snd).Nodup :=
  (List.nodup_append.1 h).1

theorem of_sublist {l' : Lir} (h : Apart scope l) (hsub : l'.binders.Sublist l.binders) :
    Apart scope l' :=
  List.Nodup.sublist (List.Sublist.append_left hsub _) h

theorem enter (h : Apart scope l) (hsub : (id :: body.binders).Sublist l.binders)
    (b : Binder) : Apart ((b, id) :: scope) body := by
  have hmiddle : (scope.map Prod.snd ++ id :: body.binders).Nodup :=
    List.Nodup.sublist (List.Sublist.append_left hsub _) h
  exact (List.perm_middle.nodup_iff).1 hmiddle

end Apart

theorem idxOf?_of_split {before after : List Nat} {id : Nat} (h : id ∉ before) :
    (before ++ id :: after).idxOf? id = some before.length := by
  induction before with
  | nil => simp [List.idxOf?_cons]
  | cons first rest ih =>
      have hfirst : first ≠ id := fun heq => h (heq ▸ List.mem_cons_self)
      have hrest : id ∉ rest := fun hmem => h (List.mem_cons_of_mem _ hmem)
      rw [List.cons_append, List.idxOf?_cons, ih hrest]
      simp [hfirst]

/-- The innermost binder that is a variable's own is found by its node, at the distance
that it has among the binders. -/
theorem distance_of_innermost {before after : Scope} {b : Binder} {id : Nat}
    (hnodup : ((before ++ (b, id) :: after).map Prod.snd).Nodup)
    (hbefore : ∀ entry ∈ before, entry.1 ≠ b) :
    ((before ++ (b, id) :: after).map Prod.snd).idxOf? id = some before.length ∧
      ((before ++ (b, id) :: after).map Prod.fst).idxOf b = before.length := by
  rw [List.map_append, List.map_cons] at hnodup ⊢
  rw [List.map_append, List.map_cons]
  have hid : id ∉ before.map Prod.snd := fun hmem =>
    (List.nodup_append.1 hnodup).2.2 id hmem id List.mem_cons_self rfl
  have hb : b ∉ before.map Prod.fst := fun hmem => by
    obtain ⟨entry, hentry, heq⟩ := List.mem_map.1 hmem
    exact hbefore entry hentry heq
  constructor
  · rw [idxOf?_of_split hid, List.length_map]
  · rw [List.idxOf_append, if_neg hb]
    simp

/-- What generating the code of a lowered expression comes to: the operands of all nodes
fit and the code is what was spelled out, or one of them does not. -/
inductive Encodes (declared : Symbol → Bool) (slot : Symbol → Option Nat) (scope : Scope)
    (p : Position) (e : Expr) : Generated → Prop where
  | fits {tree : Lir} {is : List Instr} :
      (∀ o ∈ e.occurrences p (scope.map Prod.fst), o.Fits) →
      Lowered declared id scope e tree →
      Spells slot (e.codeSize p) (e.spelling slot (scope.map Prod.fst) p) is →
      Encodes declared slot scope p e ⟨tree, .ok is⟩
  | exceeds {tree : Lir} {f : Fault} :
      Occurrence.Exceeds (e.occurrences p (scope.map Prod.fst)) f →
      Encodes declared slot scope p e ⟨tree, .error f⟩

/-- The same for the fields of a tuple, which come after the fields `done` and their code
`before`, both in reverse. -/
inductive EncodesFields (declared : Symbol → Bool) (slot : Symbol → Option Nat)
    (scope : Scope) (done : List Lir) (before : List Instr) (fields : List Expr) :
    List Lir × Except Fault (List Instr) → Prop where
  | fits {trees : List Lir} {is : List Instr} :
      (∀ o ∈ Expr.fieldOccurrences (scope.map Prod.fst) fields, o.Fits) →
      trees.length = fields.length →
      (∀ x ∈ fields.zip trees, Lowered declared id scope x.1 x.2) →
      Spells slot (Expr.fieldsSize fields)
        (Expr.fieldsSpelling slot (scope.map Prod.fst) fields) is →
      EncodesFields declared slot scope done before fields
        (done.reverse ++ trees, .ok (before.reverse ++ is))
  | exceeds {trees : List Lir} {f : Fault} :
      Occurrence.Exceeds (Expr.fieldOccurrences (scope.map Prod.fst) fields) f →
      EncodesFields declared slot scope done before fields (trees, .error f)

variable {declared : Symbol → Bool} {slot : Symbol → Option Nat}

/-- A function whose body fits is too long for a closure, or it fits as well. -/
theorem Encodes.lam {scope : Scope} {p : Position} {pos : Pos} {param : Binder} {n : Nat}
    {body : Expr} {tree : Lir} {is : List Instr}
    (hall : ∀ o ∈ body.occurrences .tail (param :: scope.map Prod.fst), o.Fits)
    (hlowered : Lowered declared id ((param, n) :: scope) body tree)
    (hspells : Spells slot (body.codeSize .tail)
      (body.spelling slot (param :: scope.map Prod.fst) .tail) is) :
    Encodes declared slot scope p (.lam pos param body)
      ⟨.lam n tree, closeOver p (.grab :: is)⟩ := by
  have hgrab := hspells.cons .grab
  cases p with
  | tail =>
      refine .fits (List.forall_mem_cons.2 ⟨fun hp => absurd rfl hp, hall⟩) (.lam hlowered) ?_
      exact ⟨hgrab.size_eq.trans (Nat.zero_add _).symm, hgrab.widen_eq⟩
  | value | head =>
      unfold closeOver
      dsimp only
      rw [hgrab.size_eq]
      split
      · rename_i hlong
        refine .exceeds ⟨⟨_, List.mem_cons_self, fun hfits => ?_⟩, rfl, rfl⟩
        exact Nat.not_lt.2 (hfits nofun) hlong
      · rename_i hlong
        have hshort : 1 + body.codeSize .tail ≤ maxBodyLength := Nat.le_of_not_lt hlong
        refine .fits (List.forall_mem_cons.2 ⟨fun _ => hshort, hall⟩) (.lam hlowered) ?_
        exact (Spells.single (.closure (UInt16.ofNat (1 + body.codeSize .tail))) fun _ =>
          congrArg Int.ofNat (toNat_ofNat16 hshort)).append hgrab

mutual

/-- Generating the code of what an expression was lowered to.  No two binders share a
node, so the node of a variable is found where its binder is. -/
theorem encodes_generate (hslot : ∀ s, declared s = true → ∃ i, slot s = some i) :
    (e : Expr) → (scope : Scope) → (p : Position) → {l : Lir} →
    Lowered declared (fun _ => 0) scope e l → Apart scope l →
    Encodes declared slot scope p e (generate slot (scope.map Prod.snd) p l)
  | .int pos value, scope, p, _, h, _ => by
      cases h
      rw [generate]
      exact .fits (List.forall_mem_singleton.2 trivial) .int
        ((Spells.one (.int64 value)).settle p)
  | .var pos binder, scope, p, _, h, hapart => by
      cases h with
      | @var before after _ b id hbefore =>
      obtain ⟨hnode, hbinder⟩ := distance_of_innermost hapart.scope_nodup hbefore
      rw [generate, hnode]
      dsimp only
      split
      · rename_i hfar
        refine .exceeds ⟨⟨_, List.mem_singleton_self _, fun hfits => ?_⟩, rfl, rfl⟩
        exact Nat.not_lt.2 (hbinder ▸ hfits) hfar
      · rename_i hfar
        have hnear : before.length ≤ maxAccessIndex := Nat.le_of_not_lt hfar
        refine .fits (List.forall_mem_singleton.2 (Nat.le_trans (Nat.le_of_eq hbinder) hnear))
          (.var hbefore) ?_
        rw [Expr.spelling, Option.map_some, hbinder]
        exact (Spells.single (.access (UInt8.ofNat before.length)) fun _ =>
          congrArg Int.ofNat (toNat_ofNat8 hnear)).settle p
  | .global pos symbol, scope, p, _, h, _ => by
      cases h with
      | @global _ _ s hdeclared =>
      obtain ⟨i, hi⟩ := hslot _ hdeclared
      rw [generate, hi]
      refine .fits (List.forall_mem_singleton.2 trivial) (.global hdeclared) ?_
      rw [Expr.spelling, Option.bind_some, hi]
      have hone := Spells.single (.getGlobal (UInt16.ofNat i)) fun hslots =>
        congrArg Int.ofNat (toNat_ofNat16 (hslots s i hi))
      exact hone.settle p
  | .app pos fn arg, scope, p, _, h, hapart => by
      cases h with
      | @app _ _ _ _ fn' arg' hfn harg =>
      have hargs := encodes_generate hslot arg scope .value harg
        (hapart.of_sublist (List.sublist_append_right _ _))
      have hhead := encodes_generate hslot fn scope .head hfn
        (hapart.of_sublist (List.sublist_append_left _ _))
      rw [generate]
      dsimp only
      generalize generate slot (scope.map Prod.snd) .value arg' = g at hargs ⊢
      cases hargs with
      | exceeds hexceeds =>
          exact .exceeds (hexceeds.mono
            (List.subset_cons_of_subset _ (List.subset_append_right _ _)))
      | fits hall hlowered hspells =>
          dsimp only
          generalize generate slot (scope.map Prod.snd) .head fn' = g at hhead ⊢
          cases hhead with
          | exceeds hexceeds =>
              exact .exceeds (hexceeds.mono
                (List.subset_cons_of_subset _ (List.subset_append_left _ _)))
          | fits hall' hlowered' hspells' =>
              refine .fits ?_ (.app hlowered' hlowered) ?_
              · rw [Expr.occurrences]
                exact List.forall_mem_cons.2
                  ⟨trivial, List.forall_mem_append.2 ⟨hall', hall⟩⟩
              · exact (hspells.append (hspells'.cons .push)).closeCall p
  | .lam pos param body, scope, p, _, h, hapart => by
      cases h with
      | @lam _ _ _ id _ body' hlam =>
      have hbody := encodes_generate hslot body ((param, id) :: scope) .tail hlam
        (hapart.enter (List.Sublist.refl _) param)
      rw [generate]
      change Encodes declared slot _ .tail body
        (generate slot (id :: scope.map Prod.snd) .tail body') at hbody
      generalize generate slot (id :: scope.map Prod.snd) .tail body' = g at hbody ⊢
      cases hbody with
      | exceeds hexceeds =>
          exact .exceeds (hexceeds.mono
            (List.subset_cons_of_subset _ (List.Subset.refl _)))
      | fits hall hlowered hspells => exact .lam hall hlowered hspells
  | .letIn pos binder value body, scope, p, _, h, hapart => by
      cases h with
      | @letIn _ _ _ id _ _ value' body' hval hlet =>
      have hvalue := encodes_generate hslot value scope .value hval
        (hapart.of_sublist (List.sublist_append_left _ _))
      have hbody := encodes_generate hslot body ((binder, id) :: scope) p.ofBody hlet
        (hapart.enter (List.sublist_append_right _ _) binder)
      rw [generate_letIn_eq]
      generalize generate slot (scope.map Prod.snd) .value value' = g at hvalue ⊢
      cases hvalue with
      | exceeds hexceeds =>
          exact .exceeds (hexceeds.mono
            (List.subset_cons_of_subset _ (List.subset_append_left _ _)))
      | fits hall hlowered hspells =>
          dsimp only
          change Encodes declared slot _ _ body
            (generate slot (id :: scope.map Prod.snd) p.ofBody body') at hbody
          generalize generate slot (id :: scope.map Prod.snd) p.ofBody body' = g at hbody ⊢
          cases hbody with
          | exceeds hexceeds =>
              exact .exceeds (hexceeds.mono
                (List.subset_cons_of_subset _ (List.subset_append_right _ _)))
          | fits hall' hlowered' hspells' =>
              refine .fits ?_ (.letIn hlowered hlowered') ?_
              · rw [Expr.occurrences]
                exact List.forall_mem_cons.2
                  ⟨trivial, List.forall_mem_append.2 ⟨hall, hall'⟩⟩
              · exact (hspells.append (hspells'.cons .bind)).append (.one .unbind)
  | .tuple pos fields, scope, p, _, h, hapart => by
      cases h with
      | @tuple _ _ _ fields' hlength hfields =>
      rw [generate, hlength]
      split
      · rename_i hmany
        refine .exceeds ⟨⟨_, List.mem_cons_self, fun hfits => ?_⟩, rfl, rfl⟩
        exact Nat.not_lt.2 hfits hmany
      · rename_i hmany
        have hnarrow : fields.length ≤ maxBlockFields := Nat.le_of_not_lt hmany
        have htuple := encodes_generateFields hslot fields scope [] [] hlength hfields hapart
        generalize generateFields slot (scope.map Prod.snd) fields' [] [] = g at htuple ⊢
        cases htuple with
        | exceeds hexceeds =>
            exact .exceeds (hexceeds.mono
              (List.subset_cons_of_subset _ (List.Subset.refl _)))
        | fits hall hlength' hlowered hspells =>
            refine .fits ?_ (.tuple hlength' hlowered) ?_
            · rw [Expr.occurrences]
              exact List.forall_mem_cons.2 ⟨hnarrow, hall⟩
            · exact (hspells.append (.single (.makeBlock (UInt16.ofNat fields.length)) fun _ =>
                congrArg Int.ofNat (toNat_ofNat16 hnarrow))).settle p

/-- Generating the code of the fields of a tuple. -/
theorem encodes_generateFields (hslot : ∀ s, declared s = true → ∃ i, slot s = some i) :
    (fields : List Expr) → (scope : Scope) → (done : List Lir) → (before : List Instr) →
    {fields' : List Lir} → fields'.length = fields.length →
    (∀ x ∈ fields.zip fields', Lowered declared (fun _ => 0) scope x.1 x.2) →
    (scope.map Prod.snd ++ fieldBinders fields').Nodup →
    EncodesFields declared slot scope done before fields
      (generateFields slot (scope.map Prod.snd) fields' done before)
  | [], scope, done, before, [], _, _, _ => by
      rw [generateFields]
      have h : EncodesFields declared slot scope done before []
          (done.reverse ++ [], .ok (before.reverse ++ [])) :=
        .fits (by simp [Expr.fieldOccurrences]) rfl (by simp) .nil
      rwa [List.append_nil, List.append_nil] at h
  | field :: rest, scope, done, before, field' :: rest', hlength, hfields, hnodup => by
      have hfield := encodes_generate hslot field scope .value
        (hfields (field, field') List.mem_cons_self)
        (List.Nodup.sublist (List.Sublist.append_left (List.sublist_append_left _ _) _) hnodup)
      rw [generateFields]
      generalize generate slot (scope.map Prod.snd) .value field' = g at hfield ⊢
      cases hfield with
      | exceeds hexceeds =>
          exact .exceeds (hexceeds.mono
            (List.subset_append_left _ _))
      | @fits tree is hall hlowered hspells =>
          have hrest := encodes_generateFields hslot rest scope (tree :: done)
            (.push :: is.reverseAux before) (Nat.succ.inj hlength)
            (fun x hx => hfields x (List.mem_cons_of_mem _ hx))
            (List.Nodup.sublist (List.Sublist.append_left (List.sublist_append_right _ _) _)
              hnodup)
          dsimp only
          generalize generateFields slot (scope.map Prod.snd) rest' (tree :: done)
            (.push :: is.reverseAux before) = g at hrest ⊢
          cases hrest with
          | exceeds hexceeds =>
              exact .exceeds (hexceeds.mono
                (List.subset_append_right _ _))
          | @fits trees is' hall' hlength' hlowered' hspells' =>
              have h : EncodesFields declared slot scope done before (field :: rest)
                  (done.reverse ++ tree :: trees,
                    .ok (before.reverse ++ (is ++ .push :: is'))) := by
                refine .fits ?_ (congrArg Nat.succ hlength') ?_
                  (hspells.append (hspells'.cons .push))
                · rw [Expr.fieldOccurrences]
                  exact List.forall_mem_append.2 ⟨hall, hall'⟩
                · exact List.forall_mem_cons.2 ⟨hlowered, hlowered'⟩
              simpa [List.reverseAux_eq] using h

end

mutual

/-- A tree without the depths of its variables. -/
def bare : Lir → Lir
  | .lam id body => .lam id body.bare
  | .letIn id value body => .letIn id value.bare body.bare
  | .app fn arg => .app fn.bare arg.bare
  | .var origin _ => .var origin 0
  | .block kind fields => .block kind (bareFields fields)
  | .global symbol => .global symbol
  | .int value => .int value
  | .missing => .missing

/-- Trees without the depths of their variables. -/
def bareFields : List Lir → List Lir
  | [] => []
  | field :: rest => field.bare :: bareFields rest

end

theorem bareFields_append (fields rest : List Lir) :
    bareFields (fields ++ rest) = bareFields fields ++ bareFields rest := by
  induction fields with
  | nil => rfl
  | cons field fields ih => rw [List.cons_append, bareFields, bareFields, ih, List.cons_append]

mutual

/-- Generating code changes nothing in a tree but depths. -/
theorem bare_generate : (l : Lir) → (scope : List Nat) → (p : Position) →
    (generate slot scope p l).tree.bare = l.bare
  | .int value, scope, p => by rw [generate]
  | .missing, scope, p => by rw [generate]
  | .var origin depth, scope, p => by
      rw [generate]
      split
      · rfl
      · split <;> rfl
  | .global symbol, scope, p => by
      rw [generate]
      split <;> rfl
  | .app fn arg, scope, p => by
      have harg := bare_generate arg scope .value
      have hfn := bare_generate fn scope .head
      rw [generate]
      dsimp only
      split
      · rw [bare, bare, harg]
      · rw [bare, bare, harg, hfn]
  | .lam id body, scope, p => by
      rw [generate, bare, bare, bare_generate body]
  | .letIn id value body, scope, p => by
      have hvalue := bare_generate value scope .value
      have hbody := bare_generate body (id :: scope) p.ofBody
      rw [generate_letIn_eq]
      split
      · rw [bare, bare, hvalue]
      · rw [bare, bare, hvalue, hbody]
  | .block kind fields, scope, p => by
      rw [generate]
      split
      · rfl
      · rw [bare, bare, bare_generateFields fields scope [] []]
        rfl

theorem bare_generateFields : (fields : List Lir) → (scope : List Nat) →
    (done : List Lir) → (before : List Instr) →
    bareFields (generateFields slot scope fields done before).1 =
      bareFields (done.reverse ++ fields)
  | [], scope, done, before => by rw [generateFields, List.append_nil]
  | field :: rest, scope, done, before => by
      have hfield := bare_generate field scope .value
      rw [generateFields]
      split
      · rw [bareFields_append, bareFields_append, bareFields, bareFields, hfield]
      · rw [bare_generateFields rest, List.reverse_cons, List.append_assoc, List.singleton_append,
          bareFields_append, bareFields_append, bareFields, bareFields, hfield]

end

end Lir

namespace Emitter

/-- Compiling what an expression was lowered to, against the table that it was lowered
against, is refused exactly when an operand of one of its nodes does not fit, and for no
other reason.  Otherwise the tree is as it was but for the depths, which are the numbers of
binders between variables and their own, and the code takes the bytes that were counted;
for a table that can be built, it is what was spelled out, with every operand in full. -/
theorem compileExpr_capacity (c : Emitter) (g : Globals) (e : Expr) (l : Lir)
    (hlower : Lir.lower g.isDeclared e = .ok l) :
    let compiled := c.compileExpr g.slot? l
    ((∃ entry, compiled.1.entry = .ok entry) ↔ ∀ o ∈ e.nodes, o.Fits) ∧
      (∀ f, compiled.1.entry = .error f → f.kind = .capacity ∧ f.cause = .operandRange) ∧
      ∀ entry, compiled.1.entry = .ok entry →
        Lir.Lowered g.isDeclared id [] e compiled.1.tree ∧
        compiled.1.tree.bare = l.bare ∧
        ∃ is, compiled.2.code.bytes.toList = c.code.bytes.toList ++ Instr.encodeAll is ∧
          (Instr.encodeAll is).length = e.codeSize .value + 1 ∧
          (g.Built →
            is.map Instr.widen = e.spelling g.slot? [] .value ++ [{ opcode := .ret }]) := by
  obtain ⟨hlowered, hnodup⟩ := Lir.lowered_of_lower hlower
  have hslot (s : Symbol) (hs : g.isDeclared s = true) : ∃ i, g.slot? s = some i := by
    rw [Globals.isDeclared, Std.ExtHashMap.contains_eq_isSome_getElem?] at hs
    exact Option.isSome_iff_exists.1 hs
  have hencodes := Lir.encodes_generate hslot e [] .value hlowered hnodup
  have hbare : (l.generate g.slot? [] .value).tree.bare = l.bare := l.bare_generate [] .value
  intro compiled
  have hcompiled : compiled = c.placed (l.generateEntry g.slot?) := c.compileExpr_eq _ l
  rw [hcompiled, Lir.generateEntry]
  change Lir.Encodes g.isDeclared g.slot? [] .value e (l.generate g.slot? [] .value) at hencodes
  generalize l.generate g.slot? [] .value = generated at hencodes hbare ⊢
  cases hencodes with
  | exceeds hexceeds =>
      obtain ⟨o, ho, hunfit⟩ := hexceeds.unfit
      refine ⟨⟨?_, fun hall => absurd (hall o ho) hunfit⟩, fun f heq => ?_, ?_⟩
      · rintro ⟨_, hok⟩
        cases hok
      · cases heq
        exact ⟨hexceeds.kind, hexceeds.cause⟩
      · rintro _ ⟨⟩
  | @fits tree is hall hlowered hspells =>
      have hunit := hspells.append (.one .ret)
      refine ⟨⟨fun _ => hall, fun _ => ⟨_, rfl⟩⟩, ?_, fun entry _ => ?_⟩
      · rintro _ ⟨⟩
      refine ⟨hlowered, hbare, is ++ [Instr.ret], Code.toList_append, ?_, fun hbuilt => ?_⟩
      · rw [Instr.length_encodeAll]
        exact hunit.size_eq
      · exact hunit.widen_eq fun s i => hbuilt.slot_le

/-- A function in the body of a `let` that calls a global with the bound variable, which
is one binder away from it: it compiles, its body takes eight bytes, and the operands are
spelled out in full. -/
theorem compileExpr_capacity_closure :
    let s : Symbol := ⟨0, "f"⟩
    let g : Globals := (Globals.declare {} s).2
    let x : Binder := ⟨0, "x"⟩
    let y : Binder := ⟨1, "y"⟩
    let e : Expr := .letIn {} x (.int {} 5)
      (.lam {} y (.app {} (.global {} (some s)) (.var {} (some x))))
    let l : Lir := .letIn 0 (.int 5) (.lam 1 (.app (.global s) (.var 0 0)))
    let compiled := Emitter.compileExpr { code := {} } g.slot? l
    (∃ entry, compiled.1.entry = .ok entry) ∧ compiled.1.tree.bare = l ∧
      Lir.Lowered g.isDeclared id [] e compiled.1.tree ∧
      ∃ is, compiled.2.code.bytes.toList = Instr.encodeAll is ∧
        is.map Instr.widen =
          [⟨.int64, 5⟩, ⟨.bind, 0⟩, ⟨.closure, 8⟩, ⟨.grab, 0⟩, ⟨.access, 1⟩, ⟨.push, 0⟩,
            ⟨.getGlobal, 0⟩, ⟨.appTerm, 0⟩, ⟨.unbind, 0⟩, ⟨.ret, 0⟩] := by
  intro s g x y e l compiled
  have hindex : g.index = (∅ : Std.ExtHashMap Symbol Nat).insert s 0 := by
    simp [g, Globals.declare, Globals.slot?, Globals.size, maxGlobalSlot]
  have hslot : g.slot? s = some 0 := by simp [Globals.slot?, hindex]
  have hdeclared : (some s).filter g.isDeclared = some s := by
    simp [Globals.isDeclared, hindex]
  have hlower : Lir.lower g.isDeclared e = .ok l := by
    simp only [e, Lir.lower, Lir.lowerFrom, hdeclared]
    rfl
  obtain ⟨hiff, _, hok⟩ := compileExpr_capacity { code := {} } g e l hlower
  have hall : ∀ o ∈ e.nodes, o.Fits := by decide
  obtain ⟨entry, hentry⟩ := hiff.2 hall
  obtain ⟨hlowered, hbare, is, hcode, _, hwide⟩ := hok entry hentry
  refine ⟨⟨entry, hentry⟩, hbare, hlowered, is, hcode, (hwide (.declare s .empty)).trans ?_⟩
  simp only [e, Expr.spelling, Option.bind_some, hslot]
  rfl

end Emitter

end Zinc
