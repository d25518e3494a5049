import Mathlib
import Zinc.CommandLine.Execute
import Zinc.Proofs.Code.Listing
import Zinc.Proofs.Session.Idle

/-!
The disassembly of a program is complete.  The units of a program that compiles stand side by
side in the code area, from its start to its end, and the code of each is balanced.  So the
ranges that are listed hold all of the code, nothing is decoded twice or halfway, and the
lines of a range are its instructions.
-/

namespace Zinc

/-- Ranges that lie side by side from one offset to another, none of them empty. -/
inductive Tiles : Int → Int → List (Int × Int) → Prop where
  | nil (stop : Int) : Tiles stop stop []
  | cons {start next stop : Int} {rest : List (Int × Int)} :
      start < next → Tiles next stop rest → Tiles start stop ((start, next) :: rest)

/-- The offsets that the bytes of an instruction have. -/
def Instr.span (p : Nat × Instr) : Int × Int :=
  (p.1, (p.1 + p.2.size : Nat))

theorem Instr.tiles_placed (o : Nat) (is : List Instr) :
    Tiles o (o + sizeAll is : Nat) ((placed o is).map span) := by
  induction is generalizing o with
  | nil => exact .nil _
  | cons i is ih =>
      have hrest := ih (o + i.size)
      rw [Nat.add_assoc, ← sizeAll_cons] at hrest
      rw [placed_cons, List.map_cons]
      refine .cons ?_ hrest
      have hi := i.size_pos
      dsimp only
      omega

/-- The instructions of a range of the code, in which every body of a closure ends where an
instruction starts or the range ends, and does so within the bodies that it starts in. -/
structure Code.Ranged (c : Code) (start stop : Int) (instrs : List (Nat × Instr)) : Prop where
  decode : c.decode? start stop = some ⟨instrs, none⟩
  tiles : Tiles start stop (instrs.map Instr.span)
  boundary : ∀ k n, (k, Instr.closure n) ∈ instrs →
    ((k + 3 + n.toNat : Nat) : Int) = stop ∨ ∃ i, (k + 3 + n.toNat, i) ∈ instrs
  within : ∀ k n, (k, Instr.closure n) ∈ instrs →
    ((k + 3 + n.toNat : Nat) : Int) ≤ stop ∧
      ∀ k' n', (k', Instr.closure n') ∈ instrs → k' + 3 ≤ k → k < k' + 3 + n'.toNat →
        k + 3 + n.toNat ≤ k' + 3 + n'.toNat

/-- A range that holds balanced code. -/
theorem Balanced.ranged {c : Code} {o : Nat} {is : List Instr} {more : List UInt8}
    (h : Balanced is) (hdrop : c.bytes.toList.drop o = Instr.encodeAll is ++ more) :
    c.Ranged o (o + Instr.sizeAll is : Nat) (Instr.placed o is) where
  decode := Code.decode?_range hdrop
  tiles := Instr.tiles_placed o is
  boundary k n hk := (h.body_end hk).2.imp_left (congrArg _)
  within k n hk := by
    refine ⟨Int.ofNat_le.2 (h.body_end hk).1, fun k' n' hk' hge hlt => ?_⟩
    exact h.body_nested hk hk' (Instr.bodyHas_iff.2 ⟨k', n', rfl, hge, hlt⟩)

namespace ProgramUnit

/-- Where the code of a unit starts and stops. -/
structure Extent where
  unit : ProgramUnit
  start : Int
  stop : Int

/-- The code of units starts at their entries and stops where that of the next one starts, or
where the code area ends. -/
def extents (size : Nat) : List ProgramUnit → List Extent
  | [] => []
  | u :: rest => ⟨u, u.entry, (rest.head?.map entry).getD size⟩ :: extents size rest

/-- The code of a unit is balanced, and not empty. -/
theorem balanced_generated {u : ProgramUnit} {slot : Symbol → Option Nat} {l : Lir}
    {is : List Instr} (h : (u.generated slot l).code = .ok is) :
    Balanced is ∧ 0 < Instr.sizeAll is := by
  obtain ⟨name, pos, body, lir, entry⟩ := u
  cases name with
  | some s =>
      have h : (l.generateDefinition slot s).code = .ok is := h
      refine ⟨Lir.balanced_generateDefinition h, ?_⟩
      obtain ⟨i, valueCode, _, _, rfl⟩ := Lir.generateDefinition_eq_ok h
      rw [Instr.sizeAll_append, Instr.sizeAll_cons, Instr.size]
      omega
  | none =>
      have h : (l.generateEntry slot).code = .ok is := h
      refine ⟨Lir.balanced_generateEntry h, ?_⟩
      obtain ⟨valueCode, _, rfl⟩ := Lir.generateEntry_eq_ok h
      rw [Instr.sizeAll_append, Instr.sizeAll_cons, Instr.size]
      omega

section

variable {slot : Symbol → Option Nat} {offset : Nat} {lowered placed : List ProgramUnit}
  {bytes : List UInt8}

/-- The first unit starts where the units are placed. -/
theorem Placed.head_entry (h : Placed slot offset lowered placed bytes) :
    (placed.head?.map entry).getD (offset + bytes.length : Nat) = offset := by
  cases h with
  | nil offset => rfl
  | cons _ _ _ => rfl

/-- The code of placed units lies side by side. -/
theorem Placed.tiles (h : Placed slot offset lowered placed bytes) :
    Tiles offset (offset + bytes.length : Nat)
      ((extents (offset + bytes.length) placed).map fun r => (r.start, r.stop)) := by
  induction h with
  | nil offset => exact .nil _
  | @cons u l is lowered placed offset bytes _ hcode hrest ih =>
      have hend := hrest.head_entry
      have hsize := (balanced_generated hcode).2
      rw [Nat.add_assoc, ← List.length_append] at ih hend
      rw [extents, List.map_cons]
      dsimp only
      rw [hend]
      refine .cons ?_ ih
      rw [Instr.length_encodeAll]
      omega

/-- The code of each placed unit is balanced. -/
theorem Placed.ranged (h : Placed slot offset lowered placed bytes) {c : Code}
    (hbytes : c.bytes.toList.drop offset = bytes) :
    ∀ r ∈ extents (offset + bytes.length) placed,
      ∃ o is, Balanced is ∧ c.Ranged r.start r.stop (Instr.placed o is) := by
  induction h with
  | nil offset => exact fun r hr => absurd hr List.not_mem_nil
  | @cons u l is lowered placed offset bytes _ hcode hrest ih =>
      have hend := hrest.head_entry
      have hbalanced := (balanced_generated hcode).1
      have hdrop : c.bytes.toList.drop (offset + (Instr.encodeAll is).length) = bytes := by
        rw [← List.drop_drop, hbytes, List.drop_left]
      rw [Nat.add_assoc, ← List.length_append] at ih hend
      rw [extents, hend]
      refine List.forall_mem_cons.2 ⟨⟨offset, is, hbalanced, ?_⟩, ih hdrop⟩
      rw [Instr.length_encodeAll]
      exact hbalanced.ranged hbytes

end

end ProgramUnit

namespace CommandLine

/-- The listing of the code of a unit, under its name. -/
def extentListing (m : Machine) (r : ProgramUnit.Extent) : String :=
  match m.code.decode? r.start r.stop with
  | some d => d.listing m.globals.nameOf? r.unit.label
  | none => ""

theorem unitListings_eq (m : Machine) (units : List ProgramUnit) :
    unitListings m units =
      String.join ((ProgramUnit.extents m.code.size units).map (extentListing m)) := by
  induction units with
  | nil => simp [unitListings, ProgramUnit.extents]
  | cons u rest ih =>
      rw [unitListings, ih, ProgramUnit.extents, List.map_cons, String.join_cons]
      rfl

/-- The new machine that a program is taken through its stages in. -/
def startMachine (limits : Limits) : Machine :=
  { Machine.create 1 limits with
    logLevel := if limits.trace then some .debug else none }.pushFrame.2

theorem prepare_eq [Yaml.Parser] (file : String) (source : ByteArray) (limits : Limits) :
    prepare file source limits Command.disasm.stages =
      ((Loading.stage { path := file, source, symbols := {}, machine := startMachine limits }
        .decode).stage .lower).stage .compile :=
  rfl

/-- A program that is lowered and compiled in a new machine has its units placed from the
start of the code area. -/
theorem placed_of_prepare [Yaml.Parser] {file : String} {source : ByteArray}
    {limits : Limits} {l : Loading}
    (hprepare : prepare file source limits Command.disasm.stages = l) (hdone : l.failure = none) :
    ∃ slot lowered, ProgramUnit.Placed slot 0 lowered l.units l.machine.code.bytes.toList := by
  rw [prepare_eq] at hprepare
  cases hparse : Document.parse source {} with
  | error e =>
      have hdecode :=
        @Loading.failure_decode_of_parse file source {} _ e hparse (startMachine limits)
      have hfailed := Loading.failure_stage (Loading.failure_stage hdecode .lower) .compile
      rw [hprepare, hdone] at hfailed
      cases hfailed
  | ok parsed =>
      obtain ⟨d, symbols⟩ := parsed
      rw [Loading.stage_decode_of_parse hparse] at hprepare
      by_cases hcompilable :
          Loading.Compilable (startMachine limits) (ProgramUnit.ofDocument d)
      · obtain ⟨lowered, placed, bytes, g, hlowered, hplaced⟩ := hcompilable
        obtain ⟨log, hcompiled⟩ := @Loading.stage_compile_begun (startMachine limits)
          (ProgramUnit.ofDocument d) file source symbols lowered g _ rfl placed bytes hlowered
          hplaced
        have hbytes : ((startMachine limits).code.append bytes).bytes.toList = bytes :=
          Code.toList_append
        rw [← hprepare, hcompiled]
        refine ⟨g.slot?, lowered, ?_⟩
        dsimp only
        rw [hbytes]
        exact hplaced
      · obtain ⟨f, hfailed⟩ := @Loading.failure_of_not_compilable (startMachine limits)
          (ProgramUnit.ofDocument d) file source symbols _ rfl hcompilable
        rw [hprepare, hdone] at hfailed
        cases hfailed

/-- The disassembly of a program that compiles in a new machine is complete.  It consists of
the listings of the units in turn, whose code lies side by side and fills the code area.  The
code of each of them is decoded without an error, instruction by instruction; every body of a
closure ends where an instruction starts or the unit ends, and within the unit and all bodies
around it; and the listing has one line for each instruction, in order, indented by two
spaces for each body that it is in.  A line says which instruction it is about, where that
is, and in how many bodies. -/
theorem disassembly_is_complete [Yaml.Parser] (file : String) (source : ByteArray)
    (limits : Limits) :
    let l := prepare file source limits Command.disasm.stages
    let m := l.machine
    let extents := ProgramUnit.extents m.code.size l.units
    l.failure = none →
    (Command.disasm.onProgram file source limits).stdout =
      title file ++ String.join (extents.map (extentListing m)) ++ globalsLine m.globals ∧
    Tiles 0 m.code.size (extents.map fun r => (r.start, r.stop)) ∧
    (∀ depth depth' p p', Instr.line m.globals.nameOf? depth p =
      Instr.line m.globals.nameOf? depth' p' → depth = depth' ∧ p = p') ∧
    ∀ r ∈ extents, ∃ instrs, m.code.Ranged r.start r.stop instrs ∧
      extentListing m r = "== " ++ r.unit.label ++ " ==\n" ++ String.join (instrs.map fun p =>
        Instr.line m.globals.nameOf? (Instr.depthAt instrs p.1) p) := by
  intro l m extents hdone
  obtain ⟨slot, lowered, hplaced⟩ := placed_of_prepare rfl hdone
  have hsize : m.code.size = 0 + m.code.bytes.toList.length := by
    rw [Nat.zero_add, Array.length_toList]
    rfl
  refine ⟨?_, ?_, fun _ _ _ _ => Instr.line_inj, ?_⟩
  · have hreport : Command.report .disasm file l = .ok (codeReport file l) := by
      rw [Command.report, hdone]
    have hstdout : (Command.disasm.onProgram file source limits).stdout = codeReport file l := by
      rw [Command.onProgram, hreport]
    rw [hstdout, codeReport, unitListings_eq]
  · have htiles := hplaced.tiles
    rw [← hsize] at htiles
    exact htiles
  · intro r hr
    have hr : r ∈ ProgramUnit.extents m.code.size l.units := hr
    rw [hsize] at hr
    obtain ⟨o, is, hbalanced, hranged⟩ := hplaced.ranged List.drop_zero r hr
    refine ⟨_, hranged, ?_⟩
    have hlisting : extentListing m r =
        Decoded.listing ⟨Instr.placed o is, none⟩ m.globals.nameOf? r.unit.label := by
      rw [extentListing, hranged.decode]
    rw [hlisting]
    exact hbalanced.listing_eq o r.unit.label

/-- A function whose body applies another function to its parameter. -/
theorem disassembly_is_complete_nested :
    let source := "main: {lam: x, body: [{lam: y, body: y}, x]}"
    let l := prepare "p" source {} Command.disasm.stages
    let instrs : List (Nat × Instr) := [(0, .closure 12), (3, .grab), (4, .access 0), (6, .push),
      (7, .closure 4), (10, .grab), (11, .access 0), (13, .ret), (14, .appTerm), (15, .ret)]
    l.failure = none ∧ l.machine.code.Ranged 0 16 instrs ∧
      instrs.map (fun p => Instr.depthAt instrs p.1) = [0, 1, 1, 1, 1, 2, 2, 2, 1, 0] ∧
      (Command.disasm.onProgram "p" source {}).stdout = "; p\n== main ==\n" ++
        "0000 CLOSURE            12 -> 0015\n" ++
        "0003   GRAB\n" ++
        "0004   ACCESS              0\n" ++
        "0006   PUSH\n" ++
        "0007   CLOSURE             4 -> 0014\n" ++
        "0010     GRAB\n" ++
        "0011     ACCESS              0\n" ++
        "0013     RETURN\n" ++
        "0014   APPTERM\n" ++
        "0015 RETURN\n" := by
  intro source l instrs
  have hchars : source.toList = ['m', 'a', 'i', 'n', ':', ' ', '{', 'l', 'a', 'm', ':', ' ', 'x',
      ',', ' ', 'b', 'o', 'd', 'y', ':', ' ', '[', '{', 'l', 'a', 'm', ':', ' ', 'y', ',', ' ',
      'b', 'o', 'd', 'y', ':', ' ', 'y', '}', ',', ' ', 'x', ']', '}'] := by
    decide +kernel
  let x : Binder := ⟨0, "x"⟩
  let y : Binder := ⟨1, "y"⟩
  let main : Expr := .lam ⟨1, 7⟩ x (.app ⟨1, 42⟩
    (.lam ⟨1, 23⟩ y (.var ⟨1, 38⟩ (some y))) (.var ⟨1, 42⟩ (some x)))
  have hparse : Document.parse source {} = .ok ({ defs := [], main := some main }, {}) := by
    rw [Document.parse, Yaml.content_text, Yaml.parse, Yaml.cells?, hchars]
    cbv
  have hl : l = ((Loading.begun "p" source {} (startMachine {})
      (ProgramUnit.ofDocument { defs := [], main := some main })).stage .lower).stage .compile := by
    rw [← Loading.stage_decode_of_parse hparse]
    rfl
  have hdone : l.failure = none := by
    rw [hl]
    decide +kernel
  have hextents : (ProgramUnit.extents l.machine.code.size l.units).map
      (fun r => (r.start, r.stop)) = [(0, 16)] := by
    rw [hl]
    decide +kernel
  have hdecode : l.machine.code.decode? 0 16 = some ⟨instrs, none⟩ := by
    rw [hl]
    decide +kernel
  obtain ⟨hstdout, _, _, hranges⟩ := disassembly_is_complete "p" source {} hdone
  obtain ⟨r, hr, hrange⟩ : ∃ r ∈ ProgramUnit.extents l.machine.code.size l.units,
      (r.start, r.stop) = (0, 16) := by
    apply List.mem_map.1
    rw [hextents]
    exact List.mem_singleton_self _
  obtain ⟨hstart, hstop⟩ := Prod.mk.inj hrange
  obtain ⟨found, hfound, _⟩ := hranges r hr
  rw [hstart, hstop] at hfound
  have hsame : found = instrs :=
    congrArg Decoded.instrs (Option.some.inj (hfound.decode.symm.trans hdecode))
  refine ⟨hdone, hsame ▸ hfound, by decide, ?_⟩
  have htitle : title "p" = "; p\n" := by cbv
  rw [hstdout, htitle]
  change "; p\n" ++ String.join ((ProgramUnit.extents l.machine.code.size l.units).map
    (extentListing l.machine)) ++ globalsLine l.machine.globals = _
  rw [hl]
  decide +kernel

end CommandLine

end Zinc
