import Zinc.Proofs.Machine.Assigns
import Zinc.Proofs.Session.Sound

/-!
What runs can do to globals, by what their closures were granted.  A machine is fenced
when the closures that its host can get at assign no other global than the one granted to
them, and when no closure at all that assigns can be reached from a global.  Runs keep it
so.  A run that cannot reach a closure with a grant leaves all globals alone; the run of a
closure with a grant assigns its global right before it returns, and no other.
-/

namespace Zinc.Machine

/-- The closures that handles and the values in hand lead to assign only what has been
granted to them, and those that globals lead to assign nothing. -/
def Fenced (grant : Nat → UInt16 → Prop) (vs : List Value) (m : Machine) : Prop :=
  ∃ z, Zoned grant z m ∧ ∀ v ∈ m.handles.values ++ vs, v.Within z.known

variable {grant : Nat → UInt16 → Prop} {vs ws : List Value} {m m' : Machine} {v callee : Value}
  {args : List Value} {z : Zones}

namespace Fenced

theorem drop (h : Fenced grant vs m) (hsub : ∀ v ∈ ws, v ∈ m.handles.values ++ vs) :
    Fenced grant ws m := by
  obtain ⟨z, hz, hknown⟩ := h
  refine ⟨z, hz, fun v hv => ?_⟩
  rcases List.mem_append.1 hv with hv | hv
  · exact hknown v (List.mem_append_left _ hv)
  · exact hknown v (hsub v hv)

/-- A value that refers to nothing may be taken in hand, and one that the known objects
lead to. -/
theorem cons (h : Fenced grant vs m)
    (hv : ∀ z, Zoned grant z m → (∀ v ∈ m.handles.values ++ vs, v.Within z.known) →
      v.Within z.known) : Fenced grant (v :: vs) m := by
  obtain ⟨z, hz, hknown⟩ := h
  refine ⟨z, hz, fun u hu => ?_⟩
  simp only [List.mem_append, List.mem_cons] at hu
  rcases hu with hu | rfl | hu
  · exact hknown u (List.mem_append_left _ hu)
  · exact hv z hz hknown
  · exact hknown u (List.mem_append_right _ hu)

/-- Code that is added, objects that are released, globals that are declared and handles
that are closed leave a machine fenced. -/
theorem keep (h : Fenced grant vs m) (hcode : m.code.bytes.toList <+: m'.code.bytes.toList)
    (hfades : m.heap.Fades m'.heap)
    (hglobals : ∀ g ∈ m'.globals.entries, g ∈ m.globals.entries ∨ g.value = .undefined)
    (hknown : ∀ v ∈ m'.handles.values ++ ws, v ∈ m.handles.values ++ vs) :
    Fenced grant ws m' := by
  obtain ⟨z, hz, hold⟩ := h
  refine ⟨z, ⟨(hz.fit.code hcode).fade hfades, fun g hg => ?_⟩, fun v hv => hold v (hknown v hv)⟩
  rcases hglobals g hg with hg | hundefined
  · exact hz.globals g hg
  · rw [hundefined]
    exact nofun

end Fenced

/-- A call of what is known starts in some role that fits it. -/
theorem exists_role (hz : Zoned grant z m) (htyped : Typed m.world .data callee)
    (hcallee : callee.Within z.known) (hdata : ∀ v ∈ args, Typed m.world .data v)
    (hargs : ∀ v ∈ args, v.Within z.known) :
    ∃ r : Role, (∀ a env offset captured, callee = .ref .closure a →
      m.heap.fields a = #[env, .code offset] → Typed m.world (.env captured) env →
        r.Own z env ∧ m.code.Acts r.slot offset) ∧ ∀ v ∈ args, r.Given z v := by
  have hown : Role.Own z .free callee := own_of_typed htyped hcallee
  have hown' (v : Value) (hv : v ∈ args) : Role.Own z .free v :=
    own_of_typed (hdata v hv) (hargs v hv)
  cases htyped with
  | int _ => exact ⟨.free, (fun _ _ _ _ heq => by cases heq), hown'⟩
  | tuple _ _ _ => exact ⟨.free, (fun _ _ _ _ heq => by cases heq), hown'⟩
  | @closure a captured cell env offset is hcell _ hfields henv hat hdisciplined =>
      have hheap : m.heap.fields a = #[env, .code offset] :=
        (Heap.fields_of_cell hcell).trans hfields
      obtain ⟨r, hcalls, henv', hacts⟩ := enters hz hown hheap henv
      refine ⟨r, fun b env' offset' _ heq hsame _ => ?_, fun v hv => hcalls.given (hown' v hv)⟩
      cases heq
      rw [hheap] at hsame
      cases hsame
      exact ⟨henv', hacts⟩

theorem fenced_of_rezoned {g : Globals} {reply : Reply Value} (h : Rezoned grant z g reply)
    (hhandles : ∀ v ∈ reply.2.handles.values, v.Within z.known) :
    Fenced grant ((reply.1.toOption.map fun v => [v]).getD []) reply.2 := by
  obtain ⟨z', hle, _, hz, hvalue⟩ := h
  refine ⟨z', hz, fun v hv => ?_⟩
  rcases List.mem_append.1 hv with hv | hv
  · exact (hhandles v hv).mono hle.known
  · cases hanswer : reply.1 with
    | error f =>
        rw [hanswer] at hv
        exact absurd hv List.not_mem_nil
    | ok u =>
        rw [hanswer] at hv
        obtain rfl := List.mem_singleton.1 hv
        exact hvalue v hanswer

/-- Runs leave a machine fenced. -/
theorem Fenced.run (h : Fenced grant vs m) (hsound : m.Sound)
    (htyped : Typed m.world .data callee) (hcallee : callee ∈ m.handles.values ++ vs)
    (hdata : ∀ v ∈ args, Typed m.world .data v)
    (hargs : ∀ v ∈ args, v ∈ m.handles.values ++ vs) :
    Fenced grant (((m.run callee args).1.toOption.map fun v => [v]).getD [])
      (m.run callee args).2 := by
  obtain ⟨z, hz, hknown⟩ := h
  obtain ⟨r, hstart, hgiven⟩ := exists_role hz htyped (hknown callee hcallee) hdata
    fun v hv => hknown v (hargs v hv)
  refine fenced_of_rezoned (zoned_run hsound hz htyped hdata hstart hgiven) fun v hv => ?_
  rw [(m.evaluated_run callee args).handles] at hv
  exact hknown v (List.mem_append_left _ hv)

/-- So does code that is run on its own, whatever it assigns. -/
theorem Fenced.runEntry (h : Fenced grant vs m) (hsound : m.Sound) {entry : Int}
    (hentry : Enterable m.code m.globals entry) {w : Option UInt16}
    (hacts : m.code.Acts w entry) :
    Fenced grant (((m.runEntry entry).1.toOption.map fun v => [v]).getD [])
      (m.runEntry entry).2 := by
  obtain ⟨is, hat, hdisciplined⟩ := hentry
  obtain ⟨r, rfl⟩ : ∃ r : Role, r.slot = w := by
    cases w with
    | none => exact ⟨.free, rfl⟩
    | some k => exact ⟨.defining k true, rfl⟩
  unfold Machine.runEntry whenOpen
  split
  · exact h.drop fun v hv => absurd hv List.not_mem_nil
  · obtain ⟨z, hz, hknown⟩ := h
    have hgrows : m.heap.Grows (m.topClosure entry).2.heap := .alloc _ _ (.refl _)
    have hsound' : (m.topClosure entry).2.Sound := hsound.grow hgrows _
    have htyped : Typed (m.topClosure entry).2.world .data (m.topClosure entry).1 :=
      .closure (Heap.cells_alloc_self _ _ _) rfl rfl .nil hat hdisciplined
    have hz' : Zoned grant z (m.topClosure entry).2 := hz.fade rfl rfl hgrows.fades
    refine fenced_of_rezoned (zoned_run (r := r) hsound' hz' htyped (by simp)
      (fun a env offset _ heq hfields _ => ?_) (by simp)) fun v hv => ?_
    · cases heq
      have hnew : (m.topClosure entry).2.heap.fields m.heap.cells.size =
          #[.emptyEnv, .code entry] := Heap.fields_alloc_self _ _ _
      have hsame := hnew.symm.trans hfields
      cases hsame
      exact ⟨Value.in_emptyEnv _, hacts⟩
    · rw [((m.topClosure entry).2.evaluated_run _ _).handles] at hv
      exact hknown v (List.mem_append_left _ hv)

/-- Runs do no more to the globals than assign them. -/
theorem Fenced.assigned_run (h : Fenced grant vs m) (hsound : m.Sound)
    (htyped : Typed m.world .data callee) (hcallee : callee ∈ m.handles.values ++ vs)
    (hdata : ∀ v ∈ args, Typed m.world .data v)
    (hargs : ∀ v ∈ args, v ∈ m.handles.values ++ vs) :
    m.globals.Assigned (m.run callee args).2.globals := by
  obtain ⟨z, hz, hknown⟩ := h
  obtain ⟨r, hstart, hgiven⟩ := exists_role hz htyped (hknown callee hcallee) hdata
    fun v hv => hknown v (hargs v hv)
  obtain ⟨_, _, hassigned, _⟩ := zoned_run hsound hz htyped hdata hstart hgiven
  exact hassigned

/-- A run that cannot reach a closure with a grant assigns nothing. -/
theorem Fenced.globals_run (h : Fenced grant vs m) (hsound : m.Sound)
    (htyped : Typed m.world .data callee) (hcallee : callee ∈ m.handles.values ++ vs)
    (hdata : ∀ v ∈ args, Typed m.world .data v)
    (hargs : ∀ v ∈ args, v ∈ m.handles.values ++ vs)
    (hnone : ∀ a k, grant a k → ¬ m.heap.Reach (callee :: args) a) :
    (m.run callee args).2.globals = m.globals := by
  obtain ⟨z, hz, hknown⟩ := h
  have hroots : ∀ v ∈ callee :: args, v.Within z.known :=
    List.forall_mem_cons.2 ⟨hknown callee hcallee, fun v hv => hknown v (hargs v hv)⟩
  have hquiet : m.heap.Region (fun _ _ pc => m.code.Acts none pc)
      (m.heap.Reach (callee :: args)) := by
    refine (hz.fit.known.reach hroots).mono fun a env pc ha hok => ?_
    rcases hok with ⟨_, hacts⟩ | ⟨_, ⟨k, hk⟩, _⟩
    · exact hacts
    · exact absurd ha (hnone a k hk)
  -- everything that the run can get at is calm
  let S (a : Nat) : Prop := z.calm a ∨ m.heap.Reach (callee :: args) a
  have hregion : m.heap.Region (fun _ _ pc => m.code.Acts none pc) S := hz.fit.calm.union hquiet
  have hzoned : Zoned (fun _ _ => False) ⟨S, S⟩ m := by
    refine ⟨⟨fun _ _ hk => hk.elim, fun _ ha => ha, hregion, ?_⟩, fun g hg => ?_⟩
    · exact hregion.mono fun _ _ _ _ hacts => .inl ⟨fun _ hk => hk, hacts⟩
    · exact (hz.globals g hg).mono fun _ => .inl
  have hin {v : Value} (hv : v ∈ callee :: args) : v.Within S :=
    (Heap.within_reach hv).mono fun _ => .inr
  have hassignment : Assignment m.globals none (m.run callee args) := by
    refine assignment_run (r := .calm) hsound hzoned ⟨1, rfl⟩ htyped hdata
      (fun a env offset captured heq hfields henv => ?_)
      fun v hv => own_of_typed (r := .calm) (hdata v hv) (hin (List.mem_cons_of_mem _ hv))
    have ha : S a := Value.within_ref.1 (heq ▸ hin List.mem_cons_self)
    exact ⟨own_of_typed (r := .calm) henv (hregion.closed a ha env (by simp [hfields])),
      hregion.closures a env offset ha hfields⟩
  cases hassignment with
  | missing hglobals _ => exact hglobals
  | made hbase _ _ _ => cases hbase

/-- The run of a closure with a grant, on its own, assigns the granted global and no
other. -/
theorem Fenced.assignment (h : Fenced grant vs m) (hsound : m.Sound) {a : Nat} {k : UInt16}
    (htyped : Typed m.world .data (.ref .closure a))
    (hcallee : .ref .closure a ∈ m.handles.values ++ vs) (hk : grant a k) :
    Assignment m.globals (some k) (m.run (.ref .closure a) []) := by
  obtain ⟨z, hz, hknown⟩ := h
  have ha : z.known a := Value.within_ref.1 (hknown _ hcallee)
  refine assignment_run (r := .defining k true) hsound hz ⟨0, rfl⟩ htyped (by simp)
    (fun b env offset captured heq hfields _ => ?_) (by simp)
  cases heq
  rcases hz.fit.known.closures a env offset ha hfields with ⟨hnone, _⟩ | ⟨rfl, _, hacts⟩
  · exact absurd hk (hnone k)
  · exact ⟨Value.in_emptyEnv _, hacts k hk⟩

end Zinc.Machine
