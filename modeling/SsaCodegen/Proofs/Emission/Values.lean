import SsaCodegen.Proofs.Emission.Directness

/-! The code of values. No emitter of a value appends a branch to a block. -/

namespace SsaCodegen

open List Instr

variable {α β : Type} {is : List Instr} {it : Item}

def Item.Straight (it : Item) : Prop := it.instr.jump? = none ∧ ∀ b kind, it.fixup ≠ .block b kind

theorem Item.straight_of_whole (h : ∀ i ∈ is, i.jump? = none) (hit : it ∈ Item.whole is) : it.Straight := by
  obtain ⟨hi, hfix⟩ := Item.mem_whole.mp hit
  refine ⟨h _ hi, fun b kind hblock => ?_⟩
  rw [hfix] at hblock
  cases hblock

/-- What the linker completes is calls, those of `calls` in their order, and addresses, which take two
instructions each. -/
inductive Linked : List Item → List String → Prop
  | nil : Linked [] []
  | whole {it : Item} {items : List Item} {calls : List String} (instr : it.instr.isLinked = false)
      (fixup : ∀ name kind, it.fixup ≠ .symbol name kind) (rest : Linked items calls) :
      Linked (it :: items) calls
  | call {items : List Item} {calls : List String} (name : String) (rest : Linked items calls) :
      Linked (⟨.bl 0, .symbol name .call⟩ :: items) (name :: calls)
  | address {items : List Item} {calls : List String} (rd : Reg) (name : String) (rest : Linked items calls) :
      Linked (⟨.adrp rd 0, .symbol name .page⟩ :: ⟨.addImm rd rd 0, .symbol name .pageOffset⟩ :: items) calls

theorem Linked.append {items more : List Item} {calls others : List String} (h : Linked items calls)
    (h' : Linked more others) : Linked (items ++ more) (calls ++ others) := by
  induction h with
  | nil => exact h'
  | whole hinstr hfix _ ih => exact .whole hinstr hfix ih
  | call name _ ih => exact .call name ih
  | address rd name _ ih => exact .address rd name ih

theorem linked_whole (h : ∀ i ∈ is, i.isLinked = false) : Linked (Item.whole is) [] := by
  induction is with
  | nil => exact .nil
  | cons i is ih =>
    exact .whole (h i mem_cons_self) (by simp) (ih fun j hj => h j (mem_cons_of_mem i hj))

/-- Runs of `m` append nothing but straight items, and make these calls. -/
def Makes (m : Emit α) (calls : List String) : Prop :=
  ∀ c a c', Runs m c a c' → ∃ items, (∀ it ∈ items, it.Straight) ∧ Linked items calls ∧ c.Appends items c'

abbrev StraightCode (m : Emit α) : Prop := Makes m []

section Makes

variable {m : Emit α} {calls more : List String}

theorem straight_pure (a : α) : StraightCode (pure a : Emit α) := by
  intro c b c' h
  obtain ⟨-, rfl⟩ := runs_pure.mp h
  exact ⟨[], forall_mem_nil _, .nil, .refl _⟩

theorem makes_throw (e : CompileError) (calls : List String) : Makes (throw e : Emit α) calls :=
  fun _ _ _ h => absurd (runs_throw.mp h) id

theorem straight_throw (e : CompileError) : StraightCode (throw e : Emit α) := makes_throw e []

theorem straight_liftM (r : Except CompileError α) : StraightCode (liftM r : Emit α) := by
  intro c a c' h
  obtain ⟨-, rfl⟩ := runs_liftM.mp h
  exact ⟨[], forall_mem_nil _, .nil, .refl _⟩

theorem Makes.bind {k : α → Emit β} (h : Makes m calls) (hk : ∀ a, Makes (k a) more) :
    Makes (m >>= k) (calls ++ more) := by
  intro c b c' hrun
  obtain ⟨a, s, hm, hrest⟩ := runs_bind.mp hrun
  obtain ⟨items, hitems, hlinked, happ⟩ := h c a s hm
  obtain ⟨others, hothers, hlinked', happ'⟩ := hk a s b c' hrest
  exact ⟨items ++ others, fun it hit => (mem_append.mp hit).elim (hitems it) (hothers it),
    hlinked.append hlinked', happ.trans happ'⟩

theorem makes_forM {f : α → Emit PUnit} {calls : α → List String} (h : ∀ a, Makes (f a) (calls a)) :
    ∀ l : List α, Makes (l.forM f) (l.flatMap calls)
  | [] => straight_pure _
  | a :: l => (h a).bind fun _ => makes_forM h l

theorem straight_forM {f : α → Emit PUnit} (h : ∀ a, StraightCode (f a)) : ∀ l : List α, StraightCode (l.forM f)
  | [] => straight_pure _
  | a :: l => (h a).bind fun _ => straight_forM h l

theorem straight_mapM {f : α → Emit β} (h : ∀ a, StraightCode (f a)) : ∀ l : List α, StraightCode (l.mapM f)
  | [] => by exact straight_pure _
  | a :: l => by
    rw [mapM_cons]
    exact (h a).bind fun _ => (straight_mapM h l).bind fun _ => straight_pure _

theorem straight_emitAll (h : ∀ i ∈ is, i.jump? = none ∧ i.isLinked = false) : StraightCode (emitAll is) :=
  fun _ _ _ hrun => ⟨_, fun _ => Item.straight_of_whole fun i hi => (h i hi).1,
    linked_whole fun i hi => (h i hi).2, appends_of_emitAll hrun⟩

theorem straight_direct (h : ∀ i ∈ is, i.Direct) : StraightCode (emitAll is) :=
  straight_emitAll fun i hi => ⟨(h i hi).1.1, (h i hi).2.2⟩

theorem straight_data (h : ∀ i ∈ is, i.isData) : StraightCode (emitAll is) :=
  straight_direct fun i hi => direct_of_isData (h i hi)

theorem straight_emit {i : Instr} (h : i.Direct) : StraightCode (emit i) := by
  have hmem : ∀ j ∈ [i], j.Direct := fun j hj => mem_singleton.mp hj ▸ h
  exact fun _ _ _ hrun => ⟨_, fun _ => Item.straight_of_whole fun j hj => (hmem j hj).1.1,
    linked_whole fun j hj => (hmem j hj).2.2, appends_of_emit hrun⟩

theorem makes_call (name : String) : Makes (emitReloc (.bl 0) name .call) [name] := by
  refine fun _ _ _ hrun => ⟨_, fun it hit => ?_, .call name .nil, appends_of_emitReloc hrun⟩
  rw [mem_singleton.mp hit]
  exact ⟨rfl, by simp⟩

theorem straight_address (rd : Reg) (name : String) : StraightCode (do
    emitReloc (.adrp rd 0) name .page
    emitReloc (.addImm rd rd 0) name .pageOffset) := by
  intro c u c' hrun
  obtain ⟨_, s, hpage, hoffset⟩ := runs_bind.mp hrun
  refine ⟨_, fun it hit => ?_, .address rd name .nil,
    (appends_of_emitReloc hpage).trans (appends_of_emitReloc hoffset)⟩
  rcases mem_cons.mp hit with rfl | hit
  · exact ⟨rfl, by simp⟩
  · rw [mem_singleton.mp hit]
    exact ⟨rfl, by simp⟩

end Makes

/-- The symbols that a value calls. -/
def Func.calls (f : Func) (v : ValueId) : List String :=
  match (f.value v).op, (f.value v).payload with
  | .call, .callee callee => [callee.symbol]
  | _, _ => []

namespace Target

variable (t : Target) (v : ValueId)

theorem straight_location : StraightCode (t.location v) := by
  rw [location]
  split
  · exact straight_pure _
  · exact straight_throw _

theorem straight_regs : StraightCode (t.regs v) := by
  refine (t.straight_location v).bind fun l => ?_
  split
  · exact straight_pure _
  · exact straight_throw _

theorem straight_reg : StraightCode (t.reg v) := (t.straight_regs v).bind fun _ => straight_pure _

theorem straight_intPayload : StraightCode (t.intPayload v) := by
  rw [intPayload]
  split
  · exact straight_pure _
  · exact straight_throw _

theorem straight_natPayload : StraightCode (t.natPayload v) :=
  (t.straight_intPayload v).bind fun _ => straight_pure _

theorem straight_moveWord (src dst : WordLoc) : StraightCode (t.moveWord src dst) := by
  rw [Target.moveWord]
  split
  · rename_i his
    exact straight_direct (Frame.direct_of_mem_moveWord his)
  · exact straight_throw _

theorem straight_moves (ms : List WordMove) : StraightCode (ms.forM fun m => t.moveWord m.src m.dst) :=
  straight_forM (fun _ => t.straight_moveWord _ _) ms

theorem straight_moveAll (ms : List WordMove) : StraightCode (t.moveAll ms) := t.straight_moves _

theorem straight_emitArg : StraightCode (t.emitArg v) := by
  rw [emitArg]
  split
  · exact straight_pure _
  · refine (t.straight_location v).bind fun l => ?_
    split
    · exact straight_data fun _ hi => (data_of_mem_extendTo hi).1
    · exact straight_direct fun _ => direct_reload
    · exact straight_pure _

theorem makes_emitCall (hop : (t.func.value v).op = .call) : Makes (t.emitCall v) (t.func.calls v) := by
  rw [emitCall, Func.calls, hop]
  cases (t.func.value v).payload with
  | callee callee =>
    refine (straight_liftM _).bind fun layout => (straight_mapM (fun w => ?_) _).bind fun ms =>
      (t.straight_moveAll _).bind fun _ => (makes_call _).bind fun _ => ?_
    · refine (t.straight_location _).bind fun l => ?_
      split
      · exact (t.straight_moveWord _ _).bind fun _ => straight_pure _
      · exact straight_pure _
    · split
      · exact straight_data fun _ hi => (data_of_mem_extendTo hi).1
      · exact straight_pure _
  | _ => exact straight_throw _

theorem straight_emitStoreReg : StraightCode (t.emitStoreReg v) := by
  refine (t.straight_location _).bind fun src => (t.straight_location v).bind fun dst => ?_
  split
  · dsimp only
    split
    · split
      · exact straight_emit (direct_pair ..)
      · exact t.straight_moves _
    · exact t.straight_moves _
  · exact straight_throw _

theorem straight_emitLoadReg : StraightCode (t.emitLoadReg v) := by
  refine (t.straight_location v).bind fun dst => (t.straight_location _).bind fun src => ?_
  split
  · dsimp only
    split
    · exact straight_emit (direct_pair ..)
    · exact (t.straight_moveWord _ _).bind fun _ => t.straight_moveWord _ _
  · exact t.straight_moveWord _ _
  · exact straight_throw _

theorem straight_emitValue (hcall : (t.func.value v).op ≠ .call) : StraightCode (t.emitValue v) := by
  rw [emitValue]
  cases hop : (t.func.value v).op with
  | initMem | phi | resultPtr => exact straight_pure _
  | arg => exact t.straight_emitArg v
  | const =>
    refine (t.straight_location v).bind fun l => ?_
    split
    · exact (t.straight_intPayload v).bind fun _ => straight_data fun _ hi => (data_of_mem_movImm hi).1
    · exact straight_pure _
  | add | sub | mul | sdiv | udiv | srem | urem | and | or | xor | shl | lshr | ashr =>
    exact (t.straight_reg v).bind fun _ => (t.straight_reg _).bind fun _ =>
      (t.straight_reg _).bind fun _ => straight_data fun _ hi => (data_of_mem_binary hi).1
  | neg | not =>
    exact (t.straight_reg v).bind fun _ => (t.straight_reg _).bind fun _ =>
      straight_data fun _ hi => (data_of_mem_unary hi).1
  | cmp =>
    dsimp only
    rw [emitCompare]
    split
    · exact (t.straight_reg v).bind fun _ => (t.straight_reg _).bind fun _ =>
        (t.straight_reg _).bind fun _ => straight_data fun _ hi => (data_of_mem_compare hi).1
    · exact straight_throw _
  | signExt | zeroExt | trunc =>
    exact (t.straight_reg v).bind fun _ => (t.straight_reg _).bind fun _ =>
      straight_data fun _ hi => (data_of_mem_convert hi).1
  | copy => exact (t.straight_location v).bind fun _ => (t.straight_location _).bind fun _ => t.straight_moveAll _
  | pack =>
    exact (t.straight_location v).bind fun _ =>
      (straight_mapM (fun _ => (t.straight_location _).bind fun _ => straight_pure _) _).bind fun _ =>
        t.straight_moveAll _
  | extract =>
    exact (t.straight_location v).bind fun _ => (t.straight_location _).bind fun _ =>
      (t.straight_natPayload v).bind fun _ => t.straight_moveAll _
  | localAddr =>
    dsimp only
    rw [emitLocalAddr]
    split
    · exact (t.straight_reg v).bind fun _ => straight_data fun _ hi => (data_of_mem_addOffset hi).1
    · exact straight_throw _
  | globalAddr =>
    dsimp only
    rw [emitGlobalAddr]
    split
    · exact (t.straight_reg v).bind fun rd => straight_address rd _
    · exact straight_throw _
  | offPtr =>
    exact (t.straight_reg v).bind fun _ => (t.straight_reg _).bind fun _ =>
      (t.straight_intPayload v).bind fun _ => straight_data fun _ hi => (data_of_mem_addOffset hi).1
  | load =>
    exact (t.straight_regs v).bind fun _ => (t.straight_reg _).bind fun _ =>
      straight_direct fun _ hi => (emits_of_mem_loadValue hi).1
  | store =>
    exact (t.straight_reg _).bind fun _ => (t.straight_regs _).bind fun _ =>
      straight_direct fun _ hi => (emits_of_mem_storeValue hi).1
  | zero =>
    exact (t.straight_reg _).bind fun _ => (t.straight_natPayload v).bind fun _ =>
      straight_direct fun _ => direct_of_mem_clearBytes
  | move =>
    refine (t.straight_reg _).bind fun _ => (t.straight_reg _).bind fun _ => ?_
    split
    · exact straight_pure _
    · exact (t.straight_natPayload v).bind fun _ => straight_direct fun _ => direct_of_mem_copyBytes
  | call => exact absurd hop hcall
  | storeReg => exact t.straight_emitStoreReg v
  | loadReg => exact t.straight_emitLoadReg v
  | ret => exact straight_throw _

theorem makes_emitValue : Makes (t.emitValue v) (t.func.calls v) := by
  by_cases hop : (t.func.value v).op = .call
  · rw [emitValue, hop]
    exact t.makes_emitCall v hop
  · have hnone : t.func.calls v = [] := by
      rw [Func.calls]
      split
      · rename_i hcall _
        exact absurd hcall hop
      · rfl
    rw [hnone]
    exact t.straight_emitValue v hop

end Target

end SsaCodegen
