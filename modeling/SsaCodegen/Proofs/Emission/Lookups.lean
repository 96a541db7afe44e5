import SsaCodegen.Proofs.Emission.ControlFlow
import SsaCodegen.Proofs.Moves.Sequence

/-! What emission looks up is there: every operand needs a location, and register allocation has given it one. -/

namespace SsaCodegen

open List CallLayout Func Target

namespace Setting.Resolved

variable {c : Setting} {allowed : RegSet} {f : Func} {moves : Array (List WordMove)} {t : Outline}
  {b : BlockId} {v w : ValueId}

section

variable (h : Resolved c allowed f moves t) (hf : f.SsaForm) (hv : v ∈ (t.func.block b).values)

include h hf hv

theorem mem_source (hlt : v < f.values.size) : v ∈ (f.block b).values := by
  rw [← h.originals hf (h.lt_of_mem hv)]
  exact mem_filter.mpr ⟨hv, by simpa using hlt⟩

theorem step_at (hop : (t.func.value v).op.isLeading = false) : ∃ pre P P', (t.draft f).Step b pre P v P' := by
  obtain ⟨S, rest, hpath⟩ := h.path hf (h.lt_of_mem hv)
  rw [hpath.values] at hv
  rcases mem_append.mp hv with hv | hv
  · have hlead := Func.isLeading_of_mem_leading hv
    have hlt := (hf.placed b v (Func.mem_values_of_mem_leading hv)).1
    rw [← (h.consistent.kin v hlt).op, hop] at hlead
    cases hlead
  · obtain ⟨ws, post, rfl⟩ := append_of_mem hv
    obtain ⟨M, P, P', -, -, hstep, -⟩ := hpath.steps.at_mem
    exact ⟨_, P, P', hstep⟩

theorem compute_at (hlead : (t.func.value v).op.isLeading = false)
    (hop : (t.func.value v).op ≠ .call ∧ (t.func.value v).op ≠ .storeReg ∧
      (t.func.value v).op ≠ .loadReg ∧ (t.func.value v).op ≠ .const) :
    v < f.values.size ∧ (∃ P, (t.draft f).Renames v ((t.draft f).Held P)) ∧ (t.draft f).Settled v := by
  obtain ⟨pre, P, P', hstep⟩ := h.step_at hf hv hlead
  cases hstep with
  | compute lt _ _ _ reads settled => exact ⟨lt, ⟨P, reads⟩, settled⟩
  | call lt op isCall => exact absurd (op.trans isCall) hop.1
  | store _ op => exact absurd op hop.2.1
  | load _ op => exact absurd op hop.2.2.1
  | remake _ op => exact absurd op hop.2.2.2

end

theorem exists_phi_of_move {q : BlockId} {m : WordMove} (h : Resolved c allowed f moves t)
    (hf : f.Prepared c.types) (hm : m ∈ moves.getD q []) :
    ∃ p dst i, (t.func.value p).op = .phi ∧ (t.func.value p).loc = some dst ∧ m.dst = dst.part i := by
  rw [h.moves] at hm
  obtain ⟨b, hb, hm⟩ := mem_flatMap.mp hm
  rw [h.consistent.graph.succs] at hb
  obtain ⟨k, hk⟩ := mem_iff_getElem?.mp (hf.ssa.flow.edge.mp hb)
  rw [h.edgeCopies_eq hf.ssa hk] at hm
  obtain ⟨p, hp, hm⟩ := mem_flatMap.mp hm
  obtain ⟨src, dst, i, -, hdst, -, rfl⟩ := mem_phiCopies hm
  obtain ⟨hmem, hop, -⟩ := Func.mem_placedPhis hp
  exact ⟨p, dst, i, (h.consistent.kin p (hf.ssa.placed b p hmem).1).op.trans hop, hdst, rfl⟩

end Setting.Resolved

def CompileError.Internal : CompileError → Prop
  | .registerAllocation _ _ => True
  | _ => False

section Serves

variable {α β : Type} {R : α → Prop} {Q : β → Prop} {m : Emit α}

def Yields (m : Emit α) (R : α → Prop) : Prop := ∀ c, Meets m c (fun a _ => R a) (¬ ·.Internal)

abbrev Serves (m : Emit α) : Prop := Yields m fun _ => True

theorem yields_pure {a : α} (h : R a) : Yields (pure a : Emit α) R := fun _ => h

theorem Yields.bind {k : α → Emit β} (h : Yields m R) (hk : ∀ a, R a → Yields (k a) Q) : Yields (m >>= k) Q :=
  fun c => (h c).bind fun a c' ha => hk a ha c'

theorem serves_modify (f : Code → Code) : Serves (modify f) := fun _ => trivial

theorem serves_forM {f : α → Emit PUnit} {l : List α} (h : ∀ a ∈ l, Serves (f a)) :
    Serves (l.forM f) := fun _ =>
  meets_forM (fun _ _ => True) (fun pre a post hl c _ => h a (by rw [hl]; simp) c) trivial

theorem yields_mapM {f : α → Emit β} : ∀ {l : List α}, (∀ a ∈ l, Yields (f a) Q) →
    Yields (l.mapM f) fun bs => ∀ b ∈ bs, Q b
  | [], _ => by
    exact yields_pure fun b hb => absurd hb not_mem_nil
  | a :: l, h => by
    rw [mapM_cons]
    refine (h a mem_cons_self).bind fun b hb =>
      (yields_mapM fun a ha => h a (mem_cons_of_mem _ ha)).bind fun bs hbs => yields_pure ?_
    exact forall_mem_cons.mpr ⟨hb, hbs⟩

theorem serves_emit (i : Instr) : Serves (emit i) := by
  intro c
  rw [emit]
  split
  · exact meets_modify trivial
  · exact meets_throw id

theorem serves_emitAll (is : List Instr) : Serves (emitAll is) :=
  serves_forM fun i _ => serves_emit i

theorem serves_emitBranch (i : Instr) (b : BlockId) (kind : BranchKind) :
    Serves (emitBranch i b kind) := (serves_modify _).bind fun _ _ => serves_emit i

theorem serves_emitReloc (i : Instr) (name : String) (kind : RelocKind) :
    Serves (emitReloc i name kind) := (serves_modify _).bind fun _ _ => serves_emit i

end Serves

theorem CallLayout.error_assignArgs {f : Func} {types : TypeTable} {v : ValueId} {callee : Callee} :
    ∀ {us : List ValueId} {a : Assigner} {index : Nat} {e : CompileError},
      assignArgs f types v callee a index us = .error e → ¬e.Internal
  | [], _, _, _, h => by cases h
  | u :: us, a, index, e, h => by
    rw [assignArgs] at h
    split at h
    · cases h
      exact id
    · obtain herr | ⟨more, -, hpure⟩ := except_bind_eq_error.mp h
      · exact error_assignArgs herr
      · cases hpure

theorem CallLayout.error_of {f : Func} {types : TypeTable} {v : ValueId} {e : CompileError}
    (h : of f types v = .error e) : ¬e.Internal := by
  rw [of] at h
  dsimp only at h
  split at h
  · obtain herr | ⟨all, -, hrest⟩ := except_bind_eq_error.mp h
    · exact error_assignArgs herr
    · split at hrest
      · split at hrest
        · cases hrest
        · cases hrest
          exact id
      · cases hrest
  · cases h
    exact id

theorem ValueLoc.part_ne_imm {l : ValueLoc} (h : ∀ k, l ≠ .imm k) (i : Nat) (k : Int) : l.part i ≠ .imm k := by
  cases l with
  | imm k' => exact absurd rfl (h k')
  | pair lo hi => cases i <;> exact fun hc => by cases hc
  | _ => exact fun hc => by cases hc

namespace Target

variable {t : Target} {v : ValueId} {l : ValueLoc} {rs : List Reg} {k : Int}

theorem yields_location (h : t.At v l) : Yields (t.location v) (· = l) := by
  rw [location, show (t.func.value v).loc = some l from h]
  exact yields_pure rfl

theorem serves_regs (h : t.InRegs v rs) : Serves (t.regs v) := by
  obtain ⟨l, hl, hreg, -⟩ := h
  refine (yields_location hl).bind ?_
  rintro _ rfl
  rw [if_pos hreg]
  exact yields_pure trivial

theorem serves_reg (h : t.InRegs v rs) : Serves (t.reg v) :=
  (serves_regs h).bind fun _ _ => yields_pure trivial

theorem serves_intPayload (h : (t.func.value v).payload = .int k) : Serves (t.intPayload v) := by
  rw [intPayload, h]
  exact yields_pure trivial

theorem serves_natPayload (h : (t.func.value v).payload = .int k) :
    Serves (t.natPayload v) := (serves_intPayload h).bind fun _ _ => yields_pure trivial

theorem serves_moveWord {src dst : WordLoc} (h : ∀ k, dst ≠ .imm k) : Serves (t.moveWord src dst) := by
  rw [moveWord]
  split
  · exact serves_emitAll _
  · next hnone =>
    cases dst with
    | imm k => exact absurd rfl (h k)
    | _ => cases src <;> cases hnone

theorem serves_moveAll {moves : List WordMove} (h : ∀ m ∈ moves, ∀ k, m.dst ≠ .imm k) : Serves (t.moveAll moves) := by
  refine serves_forM fun m hm => serves_moveWord ?_
  exact (@Moves.uses_of_mem_sequentialize m _ _ (fun _ => True) (fun l => ∀ k, l ≠ .imm k)
    ⟨trivial, fun k hk => by cases hk⟩ trivial (fun m hm _ => ⟨trivial, h m hm⟩) hm).2

theorem serves_wordwise {ty : TypeId} {src dst : ValueLoc} (h : ∀ k, dst ≠ .imm k) :
    ∀ m ∈ t.valueMoves ty src dst, ∀ k, m.dst ≠ .imm k := by
  intro m hm
  obtain ⟨i, -, rfl⟩ := mem_map.mp hm
  exact ValueLoc.part_ne_imm h i

theorem serves_emitArg (htypes : t.types.Made)
    (h : (t.func.value v).hasResult → ∃ l, t.At v l) : Serves (t.emitArg v) := by
  rw [emitArg]
  split
  · exact yields_pure trivial
  · next hext =>
    have hres : (t.func.value v).hasResult := by
      rw [Value.hasResult, Bool.and_eq_true, bne_iff_ne, bne_iff_ne]
      refine ⟨?_, ?_⟩ <;> intro hty <;> refine hext ?_ <;>
        rw [hty, Instr.extendTo, htypes.kind_builtin (by decide)] <;> rfl
    obtain ⟨l, hl⟩ := h hres
    refine (yields_location hl).bind fun _ _ => ?_
    split
    · exact serves_emitAll _
    · exact serves_emitAll _
    · exact yields_pure trivial

theorem yields_emitStackArg {w : ArgWord} (h : t.At w.value l) (hdest : ∀ k, w.dest ≠ .imm k) :
    Yields (t.emitStackArg w) fun moves => ∀ m ∈ moves, ∀ k, m.dst ≠ .imm k := by
  refine (yields_location h).bind ?_
  rintro _ rfl
  split
  · exact (serves_moveWord hdest).bind fun _ _ => yields_pure fun m hm => absurd hm not_mem_nil
  · refine yields_pure fun m hm => ?_
    rw [mem_singleton.mp hm]
    exact hdest

theorem serves_emitCall {callee : Callee} (hpayload : (t.func.value v).payload = .callee callee)
    (h : ∀ a ∈ t.func.dataArgs v, ∃ l, t.At a l) : Serves (t.emitCall v) := by
  have hlayout : Yields (of t.func t.types v : Emit CallLayout) fun layout =>
      ∀ w ∈ layout.words, w.value ∈ t.func.dataArgs v ∧ w.part < t.types.parts (t.func.value w.value).ty ∧
        Assigner.new.Free 0 layout.stackSize w.dest :=
    fun c => meets_liftM (fun layout hok => (words_of hok).2) fun e he => error_of he
  rw [emitCall, hpayload]
  refine hlayout.bind fun layout hwords => ?_
  have hmoves : Yields (layout.words.mapM t.emitStackArg) fun mss =>
      ∀ ms ∈ mss, ∀ m ∈ ms, ∀ k, m.dst ≠ .imm k := by
    refine yields_mapM fun w hw => ?_
    obtain ⟨hmem, -, hdest⟩ := hwords w hw
    obtain ⟨l, hl⟩ := h _ hmem
    refine yields_emitStackArg hl fun k hk => ?_
    rcases hdest with ⟨r, hr, -⟩ | ⟨o, ho, -⟩
    · cases hr.symm.trans hk
    · cases ho.symm.trans hk
  refine hmoves.bind fun mss hmss => (serves_moveAll fun m hm => ?_).bind fun _ _ =>
    (serves_emitReloc _ _ _).bind fun _ _ => ?_
  · obtain ⟨ms, hms, hm⟩ := mem_flatten.mp hm
    exact hmss ms hms m hm
  · split
    · exact serves_emitAll _
    · exact yields_pure trivial

theorem serves_emitReturn (h : ∀ x ∈ t.func.dataArgs v, ∃ l, t.At x l) : Serves (t.emitReturn v) := by
  have hend : ∀ moves : List WordMove, (∀ m ∈ moves, ∀ k, m.dst ≠ .imm k) →
      Serves (do t.moveAll moves; emitAll t.frame.leave) := fun moves hmoves =>
    (serves_moveAll hmoves).bind fun _ _ => serves_emitAll _
  rw [emitReturn]
  cases hargs : t.func.dataArgs v with
  | nil => exact hend [] fun m hm => absurd hm not_mem_nil
  | cons x rest =>
    obtain ⟨l, hl⟩ := h x (hargs ▸ mem_cons_self)
    refine (yields_location hl).bind fun loc _ => (yields_pure fun m hm k hk => ?_).bind hend
    obtain ⟨e, -, rfl⟩ := mem_map.mp hm
    cases hk

/-- What emission needs of an operation that reads registers: its operands are in some, and so is its result
if it has one. -/
structure Supplied (t : Target) (ir : Ir.Func) (v : ValueId) (tys : List TypeId) : Prop where
  takes : (t.func.value v).op.Takes ir t.types t.func.locals.size (t.func.value v).ty (t.func.value v).payload tys
  length : (t.func.dataArgs v).length = tys.length
  held : ∀ x ∈ t.func.dataArgs v, ∃ rs, t.InRegs x rs
  result : ir.MayHold (t.func.value v).ty → ∃ rs, t.InRegs v rs

section Supplied

variable {ir : Ir.Func} {tys : List TypeId} (h : t.Supplied ir v tys)

include h

theorem Supplied.arg {n : Nat} (hn : n < tys.length) : ∃ rs, t.InRegs (t.func.arg v n) rs := by
  rw [← h.length] at hn
  rw [Func.arg, getD_eq_getElem?_getD, ← getElem?_dataArgs hn, getElem?_eq_getElem hn]
  exact h.held _ (getElem_mem hn)

theorem Supplied.serves_arg {n : Nat} (hn : n < tys.length) : Serves (t.reg (t.func.arg v n)) :=
  (h.arg hn).elim fun _ => serves_reg

theorem Supplied.serves_result (hmay : ir.MayHold (t.func.value v).ty) : Serves (t.reg v) :=
  (h.result hmay).elim fun _ => serves_reg

theorem Supplied.serves_emitCopy (hmay : ir.MayHold (t.func.value v).ty) (hn : 0 < tys.length) :
    Serves (t.emitCopy v) := by
  obtain ⟨_, dst, hdst, hreg, -⟩ := h.result hmay
  obtain ⟨_, src, hsrc, -⟩ := h.arg hn
  refine (yields_location hdst).bind ?_
  rintro _ rfl
  exact (yields_location hsrc).bind fun src _ => serves_moveAll (serves_wordwise fun k hk => by
    rw [hk] at hreg
    cases hreg)

theorem Supplied.serves_emitPack (hop : (t.func.value v).op = .pack)
    (hmay : ir.MayHold (t.func.value v).ty) : Serves (t.emitPack v) := by
  have hargs : t.func.dataArgs v = t.func.args v := by
    rw [dataArgs, hop]
    rfl
  obtain ⟨_, l, hl, hreg, -⟩ := h.result hmay
  refine (yields_location hl).bind ?_
  rintro dst rfl
  have hmoves : Yields ((t.func.args v).zipIdx.mapM fun e => do
      let src ← t.location e.1
      return (⟨src.part 0, dst.part e.2⟩ : WordMove)) fun ms => ∀ m ∈ ms, ∀ k, m.dst ≠ .imm k := by
    refine yields_mapM fun e he => ?_
    obtain ⟨_, src, hsrc, -⟩ := h.held e.1 (by
      rw [hargs]
      exact mem_of_getElem? (mem_zipIdx_iff_getElem?.mp he))
    refine (yields_location hsrc).bind fun _ _ => yields_pure ?_
    exact ValueLoc.part_ne_imm (fun k hk => by rw [hk] at hreg; cases hreg) _
  exact hmoves.bind fun ms hms => serves_moveAll hms

theorem Supplied.serves_emitExtract (hmay : ir.MayHold (t.func.value v).ty) (hn : 0 < tys.length)
    (hpayload : (t.func.value v).payload = .int k) : Serves (t.emitExtract v) := by
  obtain ⟨_, l, hl, hreg, -⟩ := h.result hmay
  obtain ⟨_, src, hsrc, -⟩ := h.arg hn
  refine (yields_location hl).bind ?_
  rintro dst rfl
  refine (yields_location hsrc).bind fun _ _ => (serves_natPayload hpayload).bind fun _ _ =>
    serves_moveAll fun m hm => ?_
  rw [mem_singleton.mp hm]
  exact ValueLoc.part_ne_imm (fun k hk => by rw [hk] at hreg; cases hreg) 0

/-- The code of a value finds all it looks up if its operands and its result have locations. -/
theorem Supplied.serves (htypes : t.types.Made) (hlead : (t.func.value v).op.isLeading = false)
    (hop : (t.func.value v).op ≠ .call ∧ (t.func.value v).op ≠ .storeReg ∧
      (t.func.value v).op ≠ .loadReg ∧ (t.func.value v).op ≠ .const ∧ (t.func.value v).op ≠ .ret) :
    Serves (t.emitValue v) := by
  have htakes := h.takes
  have hint : t.types.isInteger (t.func.value v).ty → ir.MayHold (t.func.value v).ty :=
    Ir.Func.mayHold_integer htypes
  have hptr : (t.func.value v).ty = TypeId.ptr → ir.MayHold (t.func.value v).ty := fun hty =>
    hty ▸ ir.mayHold_ptr
  rw [emitValue]
  generalize hcase : (t.func.value v).op = op at htakes hlead hop ⊢
  cases op with
  | initMem | phi | resultPtr | arg => cases hlead
  | call => exact absurd rfl hop.1
  | storeReg => exact absurd rfl hop.2.1
  | loadReg => exact absurd rfl hop.2.2.1
  | const => exact absurd rfl hop.2.2.2.1
  | ret => exact absurd rfl hop.2.2.2.2
  | add | sub | mul | sdiv | udiv | srem | urem | and | or | xor | shl | lshr | ashr =>
    obtain ⟨hty, rfl⟩ := htakes
    exact (h.serves_result (hint hty)).bind fun _ _ => (h.serves_arg Nat.zero_lt_two).bind fun _ _ =>
      (h.serves_arg Nat.one_lt_two).bind fun _ _ => serves_emitAll _
  | neg | not =>
    obtain ⟨hty, rfl⟩ := htakes
    exact (h.serves_result (hint hty)).bind fun _ _ => (h.serves_arg Nat.one_pos).bind fun _ _ => serves_emitAll _
  | cmp =>
    obtain ⟨hty, ⟨r, hr⟩, source, -, rfl⟩ := htakes
    rw [emitCompare, hr]
    exact (h.serves_result (hint (hty ▸ htypes.integer_bool))).bind fun _ _ =>
      (h.serves_arg Nat.zero_lt_two).bind fun _ _ => (h.serves_arg Nat.one_lt_two).bind fun _ _ => serves_emitAll _
  | signExt | zeroExt | trunc =>
    obtain ⟨hty, source, -, rfl⟩ := htakes
    exact (h.serves_result (hint hty)).bind fun _ _ => (h.serves_arg Nat.one_pos).bind fun _ _ => serves_emitAll _
  | copy =>
    obtain ⟨hmay, rfl⟩ := htakes
    exact h.serves_emitCopy hmay Nat.one_pos
  | pack => exact h.serves_emitPack hcase htakes.1
  | extract =>
    obtain ⟨hmay, ⟨k, hk⟩, whole, rfl⟩ := htakes
    exact h.serves_emitExtract hmay Nat.one_pos hk
  | localAddr =>
    obtain ⟨hty, ⟨l, hl, -⟩, -⟩ := htakes
    rw [emitLocalAddr, hl]
    exact (h.serves_result (hptr hty)).bind fun _ _ => serves_emitAll _
  | globalAddr =>
    obtain ⟨hty, ⟨name, hname⟩, -⟩ := htakes
    rw [emitGlobalAddr, hname]
    exact (h.serves_result (hptr hty)).bind fun _ _ => (serves_emitReloc _ _ _).bind fun _ _ => serves_emitReloc _ _ _
  | offPtr =>
    obtain ⟨hty, ⟨k, hk⟩, rfl⟩ := htakes
    exact (h.serves_result (hptr hty)).bind fun _ _ => (h.serves_arg Nat.one_pos).bind fun _ _ =>
      (serves_intPayload hk).bind fun _ _ => serves_emitAll _
  | load =>
    obtain ⟨hmay, rfl⟩ := htakes
    obtain ⟨_, hrd⟩ := h.result hmay
    exact (serves_regs hrd).bind fun _ _ => (h.serves_arg Nat.one_pos).bind fun _ _ => serves_emitAll _
  | store =>
    obtain ⟨-, stored, rfl⟩ := htakes
    obtain ⟨_, hy⟩ := h.arg Nat.one_lt_two
    exact (h.serves_arg Nat.zero_lt_two).bind fun _ _ => (serves_regs hy).bind fun _ _ => serves_emitAll _
  | zero =>
    obtain ⟨-, ⟨k, hk⟩, rfl⟩ := htakes
    exact (h.serves_arg Nat.one_pos).bind fun _ _ => (serves_natPayload hk).bind fun _ _ => serves_emitAll _
  | move =>
    obtain ⟨-, ⟨k, hk⟩, rfl⟩ := htakes
    refine (h.serves_arg Nat.zero_lt_two).bind fun _ _ => (h.serves_arg Nat.one_lt_two).bind fun _ _ => ?_
    split
    · exact yields_pure trivial
    · exact (serves_natPayload hk).bind fun _ _ => serves_emitAll _

end Supplied

end Target

theorem Ir.Func.MayHold.hasResult {ir : Ir.Func} {x : Value} (h : ir.MayHold x.ty) (hvoid : ¬ir.ReadsVoid) :
    x.hasResult := by
  rw [Value.hasResult, Bool.and_eq_true, bne_iff_ne, bne_iff_ne]
  exact ⟨h.1, fun hty => hvoid (h.2 hty)⟩

namespace Setting.Resolved

variable {c : Setting} {allowed : RegSet} {f : Func} {t : Outline} {b : BlockId} {v x u : ValueId}
  {ir : Ir.Func} {a : Allocation} {P : Claims}

variable (h : Resolved c allowed f a.edgeMoves t) (hf : f.Prepared c.types) (hty : f.Typed ir c.types)
  (hvoid : ¬ir.ReadsVoid)

include h in
theorem renamed (hlt : v < f.values.size) (hc : f.Computes ir c.types v) (hvoid : ¬ir.ReadsVoid)
    {R : ValueId → ValueId → Prop} (hren : (t.draft f).Renames v R) {k : Nat}
    (hx : (t.func.dataArgs v)[k]? = some x) : ∃ u, R u x := by
  have hk : k < (f.dataArgs v).length := by
    rw [← h.consistent.dataArgs_length hlt hren.1]
    exact (List.getElem?_eq_some_iff.mp hx).1
  have hu := getElem?_eq_getElem hk
  have hhas := (hc.operands _ (mem_map_of_mem (getElem_mem hk))).hasResult hvoid
  rcases hren.2 k _ x ((getElem?_dataArgs hk).symm.trans hu)
      ((getElem?_dataArgs (List.getElem?_eq_some_iff.mp hx).1).symm.trans hx) with hR | ⟨-, hnone⟩
  · exact ⟨_, hR⟩
  · cases (hnone hk).symm.trans hhas

theorem in_regs_of_held (hheld : (t.draft f).Held P u x) : ∃ rs, (a.target t.func c.types).InRegs x rs := by
  obtain ⟨l, hl, hreg⟩ := exists_loc_of_regsOf hheld.1
  exact ⟨l.regs, l, hl, hreg, rfl⟩

include h in
theorem at_of_atHand {pre : List ValueId} (hx : (t.draft f).AtHand b pre P u x) :
    ∃ l, (a.target t.func c.types).At x l := by
  rcases hx with hheld | ⟨hhome, -⟩
  · obtain ⟨l, hl, -⟩ := exists_loc_of_regsOf hheld.1
    exact ⟨l, hl⟩
  · obtain ⟨-, ⟨rfl, l, hl, -⟩ | ⟨-, -, -, -, ⟨slot, hl⟩, -⟩⟩ := h.consistent.homes u x hhome
    · exact ⟨l, hl⟩
    · exact ⟨_, hl⟩

include h hf hty hvoid

/-- Operations that are neither calls nor constants find their operands in registers. -/
theorem supplied (hv : v ∈ (t.func.block b).values) (hlead : (t.func.value v).op.isLeading = false)
    (hop : (t.func.value v).op ≠ .call ∧ (t.func.value v).op ≠ .storeReg ∧
      (t.func.value v).op ≠ .loadReg ∧ (t.func.value v).op ≠ .const) :
    (a.target t.func c.types).Supplied ir v (f.dataTypes v) := by
  obtain ⟨hlt, ⟨P, hreads⟩, hsettled⟩ := h.compute_at hf.ssa hv hlead hop
  have hkin := h.consistent.kin v hlt
  have hc := hty v hlt (by rw [← hkin.op]; exact hlead)
  refine ⟨?_, ?_, fun x hx => ?_, fun hmay => ?_⟩
  · change (t.func.value v).op.Takes ir c.types t.func.locals.size (t.func.value v).ty (t.func.value v).payload _
    rw [hkin.op, hkin.ty, hkin.payload, h.consistent.locals]
    exact hc.takes
  · rw [dataTypes, length_map]
    exact h.consistent.dataArgs_length hlt hreads.1
  · obtain ⟨k, hk⟩ := mem_iff_getElem?.mp hx
    obtain ⟨u, hheld⟩ := h.renamed hlt hc hvoid hreads hk
    exact in_regs_of_held hheld
  · have hres := (h.consistent.hasResult hlt).symm.trans (hmay.hasResult hvoid)
    obtain ⟨l, hl⟩ := Option.ne_none_iff_exists'.mp (hsettled.located hres)
    refine ⟨l.regs, l, hl, (hsettled.place l hl).resolve_right fun hconst => ?_, rfl⟩
    exact hop.2.2.2 (hkin.op.trans hconst.1)

theorem serves_const (htypes : c.types.Made) (hv : v ∈ (t.func.block b).values)
    (hop : (t.func.value v).op = .const) : Serves ((a.target t.func c.types).emitConst v) := by
  have hfound : ∃ l k, (t.func.value v).loc = some l ∧ (t.func.value v).payload = .int k := by
    obtain ⟨pre, P, P', hstep⟩ := h.step_at hf.ssa hv (by rw [hop]; rfl)
    cases hstep with
    | compute lt op _ _ _ settled =>
      replace op : (f.value v).op = .const := op.symm.trans hop
      have hc := (hty v lt (by rw [op]; rfl)).takes
      rw [op] at hc
      obtain ⟨hint, ⟨k, hk⟩, -⟩ := hc
      obtain ⟨l, hl⟩ := Option.ne_none_iff_exists'.mp
        (settled.located ((Ir.Func.mayHold_integer htypes hint).hasResult hvoid))
      exact ⟨l, k, hl, (h.consistent.kin v lt).payload.trans hk⟩
    | remake _ _ payload _ _ _ _ regs =>
      obtain ⟨l, hl, -⟩ := exists_loc_of_regsOf regs
      exact ⟨l, _, hl, payload⟩
    | call _ op isCall => cases (hop.symm.trans op).trans isCall
    | store _ op | load _ op => cases hop.symm.trans op
  obtain ⟨l, k, hl, hk⟩ := hfound
  refine (yields_location (t := a.target t.func c.types) hl).bind fun _ _ => ?_
  split
  · exact (serves_intPayload hk).bind fun _ _ => serves_emitAll _
  · exact yields_pure trivial

theorem serves_call (hv : v ∈ (t.func.block b).values) (hop : (t.func.value v).op = .call) :
    Serves ((a.target t.func c.types).emitCall v) := by
  obtain ⟨pre, P, P', hstep⟩ := h.step_at hf.ssa hv (by rw [hop]; rfl)
  cases hstep with
  | compute _ op _ other => exact absurd (op.symm.trans hop) other
  | call lt op isCall reads =>
    have hc := hty v lt (by rw [show (f.value v).op = .call from isCall]; rfl)
    have htakes := hc.takes
    rw [show (f.value v).op = .call from isCall] at htakes
    obtain ⟨callee, hcallee⟩ := htakes
    refine serves_emitCall ((h.consistent.kin v lt).payload.trans hcallee) fun x hx => ?_
    obtain ⟨k, hk⟩ := mem_iff_getElem?.mp hx
    obtain ⟨u, hhand⟩ := h.renamed lt hc hvoid reads hk
    exact h.at_of_atHand hhand
  | store _ op | load _ op | remake _ op => cases hop.symm.trans op

omit hty hvoid

theorem serves_storeReg (hv : v ∈ (t.func.block b).values) (hop : (t.func.value v).op = .storeReg) :
    Serves ((a.target t.func c.types).emitStoreReg v) := by
  obtain ⟨pre, P, P', hstep⟩ := h.step_at hf.ssa hv (by rw [hop]; rfl)
  cases hstep with
  | compute lt op => exact absurd (op.symm.trans hop) (hf.own b v (h.mem_source hf.ssa hv lt)).1
  | call _ op isCall => cases (hop.symm.trans op).trans isCall
  | @store u slot _ _ args _ _ loc held =>
    obtain ⟨l, hl, -⟩ := exists_loc_of_regsOf held.1
    have harg : t.func.arg v 0 = u := by
      rw [Func.arg, show t.func.args v = [u] from args]
      rfl
    rw [← harg] at hl
    refine (yields_location (t := a.target t.func c.types) hl).bind fun src _ =>
      (yields_location (t := a.target t.func c.types) loc).bind ?_
    rintro _ rfl
    have hwords : ∀ m ∈ (a.target t.func c.types).valueMoves (t.func.value v).ty src (.stack slot),
        ∀ k, m.dst ≠ .imm k := serves_wordwise fun k hk => by cases hk
    have hwordwise := serves_forM fun m hm =>
      @serves_moveWord (a.target t.func c.types) m.src m.dst (hwords m hm)
    dsimp only
    split
    · split
      · exact serves_emit _
      · exact hwordwise
    · exact hwordwise
  | load _ op | remake _ op => cases hop.symm.trans op

theorem serves_loadReg (hv : v ∈ (t.func.block b).values) (hop : (t.func.value v).op = .loadReg) :
    Serves ((a.target t.func c.types).emitLoadReg v) := by
  obtain ⟨pre, P, P', hstep⟩ := h.step_at hf.ssa hv (by rw [hop]; rfl)
  cases hstep with
  | compute lt op => exact absurd (op.symm.trans hop) (hf.own b v (h.mem_source hf.ssa hv lt)).2.1
  | call _ op isCall => cases (hop.symm.trans op).trans isCall
  | @load u x slot _ _ args _ loc _ _ regs =>
    obtain ⟨l, hl, hreg⟩ := exists_loc_of_regsOf regs
    have harg : t.func.arg v 0 = x := by
      rw [Func.arg, show t.func.args v = [x] from args]
      rfl
    rw [← harg] at loc
    refine (yields_location (t := a.target t.func c.types) hl).bind ?_
    rintro dst rfl
    refine (yields_location (t := a.target t.func c.types) loc).bind ?_
    rintro _ rfl
    have hword : ∀ src r, Serves ((a.target t.func c.types).moveWord src (.reg r)) :=
      fun src r => serves_moveWord fun k hk => by cases hk
    cases dst with
    | reg r => exact hword _ r
    | pair lo hi =>
      dsimp only
      split
      · exact serves_emit _
      · exact (hword _ lo).bind fun _ _ => hword _ hi
    | stack | imm => cases hreg
  | store _ op | remake _ op => cases hop.symm.trans op

include hty hvoid

theorem serves_emitValue (htypes : c.types.Made) (hv : v ∈ (t.func.block b).values) :
    Serves ((a.target t.func c.types).emitValue v) := by
  have hret : (t.func.value v).op ≠ .ret := by
    intro hop
    obtain ⟨hlt, -⟩ := h.compute_at hf.ssa hv (by rw [hop]; rfl) (by rw [hop]; decide)
    rw [(h.consistent.kin v hlt).op] at hop
    exact (hf.own b v (h.mem_source hf.ssa hv hlt)).2.2 hop
  have hvalue : (a.target t.func c.types).func.value v = t.func.value v := rfl
  cases hop : (t.func.value v).op with
  | initMem | phi | resultPtr =>
    rw [emitValue, hvalue, hop]
    exact yields_pure trivial
  | arg =>
    rw [emitValue, hvalue, hop]
    exact serves_emitArg htypes fun hres => Option.ne_none_iff_exists'.mp (h.located hf.ssa hv hres)
  | const =>
    rw [emitValue, hvalue, hop]
    exact h.serves_const hf hty hvoid htypes hv hop
  | call =>
    rw [emitValue, hvalue, hop]
    exact h.serves_call hf hty hvoid hv hop
  | storeReg =>
    rw [emitValue, hvalue, hop]
    exact h.serves_storeReg hf hv hop
  | loadReg =>
    rw [emitValue, hvalue, hop]
    exact h.serves_loadReg hf hv hop
  | ret => exact absurd hop hret
  | _ =>
    refine (h.supplied hf hty hvoid hv ?_ ?_).serves htypes ?_ ?_
    · rw [hop]
      rfl
    · rw [hop]
      decide
    · rw [hvalue, hop]
      rfl
    · rw [hvalue, hop]
      decide

theorem serves_emitControl (hb : b < f.blocks.size) (next : Option BlockId) :
    Serves ((a.target t.func c.types).emitControl b next) := by
  have hgraph := h.consistent.graph
  have hclosed := h.closed hf.ssa hb
  have hsuccs := hf.ssa.flow.kind b hb
  have hkind : ((a.target t.func c.types).func.block b).kind = (f.block b).kind := hgraph.kind b
  have hmoves : ∀ m ∈ a.edgeMoves.getD b [], ∀ k, m.dst ≠ .imm k := by
    intro m hm k
    obtain ⟨p, dst, i, hop, hdst, hm⟩ := h.exists_phi_of_move hf hm
    rw [hm]
    refine ValueLoc.part_ne_imm (fun k hk => ?_) i k
    rw [hk] at hdst
    cases hop.symm.trans (h.consistent.tidy.const p k hdst).1
  rw [emitControl]
  cases hcase : (f.block b).kind with
  | plain =>
    rw [hkind, hcase]
    refine (serves_moveAll hmoves).bind fun _ _ => ?_
    rw [hcase, ← hgraph.succs] at hsuccs
    split
    · next hnone => cases (congrArg List.length hnone).symm.trans hsuccs
    · split
      · exact serves_emitBranch _ _ _
      · exact yields_pure trivial
  | branch =>
    obtain ⟨u, x, -, hx, hheld⟩ := hclosed.branch hcase
    obtain ⟨_, hreg⟩ := in_regs_of_held hheld
    have hnone := h.moves_of_choice hf (by rw [hsuccs, hcase]; rfl)
    rw [hkind, hcase, show ((a.target t.func c.types).func.block b).control = _ from hx,
      show (a.target t.func c.types).edgeMoves.getD b [] = _ from hnone]
    refine (serves_reg hreg).bind fun cond _ => ?_
    rw [emitChoice]
    split
    · exact serves_emitBranch _ _ _
    · refine (serves_emitBranch _ _ _).bind fun _ _ => ?_
      split
      · exact serves_emitBranch _ _ _
      · exact yields_pure trivial
  | ret =>
    obtain ⟨v, hv, hlt, hop, -⟩ := hf.ssa.ret b hb hcase
    have hplain := hclosed.plain (by rw [hcase]; decide)
    have hreads := hclosed.ret v hcase hv
    rw [hkind, hcase, show ((a.target t.func c.types).func.block b).control = _ from hplain, hv]
    refine serves_emitReturn fun x hx => ?_
    obtain ⟨k, hk⟩ := mem_iff_getElem?.mp hx
    obtain ⟨u, hhand⟩ := h.renamed hlt (hty v hlt (by rw [hop]; rfl)) hvoid hreads hk
    exact h.at_of_atHand hhand

end Setting.Resolved

end SsaCodegen
