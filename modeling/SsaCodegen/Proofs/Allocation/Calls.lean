import SsaCodegen.Proofs.Allocation.Instructions
import SsaCodegen.Proofs.Convention

/-! Calls, returns and branches, and with them every value of a block. Past a call, all that is needed is in
memory. -/

namespace SsaCodegen.Setting

open List Claims Func Option Registers

variable {c : Setting} {allowed : RegSet} {f : Func} {vis : List BlockId} {P : Claims}
  {s s' s'' : Allocator} {b : BlockId} {u v w a : ValueId} {r : Reg} {done post : List ValueId}
  {busy : Option ValueId} {n : Nat}

/-- Values have got homes, and nothing else has changed. -/
structure Saved (c : Setting) (allowed : RegSet) (f : Func) (vis : List BlockId) (b : BlockId)
    (done : List ValueId) (busy : Option ValueId) (s s' : Allocator) : Prop where
  ready : Ready c allowed f vis b done busy s'
  onward : s.outline.Onward s'.outline f
  occupant? : s'.regs.occupant? = s.regs.occupant?

protected theorem Saved.refl (h : Ready c allowed f vis b done busy s) :
    Saved c allowed f vis b done busy s s := ⟨h, .refl _ f, rfl⟩

theorem Saved.trans (h : Saved c allowed f vis b done busy s s')
    (h' : Saved c allowed f vis b done busy s' s'') : Saved c allowed f vis b done busy s s'' :=
  ⟨h'.ready, h.onward.trans h'.onward, h'.occupant?.trans h.occupant?⟩

theorem Ready.home (h : Ready c allowed f vis b done busy s) (hf : f.SsaForm) (hu : Placed f vis s u)
    (hrun : Runs (c.home u) s a s') : Saved c allowed f vis b done busy s s' := by
  have hspec := home_spec hf hrun h.consistent hu
  refine ⟨h.onward hf hspec.onward ?_ ((h.regs.onward hspec.onward).alike hspec.alike)
    hspec.alike.allocatable, hspec.onward, hspec.alike.occupant?⟩
  rw [hspec.alike.occupant?]
  exact hspec.consistent

theorem Saved.atHand (h : Saved c allowed f vis b done busy s s')
    (hcur : s.current = some b) (hu : (s.outline.draft f).AtHand b s.out s.regs.occupant? u a) :
    (s'.outline.draft f).AtHand b s'.out s'.regs.occupant? u a := by
  rw [h.occupant?]
  refine (hu.extend h.onward.extends_draft).mono (fun v hv => ?_) (.refl _)
  have hmem := h.onward.members b v
  rw [Outline.valuesOf_current hcur, Outline.valuesOf_current h.ready.current] at hmem
  exact hmem hv

theorem copyOf_spec (hf : f.SsaForm) (hrun : Runs (c.copyOf u) s a s')
    (h : Ready c allowed f vis b done busy s) (hu : Placed f vis s u) :
    Saved c allowed f vis b done busy s s' ∧ (s'.outline.draft f).AtHand b s'.out s'.regs.occupant? u a := by
  rw [copyOf, runs_get_bind] at hrun
  dsimp only at hrun
  split at hrun
  · rename_i r rest hr
    obtain ⟨rfl, rfl⟩ := runs_pure.mp hrun
    exact ⟨.refl h, .inl (held_of_regsOf h.regs hr)⟩
  · have hspec := home_spec hf hrun h.consistent hu
    have hsaved := h.home hf hu hrun
    have hplaced := hu.onward hsaved.onward
    have hstored := stored_of_home hf hspec.consistent hplaced.1 hplaced.2 hspec.home b
    rw [Outline.valuesOf_current hsaved.ready.current] at hstored
    exact ⟨hsaved, .inr hstored⟩

/-- Of the operands of `v`, the first `n` name copies that are at hand. -/
structure Copying (c : Setting) (allowed : RegSet) (f : Func) (vis : List BlockId) (b : BlockId)
    (done : List ValueId) (v : ValueId) (n : Nat) (s : Allocator) : Prop
    extends Ready c allowed f vis b done (some v) s where
  length : (s.func.args v).length = (f.args v).length
  named : ∀ k a, k < n → (f.args v)[k]? = some a → ∃ a', (s.func.args v)[k]? = some a' ∧
    (s.outline.draft f).AtHand b s.out s.regs.occupant? a a'
  rest : ∀ k, n ≤ k → (s.func.args v)[k]? = (f.args v)[k]?

theorem Copying.saved (h : Copying c allowed f vis b done v n s) (hlt : v < f.values.size)
    (hs : Saved c allowed f vis b done (some v) s s') : Copying c allowed f vis b done v n s' := by
  have hargs := (hs.onward.agrees v (hlt.trans_le h.consistent.size_le)).args
  refine ⟨hs.ready, hargs ▸ h.length, fun k a hk ha => ?_, fun k hk => hargs ▸ h.rest k hk⟩
  obtain ⟨a', ha', hhand⟩ := h.named k a hk ha
  exact ⟨a', hargs ▸ ha', hs.atHand h.current hhand⟩

theorem Copying.step (h : Copying c allowed f vis b done v n s) (hf : f.SsaForm) (hv : Pending f b done v)
    (hu : Placed f vis s u) (hk : (f.args v)[n]? = some u) (hrun : Runs (do
      let copy ← c.copyOf u
      if copy ≠ u then modify fun s => { s with func := s.func.setArg v n copy }) s ⟨⟩ s') :
    Copying c allowed f vis b done v (n + 1) s' := by
  obtain ⟨a, t, hcopy, hset⟩ := runs_bind.mp hrun
  obtain ⟨hsaved, hhand⟩ := copyOf_spec hf hcopy h.toReady hu
  have ht := h.saved (hv.lt hf) hsaved
  have hlt := (hv.lt hf).trans_le ht.consistent.size_le
  have hn : n < (t.func.args v).length := by
    rw [ht.length]
    exact (List.getElem?_eq_some_iff.mp hk).1
  by_cases ha : a = u
  · rw [if_neg (by simpa using ha)] at hset
    obtain ⟨-, rfl⟩ := runs_pure.mp hset
    refine ⟨ht.toReady, ht.length, fun k x hk' hx => ?_, fun k hk' => ht.rest k (by omega)⟩
    rcases Nat.lt_succ_iff_lt_or_eq.mp hk' with hk' | rfl
    · exact ht.named k x hk' hx
    · rw [hk, some_inj] at hx
      subst hx
      exact ⟨u, (ht.rest k le_rfl).trans hk, ha ▸ hhand⟩
  · rw [if_pos ha] at hset
    have hfinal := runs_modify.mp hset
    have hargs : s'.func.args v = (t.func.args v).set n a := by
      rw [hfinal]
      exact ht.consistent.spans.args_setArg_self hlt hn a
    have hready : Ready c allowed f vis b done (some v) s' := by
      refine ht.toReady.withOperands hf hv (t.func.setArg v n a).operands ?_ ?_
        (ht.consistent.spans.setArg v n a) fun w hw => ?_
      · rw [hfinal]
        rfl
      · rw [hfinal]
      · exact ht.consistent.spans.args_setArg_other hlt hn a hw
    have hhand' : ∀ x x', (t.outline.draft f).AtHand b t.out t.regs.occupant? x x' →
        (s'.outline.draft f).AtHand b s'.out s'.regs.occupant? x x' := by
      intro x x' hx
      rw [hfinal]
      exact hx
    refine ⟨hready, ?_, fun k x hk' hx => ?_, fun k hk' => ?_⟩
    · rw [hargs, length_set]
      exact ht.length
    · rw [hargs]
      rcases Nat.lt_succ_iff_lt_or_eq.mp hk' with hk' | rfl
      · rw [getElem?_set_ne (by omega)]
        obtain ⟨x', hx', hnamed⟩ := ht.named k x hk' hx
        exact ⟨x', hx', hhand' x x' hnamed⟩
      · rw [hk, some_inj] at hx
        subst hx
        exact ⟨a, getElem?_set_self hn, hhand' u a hhand⟩
    · rw [hargs, getElem?_set_ne (by omega)]
      exact ht.rest k (by omega)

theorem useCopies_spec (hf : f.SsaForm) (hrun : Runs (c.useCopies v) s ⟨⟩ s')
    (h : Ready c allowed f vis b done none s) (hv : Pending f b done v)
    (hplaced : ∀ {t : Allocator}, Ready c allowed f vis b done (some v) t →
      ∀ u ∈ f.dataArgs v, Placed f vis t u) : Copying c allowed f vis b done v (f.dataArgs v).length s' := by
  rw [useCopies, runs_get_bind, h.dataArgs_eq hf hv nofun] at hrun
  have hready : Ready c allowed f vis b done (some v) s := { h with untouched := h.untouched.start }
  have hargs := h.args_eq hf hv nofun
  have hstart : Copying c allowed f vis b done v 0 s :=
    ⟨hready, by rw [hargs], nofun, fun k _ => by rw [hargs]⟩
  have hall := runs_forM_invariant (fun pre t => Copying c allowed f vis b done v pre.length t) ?_ hstart hrun
  · rwa [length_zipIdx] at hall
  · rintro pre ⟨u, k⟩ rest hsplit t t' ht hstep
    have hget : (f.dataArgs v).zipIdx[pre.length]? = some (u, k) := by
      rw [hsplit, getElem?_append_right le_rfl, Nat.sub_self]
      rfl
    rw [getElem?_zipIdx] at hget
    obtain ⟨x, hx, heq⟩ := map_eq_some_iff.mp hget
    obtain ⟨rfl, rfl⟩ := Prod.mk.inj heq
    rw [Nat.zero_add] at hstep
    rw [length_append]
    have hk := (List.getElem?_eq_some_iff.mp hx).1
    refine ht.step hf hv (hplaced ht.toReady x (mem_of_getElem? hx)) ?_ hstep
    rw [← getElem?_dataArgs hk, hx]

theorem Copying.reads (h : Copying c allowed f vis b done v (f.dataArgs v).length s) :
    (s.outline.draft f).Renames v ((s.outline.draft f).AtHand b s.out s.regs.occupant?) := by
  refine ⟨h.length, fun k x x' hx hx' => ?_⟩
  change (s.func.args v)[k]? = some x' at hx'
  by_cases hk : k < (f.dataArgs v).length
  · obtain ⟨y, hy, hhand⟩ := h.named k x hk hx
    rw [hy, some_inj] at hx'
    exact .inl (hx' ▸ hhand)
  · have hrest := (h.rest k (not_lt.mp hk)).trans hx
    rw [hrest, some_inj] at hx'
    exact .inr ⟨hx'.symm, fun hk' => absurd hk' hk⟩

theorem saveLive_spec (hf : f.SsaForm) (hrun : Runs c.saveLive s ⟨⟩ s')
    (h : Ready c allowed f vis b done busy s) : Saved c allowed f vis b done busy s s' := by
  refine runs_forM_invariant (fun _ t => Saved c allowed f vis b done busy s t) ?_ (.refl h) hrun
  rintro pre ⟨r, o⟩ rest hsplit t t' ht hstep
  rw [runs_get_bind] at hstep
  split at hstep
  · obtain ⟨a, hhome, -⟩ := runs_bind_pure.mp hstep
    have hmem := mem_iff_append.mpr ⟨_, _, hsplit⟩
    rw [mem_occupied, ← ht.occupant?] at hmem
    exact ht.trans (ht.ready.home hf (ht.ready.regs.founded.placed r o hmem) hhome)
  · obtain ⟨-, rfl⟩ := runs_pure.mp hstep
    exact ht

theorem regsFit_clear (t : Outline) (f : Func) (vis : List BlockId) (regs : Registers) :
    RegsFit t f vis regs.clear := by
  have hempty : ∀ r o, regs.clear.occupant? r ≠ some o := by
    rw [occupant?_clear]
    exact nofun
  exact ⟨⟨fun r o ho => absurd ho (hempty r o), fun r o ho => absurd ho (hempty r o)⟩,
    fun r r' o o' _ ho => absurd ho (hempty r o)⟩

/-- A call empties the registers, reads its arguments where they are, and leaves its result in registers. -/
theorem allocateCall_spec (hf : f.SsaForm) (hrun : Runs (c.allocateCall v) s ⟨⟩ s')
    (h : Ready c allowed f vis b done none s) (hvals : (f.block b).values = done ++ v :: post)
    (hdom : ∀ d, d ≠ b → f.Dominates d b → d ∈ vis) (hcall : (f.value v).op = .call)
    (hlow : ∀ r : Reg, r.val < 2 → allowed.contains r) : Ready c allowed f vis b (done ++ [v]) none s' := by
  have hinner : (f.value v).op.isLeading = false := by rw [hcall]; rfl
  have hplaced : ∀ {t : Allocator}, Ready c allowed f vis b done (some v) t →
      ∀ u ∈ f.dataArgs v, Placed f vis t u := by
    intro t ht u hu
    refine ht.placed_of_before hf hdom (hf.reads b done v post hvals ?_ u ?_)
    · rw [hcall]
      exact nofun
    · exact (f.dataArgs_front v).subset hu
  have hlt := Pending.lt (.next hvals) hf
  obtain ⟨_, s1, huse, h1⟩ := runs_bind.mp hrun
  obtain ⟨_, s2, hsave, h2⟩ := runs_bind.mp h1
  rw [runs_get_bind] at h2
  obtain ⟨layout, s3, hlayout, h3⟩ := runs_bind.mp h2
  obtain ⟨hlayout, rfl⟩ := runs_liftM.mp hlayout
  obtain ⟨_, s4, hclear, h4⟩ := runs_bind.mp h3
  have hcopies := useCopies_spec hf huse h (.next hvals) hplaced
  have hcopying := hcopies.saved hlt (saveLive_spec hf hsave hcopies.toReady)
  have hready := hcopying.toReady
  have hkin := hready.consistent.kin v hlt
  have hsize := hlt.trans_le hready.consistent.size_le
  have hnone := hready.untouched.loc v hlt (hready.unplaced hf (.next hvals))
  have hfinal := runs_modify.mp hclear
  have hempty : s4.regs.occupant? = empty := by
    rw [hfinal]
    exact occupant?_clear s3.regs
  have hclear : ∀ t : Outline, RegsFit t f vis s4.regs := fun t => by
    rw [hfinal]
    exact regsFit_clear t f vis s3.regs
  have hal : s4.regs.allocatable = s3.regs.allocatable := by
    rw [hfinal]
    rfl
  rcases CallLayout.result_of hlayout with ⟨hres, hno⟩ | ⟨l, hres, hreg, hnodup, hsmall, hwidth⟩
  · rw [hres] at h4
    obtain ⟨-, rfl⟩ := runs_pure.mp h4
    have hstep : (s3.outline.draft f).Step b s3.out s3.regs.occupant? v empty := by
      have hregs := regsOf_of_none hnone
      rw [← put_nil empty v v, ← hregs]
      refine .call hlt hkin.op hcall hcopying.reads ⟨fun hyes => ?_, fun l hl => ?_⟩
      · exact nomatch hyes.symm.trans ((hready.consistent.hasResult hlt).symm.trans hno)
      · exact absurd (hnone.symm.trans hl) nofun
    refine hready.emitPlain hf hvals hinner hready.consistent hstep ?_ ?_ (hclear _) hal
    · rw [hfinal]
      rfl
    · rw [hempty]
      exact .refl _
  · rw [hres] at h4
    obtain ⟨_, s5, hhold, hrelease⟩ := runs_bind.mp h4
    have hfinal' := runs_modify.mp hhold
    let t := s3.outline.setLoc v l s3.spillSize
    have htidy : Tidy c allowed t.func s3.spillSize := by
      refine hready.consistent.tidy.setLoc le_rfl hsize hnodup (fun _ => hwidth) ?_ ?_ ?_ ?_
      · rintro (hload | hphi | ⟨slot, rfl⟩)
        · exact nomatch hload.symm.trans (hkin.op.trans hcall)
        · exact nomatch hphi.symm.trans (hkin.op.trans hcall)
        · cases hreg
      · rintro k rfl
        cases hreg
      · refine .inr ⟨fun r hr => hlow r (hsmall r hr), ?_⟩
        rintro slot rfl
        cases hreg
      · rintro o rfl
        cases hreg
    have hstep : (t.draft f).Step b s3.out s3.regs.occupant? v (empty.put v v l.regs) := by
      have hself : t.func.value v = { s3.func.value v with loc := some l } := value_setLoc_self hsize (some l)
      rw [show l.regs = t.func.regsOf v from (regsOf_of_loc (by rw [hself])).symm]
      refine .call hlt ((congrArg Value.op hself).trans hkin.op) hcall ?_ (settled_setRegs _ hsize hreg)
      refine hcopying.reads.extend rfl (s3.func.args_setLoc v v _) fun x x' hx => ?_
      exact hx.extend (Outline.extends_setLoc _ hnone)
    have hready5 : Ready c allowed f vis b (done ++ [v]) none s5 := by
      refine hready.emitHeld hf hvals hinner hready.consistent hreg hnodup htidy hstep ?_ (hclear _) ?_ ?_ hal ?_ ?_
      · rw [hempty]
        exact .refl _
      · intro r _
        rw [hempty]
        rfl
      · intro r o ho
        rw [hempty] at ho
        cases ho
      · rw [hfinal', hfinal]
        rfl
      · rw [hfinal']
        rfl
    exact (hready5.releaseDead hrelease).1

/-- The block is done except for its list of values: `t` is the state before its control is replaced by
`control`, which reads what is at hand. -/
structure Controlled (c : Setting) (allowed : RegSet) (f : Func) (vis : List BlockId) (b : BlockId)
    (done : List ValueId) (control : Option ValueId) (t s : Allocator) : Prop where
  ready : ∃ busy, Ready c allowed f vis b done busy t ∧ ∀ v, some v = busy →
    (f.block b).kind = .ret ∧ (f.block b).control = some v
  outline : s.outline = { t.outline with func := t.func.modifyBlock b ({ · with control }) }
  occupant? : s.regs.occupant? = t.regs.occupant?
  allocatable : s.regs.allocatable = t.regs.allocatable
  branch : (f.block b).kind = .branch → ∃ u a, (f.block b).control = some u ∧ control = some a ∧
    (t.outline.draft f).Held t.regs.occupant? u a
  plain : (f.block b).kind ≠ .branch → control = (f.block b).control
  ret : ∀ v, (f.block b).kind = .ret → (f.block b).control = some v →
    (t.outline.draft f).Renames v ((t.outline.draft f).AtHand b t.out t.regs.occupant?)

theorem modifyBlock_control_self {g : Func} {control : Option ValueId}
    (h : (g.block b).control = control) : g.modifyBlock b ({ · with control }) = g := by
  have hsame : g.blocks.modify b ({ · with control }) = g.blocks := by
    apply Array.ext
    · exact Array.size_modify
    · intro i hi hi'
      rw [Array.getElem_modify]
      split
      · rename_i heq
        rw [heq, block, Array.getD_eq_getD_getElem?, Array.getElem?_eq_getElem hi'] at h
        subst h
        rfl
      · rfl
  rw [modifyBlock, hsame]

theorem Ready.block_eq (h : Ready c allowed f vis b done busy s) : s.func.block b = f.block b :=
  h.consistent.todo b (.inr h.current)

theorem allocateControl_spec (hf : f.SsaForm) (hrun : Runs (c.allocateControl b) s ⟨⟩ s')
    (h : Ready c allowed f vis b done none s) (hlt : b < f.blocks.size)
    (hdom : ∀ d, d ≠ b → f.Dominates d b → d ∈ vis) (hdone : done = (f.block b).values) :
    ∃ control t, Controlled c allowed f vis b done control t s' := by
  have hplaced : ∀ {busy : Option ValueId} {t : Allocator}, Ready c allowed f vis b done busy t →
      ∀ u, f.AtEnd u b → Placed f vis t u := by
    rintro busy t ht u ⟨d, hu, hd⟩
    by_cases hne : d = b
    · refine ht.placed_of_before hf hdom (.inl ?_)
      rw [hdone, ← hne]
      exact hu
    · exact ht.placed_of_mem hf (hdom d hne hd) hne hu
  rw [allocateControl, runs_get_bind, h.block_eq] at hrun
  dsimp only at hrun
  split at hrun
  · rename_i u hkind hcontrol
    obtain ⟨a, s1, huse, h1⟩ := runs_bind.mp hrun
    obtain ⟨_, s2, hset, hunlock⟩ := runs_bind.mp h1
    have hspec := useInReg_spec hf huse h.consistent h.regs h.current h.mem
      (hplaced h u (hf.branch_control hkind hcontrol)) (hf.branch_control hkind hcontrol) h.allocatable
    have hready := h.onward hf hspec.onward hspec.consistent hspec.regs hspec.allocatable
    obtain rfl := runs_modify.mp hset
    obtain rfl := runs_modify.mp hunlock
    refine ⟨some a, s1, ⟨none, hready, nofun⟩, rfl, rfl, rfl,
      fun _ => ⟨u, a, hcontrol, rfl, hspec.held⟩, fun hne => absurd hkind hne, fun v hret _ => ?_⟩
    rw [hkind] at hret
    cases hret
  · rename_i v hkind hcontrol
    obtain ⟨_, s1, huse, hunlock⟩ := runs_bind.mp hrun
    have hcopies := useCopies_spec hf huse h (.ret hkind hcontrol) fun ht u hu =>
      hplaced ht u ((hf.ret_control hkind hcontrol).2.2.2 u ((f.dataArgs_front v).subset hu))
    obtain rfl := runs_modify.mp hunlock
    refine ⟨(f.block b).control, s1, ⟨some v, hcopies.toReady, ?_⟩, ?_,
      rfl, rfl, fun hbranch => ?_, fun _ => rfl, fun w _ hw => ?_⟩
    · intro w hw
      exact ⟨hkind, (some.inj hw) ▸ hcontrol⟩
    · rw [modifyBlock_control_self (congrArg Block.control hcopies.block_eq)]
      rfl
    · rw [hkind] at hbranch
      cases hbranch
    · rw [hcontrol, some_inj] at hw
      subst hw
      exact hcopies.reads
  · rename_i hbranch hret
    obtain ⟨-, rfl⟩ := runs_pure.mp hrun
    refine ⟨(f.block b).control, s', ⟨none, h, nofun⟩, ?_, rfl, rfl, fun hkind => ?_, fun _ => rfl,
      fun w hkind hw => ?_⟩
    · rw [modifyBlock_control_self (congrArg Block.control h.block_eq)]
      rfl
    · obtain ⟨u, hu, -⟩ := hf.branch b hlt hkind
      exact absurd hu (hbranch u hkind)
    · exact absurd hw (hret w hkind)

theorem Ready.emitConst {k : Int} (h : Ready c allowed f vis b done none s) (hf : f.SsaForm)
    (hvals : (f.block b).values = done ++ v :: post) (hop : (f.value v).op = .const)
    (hargs : f.args v = []) (hk : (f.value v).payload = .int k)
    (hfinal : s' = (s.setLoc v (some (.imm k))).emit v) : Ready c allowed f vis b (done ++ [v]) none s' := by
  have hlt := Pending.lt (.next hvals) hf
  have hkin := h.consistent.kin v hlt
  have hsize := hlt.trans_le h.consistent.size_le
  have hinner : (f.value v).op.isLeading = false := by rw [hop]; rfl
  have hnone := h.untouched.loc v hlt (h.unplaced hf (.next hvals))
  let t := s.outline.setLoc v (.imm k) s.spillSize
  have hself : t.func.value v = { s.func.value v with loc := some (.imm k) } := value_setLoc_self hsize _
  have htidy : Tidy c allowed t.func s.spillSize := by
    refine h.consistent.tidy.setLoc le_rfl hsize nodup_nil (fun hne => absurd rfl hne)
      ?_ ?_ (.inr ⟨nofun, nofun⟩) nofun
    · rintro (hload | hphi | ⟨slot, hslot⟩)
      · exact nomatch hload.symm.trans (hkin.op.trans hop)
      · exact nomatch hphi.symm.trans (hkin.op.trans hop)
      · cases hslot
    · rintro _ ⟨⟩
      exact ⟨hkin.op.trans hop, hkin.payload.trans hk⟩
  have hstep : (t.draft f).Step b s.out s.regs.occupant? v s.regs.occupant? := by
    have hregs : (t.draft f).func.regsOf v = [] := regsOf_of_loc (congrArg Value.loc hself)
    nth_rewrite 2 [← put_nil s.regs.occupant? v v]
    rw [← hregs]
    refine .compute hlt ((congrArg Value.op hself).trans hkin.op) hinner
      (fun hcall => nomatch hop.symm.trans hcall) ⟨?_, ?_⟩
      ⟨fun _ => ?_, fun l hl => .inr ⟨hop, k, hk, ?_⟩⟩ (h.fresh hf (.next hvals))
    · exact congrArg List.length ((s.func.args_setLoc v v _).trans (h.args_eq hf (.next hvals) nofun))
    · intro i x x' hx
      rw [show (t.draft f).source.args v = [] from hargs] at hx
      cases hx
    · exact (congrArg Value.loc hself).trans_ne (some_ne_none _)
    · exact (some.inj ((congrArg Value.loc hself).symm.trans hl)).symm
  have hready : Ready c allowed f vis b done (some v) s := { h with untouched := h.untouched.start }
  refine hready.emitAt hf hvals hinner h.consistent htidy hstep ?_ ?_ ?_ ?_
  · rw [hfinal]
    rfl
  · rw [hfinal]
    exact .refl _
  · rw [hfinal]
    exact h.regs.emit_setLoc h.consistent.spans h.current hnone
  · rw [hfinal]
    rfl

theorem allocateAt_spec {pos : Nat} (hf : f.SsaForm) (hrun : Runs (c.allocateAt v pos) s ⟨⟩ s')
    (h : Ready c allowed f vis b done none s) (hvals : (f.block b).values = done ++ v :: post)
    (hdom : ∀ d, d ≠ b → f.Dominates d b → d ∈ vis) (hinner : (f.value v).op.isLeading = false)
    (hconst : (f.value v).op = .const → f.args v = []) (hlow : ∀ r : Reg, r.val < 2 → allowed.contains r) :
    Ready c allowed f vis b (done ++ [v]) none s' := by
  have hlt := Pending.lt (.next hvals) hf
  obtain ⟨_, s1, hpos, h1⟩ := runs_bind.mp hrun
  have hfinal := runs_modify.mp hpos
  have hready : Ready c allowed f vis b done none s1 := by
    rw [hfinal]
    exact h.withRegs rfl h.regs (.refl _) rfl
  have hsame : (s1.func.value v).op = (f.value v).op := (hready.consistent.kin v hlt).op
  rw [runs_get_bind, hsame] at h1
  split at h1
  case h_1 hop | h_2 hop | h_3 hop | h_4 hop =>
    rw [hop] at hinner
    cases hinner
  case h_5 hop =>
    obtain ⟨k, s2, hint, hmod⟩ := runs_bind.mp h1
    obtain ⟨rfl, hk⟩ := runs_intPayload hint
    exact hready.emitConst hf hvals hop (hconst hop)
      ((hready.consistent.kin v hlt).payload.symm.trans hk) (runs_modify.mp hmod)
  case h_6 hop => exact allocateCall_spec hf h1 hready hvals hdom hop hlow
  case h_7 hcall => exact allocateValue_spec hf h1 hready hvals hdom hinner hcall

end SsaCodegen.Setting
