import SsaCodegen.Proofs.Allocation.Entrances

/-! Register allocation for one block after the other. -/

namespace SsaCodegen.Setting

open List Func Option Outline

variable {c : Setting} {allowed : RegSet} {f : Func} {vis : List BlockId} {P : Claims}
  {s s' t : Allocator} {b p : BlockId} {u v w a : ValueId} {pre post : List ValueId}

theorem foldl_inherit : ∀ (state : List (Reg × Occupant)) (s : Allocator),
    (state.map Prod.fst).Nodup → ∀ s', s' = state.foldl (fun s (r, o) =>
      if (c.live.liveIn b).contains o.value then { s with regs := s.regs.assign r o !s.hasHome o.value }
      else s) s →
    s'.outline = s.outline ∧ s'.regs.allocatable = s.regs.allocatable ∧
      (∀ r, s'.regs.isLocked r = s.regs.isLocked r) ∧ ∀ r, s'.regs.occupant? r =
        ((state.lookup r).filter fun o => (c.live.liveIn b).contains o.value).or (s.regs.occupant? r)
  | [], s, _, s', h => by
    subst h
    exact ⟨rfl, rfl, fun _ => rfl, fun r => rfl⟩
  | (q, x) :: state, s, hnodup, s', h => by
    rw [map_cons, nodup_cons] at hnodup
    have hq : state.lookup q = none := by
      rw [lookup_eq_none_iff]
      rintro ⟨q', x'⟩ hy
      rw [bne_iff_ne]
      rintro rfl
      exact hnodup.1 (mem_map.mpr ⟨_, hy, rfl⟩)
    rw [foldl_cons] at h
    dsimp only at h
    by_cases hlive : (c.live.liveIn b).contains x.value = true
    · rw [if_pos hlive] at h
      obtain ⟨hout, hal, hlock, hocc⟩ := foldl_inherit state _ hnodup.2 s' h
      refine ⟨hout, hal, hlock, fun r => ?_⟩
      rw [hocc, Registers.occupant?_assign, lookup_cons]
      by_cases hr : r = q
      · subst hr
        rw [hq, if_pos rfl, beq_self_eq_true]
        simp [Option.filter, hlive]
      · rw [if_neg hr, beq_eq_false_iff_ne.mpr hr]
    · rw [if_neg hlive] at h
      obtain ⟨hout, hal, hlock, hocc⟩ := foldl_inherit state _ hnodup.2 s' h
      refine ⟨hout, hal, hlock, fun r => ?_⟩
      rw [hocc, lookup_cons]
      by_cases hr : r = q
      · subst hr
        rw [hq, beq_self_eq_true]
        simp [Option.filter, hlive]
      · rw [beq_eq_false_iff_ne.mpr hr]

theorem leading_eq_nil (hf : f.Prepared c.types) (hb : b ≠ f.entry) (hpreds : (f.block b).preds = [p]) :
    f.leading b = [] := by
  rw [eq_nil_iff_forall_not_mem]
  intro v hv
  by_cases hop : (f.value v).op = .phi
  · have htwo := (hf.ssa.phi_args b v (mem_values_of_mem_leading hv) hop).2
    rw [hpreds, length_singleton] at htwo
    exact absurd htwo (by decide)
  · exact hb (hf.inputs b v hv hop)

theorem inherit_spec {state : List (Reg × Occupant)} (hf : f.Prepared c.types)
    (h : Entering c allowed f vis b [] s) (hclear : s.regs.occupant? = Claims.empty)
    (hunlocked : ∀ r, s.regs.isLocked r = false) (hb : b ≠ f.entry)
    (hpreds : (f.block b).preds = [p]) (hstate : s.endStates.getD p none = some state)
    (hrun : Runs (c.inherit b state) s ⟨⟩ s') : Entered c allowed f vis b s' := by
  obtain ⟨hout, hal, hlock, hocc⟩ :=
    foldl_inherit state s (h.consistent.keys p state hstate) s' (runs_modify.mp hrun)
  have hended := h.consistent.ended p (by
    rw [show s.outline.endStates.getD p none = some state from hstate]
    exact some_ne_none state)
  have hclosed := h.consistent.closed p hended.1 hended.2
  have hatEnd : ∀ r, s.outline.atEnd p r = state.lookup r := by
    intro r
    change ((s.endStates.getD p none).getD []).lookup r = _
    rw [hstate]
    rfl
  have hclaim : ∀ r o, s'.regs.occupant? r = some o ↔
      s.outline.atEnd p r = some o ∧ (c.live.liveIn b).contains o.value := by
    intro r o
    rw [hocc, hclear, hatEnd, show Claims.empty r = none from rfl, Option.or_none, Option.filter_eq_some_iff]
  have hwithin : Claims.Within s'.regs.occupant? (s.outline.atEnd p) := fun r o ho => ((hclaim r o).mp ho).1
  have hleading := leading_eq_nil hf hb hpreds
  have hentering : Entering c allowed f vis b (f.leading b) s' := by
    rw [hleading]
    refine ⟨hout ▸ h.consistent, hout ▸ h.untouched, (congrArg current hout).trans h.current,
      (congrArg out hout).trans h.out, h.new, nofun, hal.trans h.allocatable⟩
  have hplaced : ∀ r o, s'.regs.occupant? r = some o →
      o.value < f.values.size ∧ ∃ d ∈ vis, o.value ∈ s.outline.valuesOf d := fun r o ho =>
    hclosed.founded.placed r o (hwithin r o ho)
  refine ⟨hentering, ⟨s'.regs.occupant?, ⟨?_, ?_, .inr ⟨p, hpreds, ?_, ?_, ?_⟩⟩, .refl _⟩, ⟨⟨?_, ?_⟩, ?_⟩⟩
  · rw [hleading]
    nofun
  · rw [hleading]
    nofun
  · rw [hout, show s.outline.endStates.getD p none = some state from hstate]
    exact some_ne_none state
  · rw [hout]
    exact hwithin
  · intro r o ho hmem
    obtain ⟨hlt, d, hd, hin⟩ := hplaced r o ho
    exact h.unplaced hf.ssa hmem d hd hin
  · intro r o ho
    obtain ⟨hreg, hheld⟩ := hclosed.founded.whole r o (hwithin r o ho)
    have hfunc : s'.func = s.func := congrArg func hout
    change (s'.func.regsOf o.copy)[o.part]? = some r ∧ Claims.Hold _ o.value o.copy (s'.func.regsOf o.copy)
    rw [hfunc]
    refine ⟨hreg, hheld.1, fun k q hq => ?_⟩
    exact (hclaim q _).mpr ⟨hheld.2 k q hq, ((hclaim r o).mp ho).2⟩
  · intro r o ho
    obtain ⟨hlt, d, hd, hin⟩ := hplaced r o ho
    refine ⟨hlt, d, mem_append_left _ hd, ?_⟩
    rw [hentering.valuesOf_visited hd, hout]
    exact hin
  · intro r r' o o' hr
    rw [hlock, hunlocked] at hr
    cases hr

theorem enterBlock_spec (hf : f.Prepared c.types) (hsig : Signature.of c.types f = .ok c.signature)
    (hlive : ∀ v ∈ (c.live.liveIn b).toList, ∃ d ∈ vis, v ∈ (f.block d).values)
    (h : Entering c allowed f vis b [] s) (hrun : Runs (c.enterBlock b (f.block b).values) s ⟨⟩ s') :
    Entered c allowed f vis b s' := by
  obtain ⟨rest, hvals, hrest⟩ := hf.leading_first b
  obtain ⟨_, s1, hclear, h1⟩ := runs_bind.mp hrun
  obtain rfl := runs_modify.mp hclear
  have hentering : Entering c allowed f vis b [] { s with regs := s.regs.clear } :=
    ⟨h.consistent, h.untouched, h.current, h.out, h.new, h.located, h.allocatable⟩
  have hfresh : Fresh s.func [] s.regs.clear := .clear s.func s.regs
  have hjoin : ∀ {s' : Allocator}, b ≠ f.entry → Runs (c.joinPaths b (f.block b).values)
      { s with regs := s.regs.clear } ⟨⟩ s' → Entered c allowed f vis b s' := by
    intro s' hb hrun
    obtain ⟨hall, hfresh'⟩ := joinPaths_spec hf hvals hrest hb hlive ⟨hentering, hfresh, nofun⟩ hrun
    exact entered_of_fresh hf.ssa hall hfresh'
  have hentry : s.func.entry = f.entry := h.consistent.graph.entry
  have hpreds : (s.func.block b).preds = (f.block b).preds := h.consistent.graph.preds b
  rw [runs_get_bind] at h1
  rw [hentry, hpreds] at h1
  split at h1
  · rename_i hb
    have hall := enterFunction_spec hf hvals hrest hsig hb ⟨hentering, hfresh, nofun⟩ h1
    exact entered_of_fresh hf.ssa hall.toEntering hall.fresh
  · rename_i hb
    split at h1
    · rename_i p hp
      split at h1
      · rename_i state hstate
        exact inherit_spec hf hentering (Registers.occupant?_clear s.regs) s.regs.isLocked_clear hb hp hstate h1
      · exact hjoin hb h1
    · exact hjoin hb h1

/-- The blocks `vis` have been visited, and no other is at hand. -/
structure Between (c : Setting) (allowed : RegSet) (f : Func) (vis : List BlockId) (s : Allocator) :
    Prop where
  consistent : (s.outline.turnTo none []).Consistent c allowed f vis Claims.empty
  untouched : (s.outline.turnTo none []).Untouched f vis none
  allocatable : s.regs.allocatable = allowed

theorem Between.enter (h : Between c allowed f vis s) (hb : b ∉ vis)
    (hout : s'.outline = s.outline.turnTo (some b) []) (hregs : s'.regs = s.regs) :
    Entering c allowed f vis b [] s' := by
  have hmem : ∀ d v, v ∈ (s.outline.turnTo none []).valuesOf d → d ∈ vis →
      v ∈ (s.outline.turnTo (some b) []).valuesOf d := by
    intro d v hv hd
    have hne : some b ≠ some d := fun heq => hb (some.inj heq ▸ hd)
    rw [valuesOf_other hne]
    exact hv
  have hsub : ∀ d ∈ vis, d ∈ vis ++ [b] := fun d => mem_append_left _
  refine ⟨?_, ?_, congrArg current hout, congrArg out hout, hb, nofun, hregs ▸ h.allocatable⟩
  · rw [hout]
    exact h.consistent.turnTo (fun d _ => nofun) fun d hd heq => hb (some.inj heq ▸ hd)
  · rw [hout]
    refine ⟨fun v hv hnot => ?_, fun v hv hbusy hret hcase => ?_, fun d v hd hk hv hbusy => ?_⟩
    · exact h.untouched.loc v hv fun d hd hin => hnot d (hsub d hd) (hmem d v hin hd)
    · refine h.untouched.args v hv hbusy hret (hcase.imp_right fun hnot d hd hin => ?_)
      exact hnot d (hsub d hd) (hmem d v hin hd)
    · refine h.untouched.rets d v (.inl ?_) hk hv hbusy
      rcases hd with hd | hd
      · exact fun hmem => hd (hsub d hmem)
      · exact some.inj hd ▸ hb

theorem runs_allocateAt_leading {pos : Nat} (hrun : Runs (c.allocateAt v pos) s ⟨⟩ s')
    (hop : (s.func.value v).op.isLeading) : s'.outline = s.outline.emit v ∧ s'.regs = s.regs := by
  obtain ⟨_, s1, hpos, h1⟩ := runs_bind.mp hrun
  obtain rfl := runs_modify.mp hpos
  rw [runs_get_bind] at h1
  split at h1
  case h_1 | h_2 | h_3 | h_4 =>
    obtain rfl := runs_modify.mp h1
    exact ⟨rfl, rfl⟩
  case h_5 hop' | h_6 hop' =>
    rw [hop'] at hop
    cases hop
  case h_7 hphi harg hptr hmem _ _ =>
    cases hop' : (s.func.value v).op with
    | phi => exact absurd hop' hphi
    | arg => exact absurd hop' harg
    | resultPtr => exact absurd hop' hptr
    | initMem => exact absurd hop' hmem
    | _ =>
      rw [hop'] at hop
      cases hop

theorem Entered.ready (hf : f.Prepared c.types) (h : Entered c allowed f vis b s)
    (hout : s'.outline = s.outline.turnTo (some b) (f.leading b)) (hregs : s'.regs = s.regs) :
    Ready c allowed f (vis ++ [b]) b (f.leading b) none s' := by
  have hnew : ∀ d ∈ vis, some b ≠ some d := fun d hd heq => h.new (some.inj heq ▸ hd)
  obtain ⟨S, hstart, hwithin⟩ := h.start
  refine ⟨?_, ?_, hout ▸ h.untouched, congrArg current hout,
    mem_append_right _ mem_cons_self, ?_, hregs ▸ h.allocatable⟩
  · have hturned : (s.outline.turnTo (some b) (f.leading b)).Consistent c allowed f vis Claims.empty :=
      h.consistent.turnTo h.not_current hnew
    rw [hout, hregs]
    exact hturned.enter hf.ssa rfl h.new rfl ⟨hstart.held, hstart.located, hstart.source⟩ hwithin
  · rw [hout, hregs]
    exact h.regs
  · rw [show s'.out = f.leading b from congrArg out hout, filter_eq_self]
    intro v hv
    exact decide_eq_true (hf.ssa.placed b v (mem_values_of_mem_leading hv)).1

theorem emitLeading_spec (hf : f.Prepared c.types) (h : Entered c allowed f vis b s)
    (hrun : Runs ((f.leading b).zipIdx.forM fun (v, i) => c.allocateAt v i) s ⟨⟩ s') :
    Ready c allowed f (vis ++ [b]) b (f.leading b) none s' := by
  have hall := runs_forM_invariant (fun (pre : List (ValueId × Nat)) t =>
    t.outline = s.outline.turnTo (some b) (pre.map Prod.fst) ∧ t.regs = s.regs) ?_ ?_ hrun
  · rw [zipIdx_map_fst] at hall
    exact h.ready hf hall.1 hall.2
  · rintro pre ⟨v, i⟩ post hsplit t t' ⟨hout, hregs⟩ hstep
    have hv : v ∈ f.leading b := by
      have hmem := mem_iff_append.mpr ⟨_, _, hsplit⟩
      have hmem := mem_map_of_mem (f := Prod.fst) hmem
      rwa [zipIdx_map_fst] at hmem
    have hkin := h.consistent.kin v (hf.ssa.placed b v (mem_values_of_mem_leading hv)).1
    have hfunc : t.func = s.func := congrArg func hout
    obtain ⟨hout', hregs'⟩ := runs_allocateAt_leading hstep (by
      rw [hfunc, show (s.func.value v).op = (f.value v).op from hkin.op]
      exact isLeading_of_mem_leading hv)
    refine ⟨?_, hregs'.trans hregs⟩
    rw [hout', hout, List.map_append]
    rfl
  · refine ⟨?_, rfl⟩
    rw [turnTo, map_nil, ← show s.outline.current = some b from h.current, ← show s.outline.out = [] from h.out]

theorem allocateValues_spec {rest : List ValueId} {k : Nat} (hf : f.Prepared c.types)
    (h : Ready c allowed f vis b (f.leading b) none s) (hvals : (f.block b).values = f.leading b ++ rest)
    (hrest : ∀ v ∈ rest, (f.value v).op.isLeading = false) (hdom : ∀ d, d ≠ b → f.Dominates d b → d ∈ vis)
    (hlow : ∀ r : Reg, r.val < 2 → allowed.contains r)
    (hrun : Runs ((rest.zipIdx k).forM fun (v, i) => c.allocateAt v i) s ⟨⟩ s') :
    Ready c allowed f vis b (f.block b).values none s' := by
  have hall := runs_forM_invariant (fun (pre : List (ValueId × Nat)) t =>
    Ready c allowed f vis b (f.leading b ++ pre.map Prod.fst) none t) ?_ ?_ hrun
  · rw [zipIdx_map_fst, ← hvals] at hall
    exact hall
  · rintro pre ⟨v, i⟩ post hsplit t t' ht hstep
    have hsplit' : rest = pre.map Prod.fst ++ v :: post.map Prod.fst := by
      rw [← zipIdx_map_fst k rest, hsplit, List.map_append, map_cons]
    have hv := mem_iff_append.mpr ⟨_, _, hsplit'⟩
    have hmem : v ∈ (f.block b).values := by
      rw [hvals]
      exact mem_append_right _ hv
    have hwhole : (f.block b).values = (f.leading b ++ pre.map Prod.fst) ++ v :: post.map Prod.fst := by
      rw [hvals, hsplit', append_assoc]
    rw [List.map_append, ← append_assoc]
    exact allocateAt_spec hf.ssa hstep ht hwhole hdom (hrest v hv) (hf.consts b v hmem) hlow
  · rw [map_nil, append_nil]
    exact h

section Finish

variable {control : Option ValueId} (h : Controlled c allowed f vis b (f.block b).values control t s)
  (hlt : b < f.blocks.size) (hfinal : s' = { s with
    func := s.func.modifyBlock b ({ · with values := s.out })
    endStates := s.endStates.setIfInBounds b (some s.regs.occupied) })

include h hlt hfinal

theorem Controlled.finishes : t.outline.Finishes (s'.outline.turnTo none []) b control t.regs.occupant? := by
  obtain ⟨busy, hready, -⟩ := h.ready
  have hfunc : s.func = t.func.modifyBlock b ({ · with control }) := congrArg func h.outline
  have hfunc' : s'.func = (t.func.modifyBlock b ({ · with control })).modifyBlock b ({ · with values := t.out }) := by
    rw [hfinal, ← hfunc, ← show s.out = t.out from congrArg out h.outline]
  have hends : s.endStates = t.endStates := congrArg endStates h.outline
  have hends' : s'.endStates = t.endStates.setIfInBounds b (some s.regs.occupied) := by
    rw [hfinal, ← hends]
  have hsize : b < t.func.blocks.size := hready.consistent.graph.size.symm ▸ hlt
  have hlast := (show t.endStates.size = f.blocks.size from hready.consistent.ends).symm ▸ hlt
  have hstate : s'.endStates.getD b none = some s.regs.occupied := by
    rw [hends', getD_setIfInBounds hlast, if_pos rfl]
  have hself : s'.func.block b = { t.func.block b with values := t.out, control } := by
    rw [hfunc', block_modifyBlock_self _ _ (by rw [blocks_size_modifyBlock]; exact hsize),
      block_modifyBlock_self _ _ hsize]
  refine ⟨?_, ?_, ?_, ?_, congrArg Block.values hself, congrArg Block.control hself, ?_, ?_, ?_, rfl, ?_, ?_, ?_, ?_⟩
  · change s'.func.values = t.func.values
    rw [hfunc']
    rfl
  · change s'.func.operands = t.func.operands
    rw [hfunc']
    rfl
  · change t.func.SameGraph s'.func
    rw [hfunc']
    refine (Func.SameGraph.modifyBlock t.func b _ ?_ ?_ ?_).trans (Func.SameGraph.modifyBlock _ b _ ?_ ?_ ?_) <;>
    exact fun _ => rfl
  · intro d hd
    change s'.func.block d = t.func.block d
    rw [hfunc', block_modifyBlock_other _ _ hd.symm, block_modifyBlock_other _ _ hd.symm]
  · exact (congrArg Allocator.homes hfinal).trans (congrArg homes h.outline)
  · exact (congrArg Allocator.spillSize hfinal).trans (congrArg spillSize h.outline)
  · change s'.func.locals = t.func.locals
    rw [hfunc']
    rfl
  · change s'.endStates.size = t.endStates.size
    rw [hends', Array.size_setIfInBounds]
  · intro d hd
    change s'.endStates.getD d none = t.endStates.getD d none
    rw [hends', getD_setIfInBounds hlast, if_neg hd]
  · funext r
    change ((s'.endStates.getD b none).getD []).lookup r = t.regs.occupant? r
    rw [hstate, ← h.occupant?]
    exact s.regs.lookup_occupied r
  · intro state hs
    change s'.endStates.getD b none = some state at hs
    rw [hstate, some_inj] at hs
    rw [← hs]
    exact s.regs.occupied_nodup

theorem Controlled.between (hf : f.SsaForm) : Between c allowed f vis s' := by
  have hfin := h.finishes hlt hfinal
  obtain ⟨busy, hready, hbusy⟩ := h.ready
  refine ⟨?_, ?_, ?_⟩
  · exact hready.consistent.finish hfin hready.current hready.mem hready.out hready.regs.founded
      h.branch h.plain h.ret
  · exact hready.untouched.finish hf hfin hready.current hready.mem hbusy
  · rw [hfinal]
    exact h.allocatable.trans hready.allocatable

end Finish

/-- One more block has been allocated. -/
theorem allocateBlock_spec (hf : f.Prepared c.types) (hsig : Signature.of c.types f = .ok c.signature)
    (hlive : ∀ v ∈ (c.live.liveIn b).toList, ∃ d ∈ vis, v ∈ (f.block d).values)
    (hdom : ∀ d, d ≠ b → f.Dominates d b → d ∈ vis) (hlt : b < f.blocks.size) (hb : b ∉ vis)
    (hlow : ∀ r : Reg, r.val < 2 → allowed.contains r) (h : Between c allowed f vis s)
    (hrun : Runs (c.allocateBlock b) s ⟨⟩ s') : Between c allowed f (vis ++ [b]) s' := by
  obtain ⟨rest, hvals, hrest⟩ := hf.leading_first b
  have hdom' : ∀ d, d ≠ b → f.Dominates d b → d ∈ vis ++ [b] := fun d hne hd =>
    mem_append_left _ (hdom d hne hd)
  have hblock : s.func.block b = f.block b := h.consistent.todo b (.inl hb)
  rw [allocateBlock, runs_get_bind] at hrun
  rw [hblock] at hrun
  obtain ⟨_, s1, hopen, h1⟩ := runs_bind.mp hrun
  obtain ⟨_, s2, henter, h2⟩ := runs_bind.mp h1
  obtain ⟨_, s3, hvalues, h3⟩ := runs_bind.mp h2
  obtain ⟨_, s4, hpos, h4⟩ := runs_bind.mp h3
  obtain ⟨_, s5, hcontrol, hclose⟩ := runs_bind.mp h4
  obtain rfl := runs_modify.mp hopen
  have hentering : Entering c allowed f vis b []
      { s with
        current := some b, blockLen := (f.block b).values.length, out := []
        uses := usesIn s.func b } := h.enter hb rfl rfl
  have hentered := enterBlock_spec hf hsig hlive hentering henter
  nth_rewrite 1 [hvals] at hvalues
  rw [zipIdx_append] at hvalues
  obtain ⟨t, hlead, hlast⟩ := runs_forM_append.mp hvalues
  have hready := allocateValues_spec hf (emitLeading_spec hf hentered hlead) hvals hrest hdom' hlow hlast
  obtain rfl := runs_modify.mp hpos
  have hready' : Ready c allowed f (vis ++ [b]) b (f.block b).values none
      { s3 with pos := (f.block b).values.length } := hready.withRegs rfl hready.regs (.refl _) rfl
  obtain ⟨control, x, hcontrolled⟩ := allocateControl_spec hf.ssa hcontrol hready' hlt hdom' rfl
  exact hcontrolled.between hlt (runs_modify.mp hclose) hf.ssa

theorem between_start (hf : f.Prepared c.types) (hfunc : s.func = f) (hhomes : s.homes = [])
    (hends : s.endStates = Array.replicate f.blocks.size none)
    (hregs : s.regs.allocatable = allowed) : Between c allowed f [] s := by
  have hnone : ∀ b, (s.outline.turnTo none []).endStates.getD b none = none := by
    intro b
    change s.endStates.getD b none = none
    rw [hends, getD_replicate]
  have hloc : ∀ v, (s.func.value v).loc = none := by
    rw [hfunc]
    exact hf.bare
  have hregsOf : ∀ v, s.func.regsOf v = [] := fun v => regsOf_of_none (hloc v)
  have hbare : ∀ v l, (s.func.value v).loc ≠ some l := by
    intro v l
    rw [hloc v]
    exact nofun
  refine ⟨⟨?_, ?_, ?_, ?_, ?_, ?_, ?_, ?_, ?_, ?_, nofun, nofun, congrArg locals hfunc⟩, ⟨?_, ?_, ?_⟩, hregs⟩
  · exact hfunc ▸ .refl _
  · change s.func.Spans
    rw [hfunc]
    exact hf.ssa.spans
  · exact Nat.le_of_eq (hfunc ▸ rfl)
  · exact fun v _ => hfunc ▸ .refl _ v
  · exact ⟨fun v => (hregsOf v).symm ▸ nodup_nil, fun v hne => absurd (hregsOf v) hne,
      fun v _ hl => absurd hl (hbare v _), fun v _ hl => absurd hl (hbare v _),
      fun v _ hl => absurd hl (hbare v _), fun v _ hl => absurd hl (hbare v _),
      fun v _ _ _ _ hl => absurd hl (hbare v _)⟩
  · intro v h hh
    rw [show (s.outline.turnTo none []).homes = [] from hhomes] at hh
    cases hh
  · exact fun b _ => congrArg (block · b) hfunc
  · exact (congrArg Array.size hends).trans Array.size_replicate
  · exact fun b hb => absurd (hnone b) hb
  · exact fun b state hb => nomatch (hnone b).symm.trans hb
  · exact fun v _ _ => hloc v
  · exact fun v _ _ _ _ => congrArg (args · v) hfunc
  · exact fun b v _ _ _ _ => congrArg (args · v) hfunc

theorem allocateBlocks_spec (hf : f.Prepared c.types) (hsig : Signature.of c.types f = .ok c.signature)
    (hlive : c.live = Liveness.compute f) (hlow : ∀ r : Reg, r.val < 2 → allowed.contains r)
    (h : Between c allowed f [] s) (hrun : Runs (f.reversePostorder.forM c.allocateBlock) s ⟨⟩ s') :
    Between c allowed f f.reversePostorder s' := by
  refine runs_forM_invariant (Between c allowed f) ?_ h hrun
  intro pre b post hlayout t t' ht hblock
  have hb := mem_iff_append.mpr ⟨_, _, hlayout⟩
  refine allocateBlock_spec hf hsig ?_ (fun d hne hd => mem_of_dominates hlayout hne hd)
    (hf.ssa.flow.mem_reversePostorder.mp hb) (not_mem_of_split f.reversePostorder_nodup hlayout) hlow ht
    hblock
  intro v hv
  rw [hlive, ValueSet.mem_toList] at hv
  obtain ⟨rest, htrail, hsub⟩ := exists_trail_before hlayout
  obtain ⟨d, hd, hv⟩ := hf.ssa.orderly.computed_of_mem_liveIn hf.onBool hf.ssa.checkDominance hv rest htrail
  exact ⟨d, hsub d hd, hv⟩

end SsaCodegen.Setting
