import SsaCodegen.Proofs.Construction.Merging

/-! Reading a variable. The answer is the value of the variable at the end of the block that was asked, and
everything that was known before stays known. -/

namespace SsaCodegen.Construction

open List

variable {q : BlockId} {v w : ValueId}

def Reads (ir : Ir.Func) (x : Var) (b : BlockId) (read : Build ValueId) : Prop :=
  ∀ W F s v t, s.Sound ir W F → b < s.func.blocks.size →
    b ∈ s.sealedBlocks ∨ 2 ≤ (s.func.block b).preds.length → Runs read s v t →
    t.Sound ir W F ∧ Asks s t ∧ Frozen s.func.values.size s t ∧ t.Fits ir x v ∧ t.EndsWith x b v

variable {ir : Ir.Func} {W F : List ValueId} {s t : Construction} {x : Var} {b : BlockId}

theorem Sound.pred_of_sealed (hs : s.Sound ir W F) (hb : b ∈ s.sealedBlocks) (hq : q ∈ (s.func.block b).preds) :
    q ∈ s.filled ∧ q < s.func.blocks.size ∧ (q ∈ s.sealedBlocks ∨ 2 ≤ (s.func.block q).preds.length) := by
  have hf := hs.sealed_preds b hb q hq
  exact ⟨hf, hs.filled_lt q hf, hs.filled_join q hf⟩

theorem operands_spec {read : BlockId → Build ValueId} (hread : ∀ q, Reads ir x q (read q))
    {n : ValueId} (hs : s.Sound ir W F) (hn : s.IsPhi n x b) (hnF : n ∈ F) (hnW : n ∉ W)
    (hb : b ∈ s.sealedBlocks) {u : PUnit}
    (hrun : Runs ((s.func.block b).preds.zipIdx.forM fun (p, i) => do
      let v ← read p
      modify (·.addOperand n i v)) s u t) :
    t.Sound ir W F ∧ Asks s t ∧ Frozen n s t ∧ t.Known n x b := by
  let I (pre : List (BlockId × Nat)) (t : Construction) : Prop :=
    t.Sound ir W F ∧ Asks s t ∧ Frozen n s t ∧ t.KnownUpTo pre.length n x b
  have hI : I (s.func.block b).preds.zipIdx t := by
    refine runs_forM_invariant I ?_ ?_ hrun
    · rintro pre ⟨q, i⟩ post hsplit t1 t3 ⟨h1, h2, h3, h4⟩ hstep
      -- the index that goes with a predecessor is its position
      have hget : (s.func.block b).preds.zipIdx[pre.length]? = some (q, i) := by
        rw [hsplit, getElem?_append_right le_rfl, Nat.sub_self]
        rfl
      obtain ⟨hqi, hi⟩ : (s.func.block b).preds[pre.length]? = some q ∧ pre.length = i := by
        rw [getElem?_zipIdx, Option.map_eq_some_iff] at hget
        obtain ⟨r, hr, hri⟩ := hget
        obtain ⟨rfl, rfl⟩ := Prod.mk.inj hri
        exact ⟨hr, (Nat.zero_add _).symm⟩
      subst hi
      obtain ⟨v, t2, hv, hmod⟩ := runs_bind.mp hstep
      obtain rfl := runs_modify.mp hmod
      have hb1 := h2.sealed b hb
      have hq1 : q ∈ (t1.func.block b).preds := by
        rw [h2.graph.preds]
        exact mem_of_getElem? hqi
      obtain ⟨hqf, hqlt, hqj⟩ := h1.pred_of_sealed hb1 hq1
      obtain ⟨g1, g2, g3, g4, g5⟩ := hread q W F t1 v t2 h1 hqlt hqj hv
      have hn2 := (h2.trans g2).isPhi hn
      have hn1 := (h2.isPhi hn).lt.le
      have hqi2 : (t2.func.block b).preds[pre.length]? = some q := by
        rw [(h2.trans g2).graph.preds]
        exact hqi
      have hqf2 : q ∈ t2.filled := by rw [g2.filled_eq]; exact hqf
      have hk2 : t2.KnownUpTo pre.length n x b := by
        intro k r hk hr
        rw [g2.graph.preds] at hr
        obtain ⟨hf, a, ha, he⟩ := h4 k r hk hr
        rw [g3.args n (h2.isPhi hn).lt]
        exact ⟨by rw [g2.filled_eq]; exact hf, a, ha, g2.ends_all x r a he⟩
      refine ⟨sound_addOperand g1 hn2 hqi2 hqf2 g5 g4.1 hnF hnW (g2.sealed b hb1),
        (h2.trans g2).trans (asks_addOperand g1 hn2 hqi2 hqf2 g5),
        (h3.trans g3 hn1).trans (frozen_addOperand g1 hn2 hqi2) le_rfl, ?_⟩
      rw [length_append]
      exact knownUpTo_addOperand g1 hn2 hqi2 hqf2 g5 hk2
    · exact ⟨hs, Asks.refl s hs.resolve_resolve, Frozen.refl n s, fun k q hk _ => absurd hk (Nat.not_lt_zero k)⟩
  obtain ⟨h1, h2, h3, h4⟩ := hI
  refine ⟨h1, h2, h3, known_iff_knownUpTo.mpr ?_⟩
  rw [h2.graph.preds]
  rw [length_zipIdx] at h4
  exact h4

theorem EndsWith.unique (hv : s.EndsWith x b v) (hw : s.EndsWith x b w) : s.resolve v = s.resolve w := by
  obtain ⟨u, hu, huv⟩ := hv
  obtain ⟨u', hu', huw⟩ := hw
  obtain rfl : u = u' := Option.some.inj (hu.symm.trans hu')
  exact huv.symm.trans huw

theorem StartsWith.of_single (hs : s.Sound ir W F) (hpreds : (s.func.block b).preds = [q])
    (h : s.StartsWith x b w) : s.EndsWith x q w := by
  rcases h with ⟨p, hp, -⟩ | ⟨-, hall⟩
  · obtain ⟨-, -, -, hj⟩ := hs.shape.phi p hp.lt hp.op
    rw [hp.block, hpreds] at hj
    exact absurd hj (lt_irrefl 1)
  · exact (hall q (by rw [hpreds]; exact mem_cons_self)).2

section

variable (hs : s.Sound ir W F) (hb : b < s.func.blocks.size) (hnone : s.def? x b = none)

include hs hb hnone

theorem begin_spec (hj : 2 ≤ (s.func.block b).preds.length) :
    ((s.newPhi ir x b).2.record x b s.func.values.size).Sound ir (s.func.values.size :: W) F ∧
      Asks s ((s.newPhi ir x b).2.record x b s.func.values.size) ∧
      Frozen s.func.values.size s ((s.newPhi ir x b).2.record x b s.func.values.size) ∧
      ((s.newPhi ir x b).2.record x b s.func.values.size).IsPhi s.func.values.size x b ∧
      ((s.newPhi ir x b).2.record x b s.func.values.size).EndsWith x b s.func.values.size := by
  have h1 : (s.newPhi ir x b).2.Sound ir (s.func.values.size :: W) F := sound_newPhi hs hb hj
  have h2 : Asks s (s.newPhi ir x b).2 := asks_newPhi hs hb hj
  have hphi : (s.newPhi ir x b).2.IsPhi s.func.values.size x b := isPhi_newPhi
  have hb' : b < (s.newPhi ir x b).2.func.blocks.size := by rw [h2.graph.size]; exact hb
  have hfree : ∀ w, (s.newPhi ir x b).2.def? x b = some w →
      (s.newPhi ir x b).2.resolve w = (s.newPhi ir x b).2.resolve s.func.values.size :=
    fun w hw => absurd (hnone.symm.trans hw) (by simp)
  have hfits : (s.newPhi ir x b).2.Fits ir x s.func.values.size :=
    ⟨hphi.lt, fun _ => IsPhi.fits h1 hphi⟩
  have hask := asks_record h1 hb' hfree
  refine ⟨sound_record h1 hb' hfits (.inr (.inl ⟨_, hphi, rfl⟩)) hfree, h2.trans hask,
    (frozen_newPhi hs).trans (frozen_record _ x b _) le_rfl, hask.isPhi hphi, _, ?_, rfl⟩
  rw [def?_record (by rw [h1.defs_size]; exact hb'), if_pos ⟨rfl, rfl⟩]

theorem postponed_spec (hj : 2 ≤ (s.func.block b).preds.length) (hopen : b ∉ s.sealedBlocks) :
    let t := { (s.newPhi ir x b).2 with
      incomplete := s.incomplete ++ [(b, x, s.func.values.size)] }.record x b s.func.values.size
    t.Sound ir W F ∧ Asks s t ∧ Frozen s.func.values.size s t ∧
      t.Fits ir x s.func.values.size ∧ t.EndsWith x b s.func.values.size := by
  obtain ⟨h1, h2, h3, hphi, hends⟩ := begin_spec hs hb hnone hj
  have hnew : s.func.values.size ∉ s.incomplete.map (·.2.2) := by
    intro h
    obtain ⟨⟨c, y, p⟩, hp, hpn⟩ := mem_map.mp h
    exact absurd hpn (hs.incomplete c y p hp).2.1.lt.ne
  have hfits := IsPhi.fits h1 hphi
  exact ⟨h1.postpone hphi hopen hnew, { h2 with }, { h3 with }, ⟨hphi.lt, fun _ => hfits⟩, hends⟩

theorem single_spec {read : Build ValueId} (hread : Reads ir x q read) (hsealed : b ∈ s.sealedBlocks)
    (hpreds : (s.func.block b).preds = [q]) (hrun : Runs (do
      let v ← read
      modify (·.record x b v)
      return v) s v t) :
    t.Sound ir W F ∧ Asks s t ∧ Frozen s.func.values.size s t ∧ t.Fits ir x v ∧ t.EndsWith x b v := by
  obtain ⟨w, t1, hw, hrest⟩ := runs_bind.mp hrun
  obtain ⟨_, hmod, rfl⟩ := runs_bind_pure.mp hrest
  obtain rfl := runs_modify.mp hmod
  obtain ⟨hqf, hqlt, hqj⟩ := hs.pred_of_sealed hsealed (by rw [hpreds]; exact mem_cons_self)
  obtain ⟨h1, h2, h3, h4, h5⟩ := hread W F s v t1 hs hqlt hqj hw
  have hpreds1 : (t1.func.block b).preds = [q] := by rw [h2.graph.preds]; exact hpreds
  have hb1 : b < t1.func.blocks.size := by rw [h2.graph.size]; exact hb
  -- an answer that was recorded meanwhile, in a loop back to `b`, came from the same predecessor
  have hsame : ∀ u, t1.def? x b = some u → t1.resolve u = t1.resolve v := by
    intro u hu
    rcases h1.starts x b u hu with hsite | hstart
    · have hsite' : b ∈ s.sites x := by
        rw [sites, ← h2.assignments_eq]
        exact hsite
      obtain ⟨w, hw⟩ := hs.assigned x b hsite'
      exact absurd (hnone.symm.trans hw) (by simp)
    · exact (hstart.of_single h1 hpreds1).unique h5
  have hstart : t1.StartsWith x b v := by
    refine .inr ⟨by rw [hpreds1]; exact cons_ne_nil q [], fun r hr => ?_⟩
    rw [hpreds1] at hr
    rw [mem_singleton.mp hr, h2.filled_eq]
    exact ⟨hqf, h5⟩
  have hask := asks_record h1 hb1 hsame
  refine ⟨sound_record h1 hb1 h4 (.inr hstart) hsame, h2.trans hask,
    h3.trans (frozen_record _ x b v) le_rfl, h4, v, ?_, rfl⟩
  rw [def?_record (by rw [h1.defs_size]; exact hb1), if_pos ⟨rfl, rfl⟩]

/-- With several predecessors, a phi is made before any of them is asked, which ends the search on loops. -/
theorem join_spec {read : BlockId → Build ValueId} (hread : ∀ q, Reads ir x q (read q))
    (hsealed : b ∈ s.sealedBlocks) (hj : 2 ≤ (s.func.block b).preds.length) (hrun : Runs (do
      set ((s.newPhi ir x b).2.record x b s.func.values.size)
      (s.func.block b).preds.zipIdx.forM fun (p, i) => do
        let v ← read p
        modify (·.addOperand s.func.values.size i v)
      modifyGet (·.settlePhi x b s.func.values.size)) s v t) :
    t.Sound ir W F ∧ Asks s t ∧ Frozen s.func.values.size s t ∧ t.Fits ir x v ∧ t.EndsWith x b v := by
  obtain ⟨_, t1, hset, hrest⟩ := runs_bind.mp hrun
  obtain ⟨_, t2, hloop, hsettle⟩ := runs_bind.mp hrest
  obtain rfl := runs_set.mp hset
  obtain ⟨h1, h2, h3, hphi, hends⟩ := begin_spec hs hb hnone hj
  have hnW : s.func.values.size ∉ W := fun h => lt_irrefl _ (hs.waiting _ h).1
  rw [← h2.graph.preds] at hloop
  obtain ⟨g1, g2, g3, g4⟩ := operands_spec hread h1.openFrame hphi mem_cons_self hnW (h2.sealed b hsealed) hloop
  have hphi2 := g2.isPhi hphi
  have hfr := h3.trans g3 le_rfl
  have hup : ∀ w q, (w, q) ∈ t2.phiUsers → s.func.values.size ≤ w → s.func.values.size ≤ q := by
    intro w q h hw
    by_contra hlt
    exact not_lt.mpr hw (hs.users w q (hfr.users w q h (not_le.mp hlt))).1
  have hnI : s.func.values.size ∉ t2.incomplete.map (·.2.2) := by
    intro h
    obtain ⟨⟨c, y, p⟩, hp, rfl⟩ := mem_map.mp h
    obtain ⟨hc, hp', -⟩ := g1.incomplete c y _ hp
    rw [← hp'.block, hphi2.block] at hc
    exact hc (g2.sealed b (h2.sealed b hsealed))
  obtain ⟨k1, k2, k3, k4, k5⟩ := settlePhi_spec (g1.closeFrame hphi2 g4) (fun q hq => (hs.frames q hq).1) hup hphi2
    ⟨le_rfl, ⟨x, b, hphi2, g4⟩, hnW, hnI⟩ (runs_modifyGet.mp hsettle)
  exact ⟨k1, (h2.trans g2).trans k2, hfr.trans k3 le_rfl, k4, k5 (g2.ends_all x b _ hends)⟩

end

/-- A read gives the value of the variable at the end of the block, by induction on the fuel. -/
theorem readWithin_spec (ir : Ir.Func) (x : Var) :
    ∀ (fuel : Nat) (start b : BlockId), Reads ir x b (readWithin ir x fuel start b) := by
  intro fuel
  induction fuel with
  | zero =>
    intro start b W F s v t _ _ _ hrun
    obtain ⟨_, _, _, hthrow⟩ := runs_bind.mp hrun
    exact (runs_throw.mp hthrow).elim
  | succ fuel ih =>
    intro start b W F s v t hs hb hjoin hrun
    have hbody := runs_get_bind.mp hrun
    split at hbody
    · next w hw =>
      obtain ⟨rfl, rfl⟩ := runs_pure.mp hbody
      exact ⟨hs, Asks.refl _ hs.resolve_resolve, Frozen.refl _ _, Fits.resolve hs (hs.defs x b w hw), w, hw,
        (hs.resolve_resolve w).symm⟩
    · next hnone =>
      rcases runs_ite.mp hbody with ⟨hopen, hphi⟩ | ⟨hsealed, hask⟩
      · obtain ⟨_, hset, rfl⟩ := runs_bind_pure.mp hphi
        obtain rfl := runs_set.mp hset
        exact postponed_spec hs hb hnone (hjoin.resolve_left hopen) hopen
      · have hb' := not_not.mp hsealed
        split at hask
        · exact (runs_throw.mp hask).elim
        · next q hpreds => exact single_spec hs hb hnone (ih start q) hb' hpreds hask
        · next hnil hsingle =>
          have hj : 2 ≤ (s.func.block b).preds.length := by
            match hpreds : (s.func.block b).preds with
            | [] => exact (hnil hpreds).elim
            | [q] => exact (hsingle q hpreds).elim
            | _ :: _ :: preds => exact Nat.le_add_left 2 preds.length
          exact join_spec hs hb hnone (fun q => ih q q) hb' hj hask

theorem readVar_spec (ir : Ir.Func) (x : Var) (b : BlockId) : Reads ir x b (readVar ir x b) :=
  fun W F s v t hs hb hjoin hrun =>
    readWithin_spec ir x _ b b W F s v t hs hb hjoin (runs_get_bind.mp hrun)

end SsaCodegen.Construction
