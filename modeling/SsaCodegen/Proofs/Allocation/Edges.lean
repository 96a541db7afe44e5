import SsaCodegen.Proofs.Allocation.Blocks

/-! Copies along edges. Every operand of a phi names a copy that is at hand at the end of the predecessor. -/

namespace SsaCodegen

open List Func

namespace Func

def placedPhis (f : Func) (b : BlockId) : List ValueId :=
  (f.phis b).filter fun p => (f.value p).hasResult

/-- The copies that bring operand `k` of a phi to the place of the phi. -/
def phiCopies (f : Func) (types : TypeTable) (k : Nat) (p : ValueId) : List WordMove :=
  match (f.value (f.arg p k)).loc, (f.value p).loc with
  | some src, some dst =>
    ((List.range (types.parts (f.value p).ty)).map fun i =>
      (⟨src.part i, dst.part i⟩ : WordMove)).filter fun m => m.src ≠ m.dst
  | _, _ => []

def edgeCopies (f : Func) (types : TypeTable) (pred succ : BlockId) : List WordMove :=
  match f.predIndex? succ pred with
  | none => []
  | some k => (f.placedPhis succ).flatMap (f.phiCopies types k)

def endCopies (f : Func) (types : TypeTable) (pred : BlockId) : List WordMove :=
  (f.block pred).succs.flatMap (f.edgeCopies types pred)

variable {f : Func} {b : BlockId} {p : ValueId}

theorem mem_placedPhis (hp : p ∈ f.placedPhis b) : p ∈ (f.block b).values ∧
    (f.value p).op = .phi ∧ (f.value p).hasResult := by
  obtain ⟨hp, hres⟩ := mem_filter.mp hp
  obtain ⟨hlead, hop⟩ := mem_filter.mp hp
  exact ⟨takeWhile_subset _ hlead, beq_iff_eq.mp hop, hres⟩

def Onto (f : Func) (q b : BlockId) (p : ValueId) (k : Nat) : Prop :=
  p ∈ f.placedPhis b ∧ f.predIndex? b q = some k

theorem SsaForm.onto_unique {q q' b' : BlockId} {k : Nat} (hf : f.SsaForm) (h : f.Onto q b p k)
    (h' : f.Onto q' b' p k) : q = q' ∧ b = b' := by
  have hb := (hf.placed b p (mem_placedPhis h.1).1).2.symm.trans (hf.placed b' p (mem_placedPhis h'.1).1).2
  subst hb
  refine ⟨Option.some.inj ?_, rfl⟩
  rw [← hf.flow.predIndex?_eq_some.mp h.2, hf.flow.predIndex?_eq_some.mp h'.2]

theorem SsaForm.placedPhis_nodup (hf : f.SsaForm) (b : BlockId) : (f.placedPhis b).Nodup :=
  (((hf.nodup b).sublist (takeWhile_sublist _)).filter _).filter _

end Func

namespace Outline

def Fed (t : Outline) (f : Func) (p : ValueId) (k : Nat) : Prop :=
  ∃ q a a', (f.block (f.value p).block).preds[k]? = some q ∧ (f.args p)[k]? = some a ∧
    (t.func.args p)[k]? = some a' ∧ (t.draft f).AtHand q (t.valuesOf q) (t.atEnd q) a a' ∧
    (t.func.value a').loc ≠ none ∧ (t.func.value p).loc ≠ none

variable {c : Setting} {allowed : RegSet} {f : Func} {vis : List BlockId} {P : Claims}
  {t t' : Outline} {b : BlockId} {k : Nat} {p : ValueId}

theorem Consistent.leading_eq (ht : Consistent c allowed f vis P t) (hf : f.SsaForm) (hb : b ∈ vis)
    (hcur : t.current ≠ some b) : t.func.leading b = f.leading b := by
  obtain ⟨S, rest, hvals, -, hsteps⟩ := (ht.visited b hb).route
  rw [valuesOf_other hcur] at hvals
  rw [leading, hvals, takeWhile_append_of_pos]
  · cases rest with
    | nil => exact append_nil _
    | cons w rest =>
      have hw : (t.func.value w).op.isLeading = false := hsteps.not_leading w mem_cons_self
      rw [takeWhile_cons_of_neg (by rw [hw]; decide), append_nil]
  · intro v hv
    rw [(ht.kin v (hf.placed b v (mem_values_of_mem_leading hv)).1).op]
    exact isLeading_of_mem_leading hv

theorem Consistent.placedPhis_eq (ht : Consistent c allowed f vis P t) (hf : f.SsaForm) (hb : b ∈ vis)
    (hcur : t.current ≠ some b) : t.func.placedPhis b = f.placedPhis b := by
  have hkin : ∀ v ∈ f.leading b, f.Kin t.func v := fun v hv =>
    ht.kin v (hf.placed b v (mem_values_of_mem_leading hv)).1
  have hlead := ht.leading_eq hf hb hcur
  rw [leading] at hlead
  rw [placedPhis, placedPhis, phis, hlead]
  rw [filter_congr fun v hv => show ((t.func.value v).op == .phi) = ((f.value v).op == .phi) by
    rw [(hkin v hv).op]]
  refine filter_congr fun v hv => ?_
  rw [Value.hasResult, Value.hasResult, (hkin v (mem_filter.mp hv).1).ty]

theorem Fed.phiCopies_eq (h : t.Fed f p k) (types : TypeTable)
    (hloc : ∀ v l, (t.func.value v).loc = some l → (t'.func.value v).loc = some l)
    (hty : (t'.func.value p).ty = (t.func.value p).ty) (hargs : (t'.func.args p)[k]? = (t.func.args p)[k]?) :
    t'.func.phiCopies types k p = t.func.phiCopies types k p := by
  obtain ⟨q, a, a', -, -, ha', -, hsrc, hdst⟩ := h
  obtain ⟨src, hsrc⟩ := Option.ne_none_iff_exists'.mp hsrc
  obtain ⟨dst, hdst⟩ := Option.ne_none_iff_exists'.mp hdst
  have harg : t.func.arg p k = a' := by rw [arg, getD_eq_getElem?_getD, ha']; rfl
  have harg' : t'.func.arg p k = a' := by rw [arg, getD_eq_getElem?_getD, hargs, ha']; rfl
  rw [phiCopies, phiCopies, harg, harg', hsrc, hdst, hloc _ _ hsrc, hloc _ _ hdst, hty]

def recount (t : Outline) : Outline := { t with func := t.func.recountUses }

theorem agrees_recount (t : Outline) (v : ValueId) : t.func.Agrees t.recount.func v := by
  refine ⟨⟨?_, ?_, ?_, ?_⟩, ?_, t.func.args_recountUses v⟩ <;>
    exact t.func.value_recountUses_congr _ (fun _ _ => rfl) v

theorem grows_recount (t : Outline) (f : Func) (vis : List BlockId) (hspans : t.func.Spans) :
    t.Grows t.recount f vis where
  blocks := t.func.blocks_recountUses
  entry := (sameGraph_recountUses t.func).entry
  current := rfl
  out := rfl
  endStates := rfl
  spans := hspans.recountUses
  size_le := t.func.values_size_recountUses.symm.le
  kin v _ := (t.agrees_recount v).toKin
  loc v _ hl := (t.agrees_recount v).loc.trans hl
  loc_fixed _ _ v _ := (t.agrees_recount v).loc
  args_fixed _ _ v _ _ := (t.agrees_recount v).args
  args_ret _ _ _ _ v _ := (t.agrees_recount v).args
  home _ _ := id
  locals := by
    obtain ⟨vals, heq, -⟩ := t.func.recountUses_spec
    exact (congrArg locals heq).trans rfl

theorem Consistent.recount (ht : Consistent c allowed f vis P t) : Consistent c allowed f vis P t.recount :=
  ht.grow (t.grows_recount f vis ht.spans) (ht.tidy.mono le_rfl fun v _ hl =>
      ⟨(t.agrees_recount v).loc.symm.trans hl, (t.agrees_recount v).toKin⟩)
    fun _ _ hh hne => absurd hh hne

theorem Fed.recount (h : t.Fed f p k) (hspans : t.func.Spans) : t.recount.Fed f p k := by
  have hg := t.grows_recount f [] hspans
  obtain ⟨q, a, a', hq, ha, ha', hhand, hsrc, hdst⟩ := h
  refine ⟨q, a, a', hq, ha, (congrArg (·[k]?) (t.agrees_recount p).args).trans ha', ?_,
    (t.agrees_recount a').loc.trans_ne hsrc, (t.agrees_recount p).loc.trans_ne hdst⟩
  rw [hg.valuesOf]
  exact hhand.extend (hg.extends_draft nofun)

theorem endCopies_recount (t : Outline) (types : TypeTable) (q : BlockId) :
    t.recount.func.endCopies types q = t.func.endCopies types q := by
  have hblock : ∀ b, t.recount.func.block b = t.func.block b := t.func.block_recountUses
  have hcopies : ∀ i, t.recount.func.phiCopies types i = t.func.phiCopies types i := by
    intro i
    funext p
    rw [phiCopies, phiCopies, arg, arg, (t.agrees_recount p).args,
      (t.agrees_recount _).loc, (t.agrees_recount p).loc, (t.agrees_recount p).ty]
  have hphis : ∀ b, t.recount.func.placedPhis b = t.func.placedPhis b := by
    intro b
    simp only [placedPhis, phis, Value.hasResult, hblock, fun v => (t.agrees_recount v).op,
      fun v => (t.agrees_recount v).ty]
  rw [endCopies, hblock]
  refine flatMap_congr fun b _ => ?_
  rw [edgeCopies, edgeCopies, predIndex?, predIndex?, hblock, hphis]
  simp only [hcopies]

end Outline

namespace Setting

variable {c : Setting} {allowed : RegSet} {f : Func} {s s' s'' : Allocator}
  {D D' : ValueId → Nat → Prop} {b q : BlockId} {k : Nat} {u v p a : ValueId}
  {moves : Array (List WordMove)}

/-- The edges are being resolved; `D` tells which operands of phis are done. -/
structure Resolving (c : Setting) (allowed : RegSet) (f : Func) (D : ValueId → Nat → Prop)
    (s : Allocator) : Prop where
  consistent : s.outline.Consistent c allowed f f.reversePostorder .empty
  current : s.current = none
  length : ∀ v < f.values.size, (f.value v).op.isLeading → (s.func.args v).length = (f.args v).length
  fed : ∀ p k, D p k → s.outline.Fed f p k
  rest : ∀ v k, v < f.values.size → (f.value v).op.isLeading → ¬D v k → (s.func.args v)[k]? = (f.args v)[k]?

/-- From `s` on, operands that were done have not changed, and no location has. -/
structure Settles (D : ValueId → Nat → Prop) (s s' : Allocator) : Prop where
  loc : ∀ v l, (s.func.value v).loc = some l → (s'.func.value v).loc = some l
  args : ∀ p k, D p k → (s'.func.args p)[k]? = (s.func.args p)[k]?

theorem Settles.refl (D : ValueId → Nat → Prop) (s : Allocator) : Settles D s s :=
  ⟨fun _ _ => id, fun _ _ _ => rfl⟩

theorem Settles.trans (h : Settles D s s') (h' : Settles D' s' s'') (hsub : ∀ p k, D p k → D' p k) :
    Settles D s s'' :=
  ⟨fun v l hl => h'.loc v l (h.loc v l hl), fun p k hD => (h'.args p k (hsub p k hD)).trans (h.args p k hD)⟩

namespace Resolving

section

variable (h : Resolving c allowed f D s)

include h

theorem congr (hD : ∀ p k, D p k ↔ D' p k) : Resolving c allowed f D' s where
  consistent := h.consistent
  current := h.current
  length := h.length
  fed p k hp := h.fed p k ((hD p k).mpr hp)
  rest v k hv hop hnot := h.rest v k hv hop fun hp => hnot ((hD v k).mp hp)

theorem onward (hon : s.outline.Onward s'.outline f)
    (hcons : s'.outline.Consistent c allowed f f.reversePostorder .empty) : Resolving c allowed f D s' := by
  have hargs : ∀ v < f.values.size, s'.func.args v = s.func.args v := fun v hv =>
    (hon.agrees v (hv.trans_le h.consistent.size_le)).args
  refine ⟨hcons, hon.current.trans h.current, fun v hv hop => ?_, fun p k hp => ?_, fun v k hv hop hnot => ?_⟩
  · rw [hargs v hv]
    exact h.length v hv hop
  · obtain ⟨q, a, a', hq, ha, ha', hhand, hsrc, hdst⟩ := h.fed p k hp
    have hlt := lt_of_loc hdst
    obtain ⟨src, hsrc⟩ := Option.ne_none_iff_exists'.mp hsrc
    obtain ⟨dst, hdst⟩ := Option.ne_none_iff_exists'.mp hdst
    refine ⟨q, a, a', hq, ha, ?_, ?_, ?_, ?_⟩
    · exact (congrArg (·[k]?) (hon.agrees p hlt).args).trans ha'
    · have hend : s'.outline.atEnd q = s.outline.atEnd q := by
        funext r
        rw [Outline.atEnd, Outline.atEnd, hon.endStates]
      rw [hend]
      exact (hhand.mono (hon.members q) (.refl _)).extend hon.extends_draft
    · exact Option.ne_none_iff_exists'.mpr ⟨src, hon.loc hsrc⟩
    · exact Option.ne_none_iff_exists'.mpr ⟨dst, hon.loc hdst⟩
  · rw [hargs v hv]
    exact h.rest v k hv hop hnot

theorem settles_onward (hon : s.outline.Onward s'.outline f) : Settles D s s' := by
  refine ⟨fun v l => hon.loc, fun p k hp => ?_⟩
  obtain ⟨q, a, a', -, -, -, -, -, hdst⟩ := h.fed p k hp
  exact congrArg (·[k]?) (hon.agrees p (lt_of_loc hdst)).args

theorem phiCopies_eq (h' : Resolving c allowed f D' s') (hs : Settles D s s') (hp : D p k) (hlt : p < f.values.size) :
    s'.func.phiCopies c.types k p = s.func.phiCopies c.types k p :=
  show s'.outline.func.phiCopies c.types k p = _ from (h.fed p k hp).phiCopies_eq c.types hs.loc
    ((h'.consistent.kin p hlt).ty.trans (h.consistent.kin p hlt).ty.symm) (hs.args p k hp)

theorem placed (hf : f.SsaForm) (hu : f.AtEnd u q) : Placed f f.reversePostorder s u := by
  obtain ⟨d, hu, -⟩ := hu
  have hd := hf.flow.mem_reversePostorder.mpr (lt_of_mem_values hu)
  refine ⟨(hf.placed d u hu).1, d, hd, ?_⟩
  have hcur : s.outline.current ≠ some d := by
    rw [show s.outline.current = none from h.current]
    exact nofun
  rw [← (h.consistent.closed d hd hcur).all] at hu
  exact (mem_filter.mp hu).1

theorem copyAtEnd (hf : f.SsaForm) (hq : q ∈ f.reversePostorder)
    (hu : f.AtEnd u q) (hrun : Runs (c.copyAtEnd q u) s a s') :
    Resolving c allowed f D s' ∧ Settles D s s' ∧ s.outline.Onward s'.outline f ∧
      (s'.outline.draft f).AtHand q (s'.outline.valuesOf q) (s'.outline.atEnd q) u a := by
  rw [Setting.copyAtEnd, runs_get_bind] at hrun
  dsimp only at hrun
  split at hrun
  · rename_i r o hfind
    obtain ⟨rfl, rfl⟩ := runs_pure.mp hrun
    have hvalue : o.value = u := by simpa using find?_some hfind
    have hmem := mem_of_find?_eq_some hfind
    cases hstate : s'.endStates.getD q none with
    | none =>
      rw [hstate] at hmem
      cases hmem
    | some state =>
      rw [hstate] at hmem
      have hclaim : s'.outline.atEnd q r = some o := by
        change ((s'.endStates.getD q none).getD []).lookup r = some o
        rw [hstate]
        exact lookup_of_mem hmem (h.consistent.keys q state hstate)
      have hcur : s'.outline.current ≠ some q := by
        rw [show s'.outline.current = none from h.current]
        exact nofun
      have hheld := ((h.consistent.closed q hq hcur).founded.whole r o hclaim).2
      rw [hvalue] at hheld
      exact ⟨h, .refl D _, .refl _ f, .inl hheld⟩
  · have hhomed := home_spec hf hrun h.consistent (h.placed hf hu)
    have hplaced := (h.placed hf hu).onward hhomed.onward
    refine ⟨h.onward hhomed.onward hhomed.consistent, h.settles_onward hhomed.onward, hhomed.onward, .inr ?_⟩
    exact stored_of_home hf hhomed.consistent hplaced.1 hplaced.2 hhomed.home q

theorem setArg (hf : f.SsaForm) (hp : p ∈ (f.block b).values)
    (hop : (f.value p).op = .phi) (hq : (f.block b).preds[k]? = some q)
    (hu : (f.args p)[k]? = some u) (hnot : ¬D p k)
    (hhand : (s.outline.draft f).AtHand q (s.outline.valuesOf q) (s.outline.atEnd q) u a)
    (hsrc : (s.func.value a).loc ≠ none) (hdst : (s.func.value p).loc ≠ none)
    (hfinal : s' = { s with func := s.func.setArg p k a }) :
    Resolving c allowed f (fun v i => D v i ∨ v = p ∧ i = k) s' ∧ Settles D s s' ∧ (s'.func.args p)[k]? = some a := by
  obtain ⟨hlt, hblock⟩ := hf.placed b p hp
  have hsize := hlt.trans_le h.consistent.size_le
  have hlead : (f.value p).op.isLeading := by rw [hop]; rfl
  have hk : k < (s.func.args p).length := by
    rw [h.length p hlt hlead]
    exact (List.getElem?_eq_some_iff.mp hu).1
  have hself : (s.func.setArg p k a).args p = (s.func.args p).set k a :=
    h.consistent.spans.args_setArg_self hsize hk a
  have hother : ∀ v, v ≠ p → (s.func.setArg p k a).args v = s.func.args v := fun v hv =>
    h.consistent.spans.args_setArg_other hsize hk a hv
  have hargs : ∀ v i, ¬(v = p ∧ i = k) → ((s.func.setArg p k a).args v)[i]? = (s.func.args v)[i]? := by
    intro v i hne
    by_cases hv : v = p
    · rw [hv, hself, getElem?_set_ne]
      exact fun heq => hne ⟨hv, heq.symm⟩
    · rw [hother v hv]
  have hold : ∀ v i, D v i → ¬(v = p ∧ i = k) := by
    rintro v i hv ⟨rfl, rfl⟩
    exact hnot hv
  have hget : ((s.func.setArg p k a).args p)[k]? = some a := by
    rw [hself, getElem?_set_self hk]
  subst hfinal
  refine ⟨⟨?_, h.current, ?_, ?_, ?_⟩, ⟨fun _ _ => id, fun v i hv => hargs v i (hold v i hv)⟩, hget⟩
  · refine h.consistent.withOperands (h.consistent.spans.setArg p k a) hother ?_ ?_
    · intro d _ _
      rw [show (s.outline.func.value p).op = (f.value p).op from (h.consistent.kin p hlt).op]
      exact hlead
    · exact fun d _ _ hkind hcontrol => (hf.ret_control hkind hcontrol).2.2.1 b hp
  · intro v hv hvop
    by_cases hvp : v = p
    · rw [hvp, hself, length_set, ← hvp]
      exact h.length v hv hvop
    · rw [hother v hvp]
      exact h.length v hv hvop
  · rintro v i (hv | ⟨rfl, rfl⟩)
    · obtain ⟨d, x, x', hd, hx, hx', hrest⟩ := h.fed v i hv
      exact ⟨d, x, x', hd, hx, (hargs v i (hold v i hv)).trans hx', hrest⟩
    · refine ⟨q, u, a, ?_, hu, hget, hhand, hsrc, hdst⟩
      rw [hblock]
      exact hq
  · intro v i hv hvop hnew
    refine (hargs v i fun heq => hnew (.inr heq)).trans (h.rest v i hv hvop fun hD => hnew (.inl hD))

theorem phiMoves {moves : List WordMove} (hf : f.SsaForm) (hp : p ∈ (f.block b).values) (hop : (f.value p).op = .phi)
    (hq : (f.block b).preds[k]? = some q) (hnot : ¬D p k) (hrun : Runs (c.phiMoves q k p) s moves s') :
    Resolving c allowed f (fun v i => D v i ∨ v = p ∧ i = k) s' ∧ Settles D s s' ∧
      moves = s'.func.phiCopies c.types k p := by
  have hlt := (hf.placed b p hp).1
  have hlead : (f.value p).op.isLeading := by rw [hop]; rfl
  have hk : k < (f.args p).length := by
    rw [(hf.phi_args b p hp hop).1]
    exact (List.getElem?_eq_some_iff.mp hq).1
  obtain ⟨u, hu⟩ : ∃ u, (f.args p)[k]? = some u := ⟨_, getElem?_eq_getElem hk⟩
  have harg : s.func.arg p k = u := by
    rw [arg, getD_eq_getElem?_getD, h.rest p k hlt hlead hnot, hu]
    rfl
  have hend := hf.phi_reads b p hp hop k q u hq hu
  have hmem := hf.flow.mem_reversePostorder.mpr (hf.flow.pred_lt b q (mem_of_getElem? hq))
  rw [Setting.phiMoves, runs_get_bind, harg] at hrun
  obtain ⟨a, s1, hcopy, h1⟩ := runs_bind.mp hrun
  obtain ⟨_, s2, hset, h2⟩ := runs_bind.mp h1
  obtain ⟨hres, hsettle, -, hhand⟩ := h.copyAtEnd hf hmem hend hcopy
  have hset := runs_modify.mp hset
  rw [runs_get_bind] at h2
  dsimp only at h2
  have hsame : ∀ v, s2.func.value v = s1.func.value v := by
    intro v
    rw [hset]
    rfl
  split at h2
  · rename_i src dst hsrc hdst
    obtain ⟨words, s3, hparts, hret⟩ := runs_bind.mp h2
    obtain ⟨rfl, hwords, -⟩ := runs_parts hparts
    obtain ⟨rfl, rfl⟩ := runs_pure.mp hret
    rw [hsame] at hsrc hdst
    obtain ⟨hdone, hsettle', hself⟩ := hres.setArg hf hp hop hq hu hnot hhand
      (Option.ne_none_iff_exists'.mpr ⟨src, hsrc⟩) (Option.ne_none_iff_exists'.mpr ⟨dst, hdst⟩) hset
    refine ⟨hdone, hsettle.trans hsettle' fun _ _ => id, ?_⟩
    have harg' : s'.func.arg p k = a := by
      rw [arg, getD_eq_getElem?_getD, hself]
      rfl
    rw [phiCopies, harg', hsame, hsame, hsrc, hdst, hwords, hsame]
  · exact (runs_reject.mp h2).elim

end

theorem allPhiMoves (hf : f.SsaForm) (hq : (f.block b).preds[k]? = some q) : ∀ {ps : List ValueId}
    {D : ValueId → Nat → Prop} {s s' : Allocator} {moves : List (List WordMove)},
    Resolving c allowed f D s → ps.Nodup → (∀ p ∈ ps, p ∈ (f.block b).values ∧ (f.value p).op = .phi) →
    (∀ p ∈ ps, ¬D p k) → Runs (ps.mapM (c.phiMoves q k)) s moves s' →
    Resolving c allowed f (fun v i => D v i ∨ v ∈ ps ∧ i = k) s' ∧ Settles D s s' ∧
      moves = ps.map (s'.func.phiCopies c.types k)
  | [], D, s, s', moves, h, _, _, _, hrun => by
    obtain ⟨rfl, rfl⟩ := runs_mapM_nil.mp hrun
    exact ⟨h.congr (by simp), .refl D _, rfl⟩
  | p :: ps, D, s, s', moves, h, hnodup, hps, hnot, hrun => by
    obtain ⟨first, t, rest, hfirst, hrest, rfl⟩ := runs_mapM_cons.mp hrun
    have hmem := forall_mem_cons.mp hps
    obtain ⟨ht, hs, hmoves⟩ := h.phiMoves hf hmem.1.1 hmem.1.2 hq (hnot p mem_cons_self) hfirst
    have hfresh : ∀ x ∈ ps, ¬(D x k ∨ x = p ∧ k = k) := by
      rintro x hx (hD | ⟨rfl, -⟩)
      · exact hnot x (mem_cons_of_mem _ hx) hD
      · exact (nodup_cons.mp hnodup).1 hx
    obtain ⟨ht', hs', hmoves'⟩ := allPhiMoves hf hq ht (nodup_cons.mp hnodup).2 hmem.2 hfresh hrest
    refine ⟨ht'.congr fun v i => ?_, hs.trans hs' fun _ _ => .inl, ?_⟩
    · rw [mem_cons, or_assoc, or_and_right]
    · rw [map_cons, hmoves, hmoves', ← ht.phiCopies_eq ht' hs' (.inr ⟨rfl, rfl⟩) (hf.placed b p hmem.1.1).1]

section

variable (h : Resolving c allowed f D s)

include h

theorem placedPhis_eq (hf : f.SsaForm) (hedge : b ∈ (f.block q).succs) : s.func.placedPhis b = f.placedPhis b := by
  refine h.consistent.placedPhis_eq hf (hf.flow.mem_reversePostorder.mpr (hf.flow.succ_lt q b hedge)) ?_
  rw [show s.outline.current = none from h.current]
  exact nofun

theorem predIndex?_eq (b q : BlockId) : s.func.predIndex? b q = f.predIndex? b q :=
  congrArg (List.idxOf? q) (h.consistent.graph.preds b)

theorem edgeCopies_eq (h' : Resolving c allowed f D' s') (hf : f.SsaForm)
    (hs : Settles D s s') (hedge : b ∈ (f.block q).succs) (hD : ∀ p k, f.Onto q b p k → D p k) :
    s'.func.edgeCopies c.types q b = s.func.edgeCopies c.types q b := by
  rw [edgeCopies, edgeCopies, h.predIndex?_eq, h'.predIndex?_eq, h.placedPhis_eq hf hedge, h'.placedPhis_eq hf hedge]
  split
  · rfl
  · rename_i k hk
    refine flatMap_congr fun p hp => ?_
    exact h.phiCopies_eq h' hs (hD p k ⟨hp, hk⟩) (hf.placed b p (mem_placedPhis hp).1).1

theorem edgeMoves {moves : List WordMove} (hf : f.SsaForm)
    (hedge : b ∈ (f.block q).succs) (hnot : ∀ p k, f.Onto q b p k → ¬D p k)
    (hrun : Runs (c.edgeMoves q b) s moves s') :
    Resolving c allowed f (fun p k => D p k ∨ f.Onto q b p k) s' ∧ Settles D s s' ∧
      moves = s'.func.edgeCopies c.types q b := by
  obtain ⟨k, hk⟩ := mem_iff_getElem?.mp (hf.flow.edge.mp hedge)
  have hindex := hf.flow.predIndex?_eq_some.mpr hk
  rw [Setting.edgeMoves, runs_get_bind] at hrun
  dsimp only at hrun
  rw [h.predIndex?_eq, hindex] at hrun
  obtain ⟨all, hall, rfl⟩ := runs_bind_pure.mp hrun
  rw [show (s.func.phis b).filter (fun p => (s.func.value p).hasResult) = f.placedPhis b from
    h.placedPhis_eq hf hedge] at hall
  obtain ⟨hdone, hsettle, hmoves⟩ := h.allPhiMoves hf hk (hf.placedPhis_nodup b)
    (fun p hp => ⟨(mem_placedPhis hp).1, (mem_placedPhis hp).2.1⟩)
    (fun p hp => hnot p k ⟨hp, hindex⟩) hall
  refine ⟨hdone.congr fun p i => or_congr_right (and_congr_right fun _ => ?_), hsettle, ?_⟩
  · rw [hindex, Option.some_inj, eq_comm]
  · rw [edgeCopies, hdone.predIndex?_eq, hindex, hdone.placedPhis_eq hf hedge, hmoves]
    exact flatMap_def.symm

end

theorem allEdgeMoves (hf : f.SsaForm) : ∀ {bs : List BlockId} {D : ValueId → Nat → Prop}
    {s s' : Allocator} {moves : List (List WordMove)}, Resolving c allowed f D s → bs.Nodup →
    (∀ b ∈ bs, b ∈ (f.block q).succs) → (∀ b ∈ bs, ∀ p k, f.Onto q b p k → ¬D p k) →
    Runs (bs.mapM (c.edgeMoves q)) s moves s' →
    Resolving c allowed f (fun p k => D p k ∨ ∃ b ∈ bs, f.Onto q b p k) s' ∧ Settles D s s' ∧
      moves = bs.map (s'.func.edgeCopies c.types q)
  | [], D, s, s', moves, h, _, _, _, hrun => by
    obtain ⟨rfl, rfl⟩ := runs_mapM_nil.mp hrun
    exact ⟨h.congr (by simp), .refl D _, rfl⟩
  | b :: bs, D, s, s', moves, h, hnodup, hbs, hnot, hrun => by
    obtain ⟨first, t, rest, hfirst, hrest, rfl⟩ := runs_mapM_cons.mp hrun
    have hedges := forall_mem_cons.mp hbs
    have hnots := forall_mem_cons.mp hnot
    obtain ⟨ht, hs, hmoves⟩ := h.edgeMoves hf hedges.1 hnots.1 hfirst
    have hfresh : ∀ d ∈ bs, ∀ p k, f.Onto q d p k → ¬(D p k ∨ f.Onto q b p k) := by
      rintro d hd p k hp (hD | hp')
      · exact hnots.2 d hd p k hp hD
      · exact (nodup_cons.mp hnodup).1 ((hf.onto_unique hp' hp).2 ▸ hd)
    obtain ⟨ht', hs', hmoves'⟩ := allEdgeMoves hf ht (nodup_cons.mp hnodup).2 hedges.2 hfresh hrest
    refine ⟨ht'.congr fun p k => ?_, hs.trans hs' fun _ _ => .inl, ?_⟩
    · rw [exists_mem_cons_iff, or_assoc]
    · rw [map_cons, hmoves, hmoves', ← ht.edgeCopies_eq ht' hf hs' hedges.1 fun _ _ => .inr]

end Resolving

/-- All edges have been resolved, with the given copies at the ends of blocks. -/
structure Resolved (c : Setting) (allowed : RegSet) (f : Func) (moves : Array (List WordMove))
    (t : Outline) : Prop where
  consistent : t.Consistent c allowed f f.reversePostorder .empty
  current : t.current = none
  length : ∀ v < f.values.size, (f.value v).op.isLeading → (t.func.args v).length = (f.args v).length
  fed : ∀ q b p k, b ∈ (f.block q).succs → f.Onto q b p k → t.Fed f p k
  same : ∀ v k, v < f.values.size → (f.value v).op.isLeading →
    (∀ q b, b ∈ (f.block q).succs → ¬f.Onto q b v k) → (t.func.args v)[k]? = (f.args v)[k]?
  moves : ∀ q, moves.getD q [] = t.func.endCopies c.types q

/-- When all edges are resolved, every phi has its operands at the ends of the predecessors. -/
theorem resolveEdges_spec (hf : f.SsaForm) (h : Resolving c allowed f (fun _ _ => False) s)
    (hrun : Runs (c.resolveEdges f.reversePostorder) s moves s') : Resolved c allowed f moves s'.outline := by
  have hall := runs_foldlM_invariant (fun pre (all : Array (List WordMove)) t =>
    Resolving c allowed f (fun p k => ∃ q ∈ pre, ∃ b ∈ (f.block q).succs, f.Onto q b p k) t ∧
      all.size = f.blocks.size ∧ (∀ q ∈ pre, all.getD q [] = t.func.endCopies c.types q) ∧
      ∀ q, q ∉ pre → all.getD q [] = []) ?_ ?_ hrun
  · obtain ⟨hdone, -, hmoves, hrest⟩ := hall
    have hmem : ∀ {q b : BlockId}, b ∈ (f.block q).succs → q ∈ f.reversePostorder := fun hedge =>
      hf.flow.mem_reversePostorder.mpr (hf.flow.pred_lt _ _ (hf.flow.edge.mp hedge))
    refine ⟨hdone.consistent, hdone.current, hdone.length, ?_, ?_, ?_⟩
    · exact fun q b p k hedge hp => hdone.fed p k ⟨q, hmem hedge, b, hedge, hp⟩
    · exact fun v k hv hop hnot => hdone.rest v k hv hop fun ⟨q, _, b, hedge, hp⟩ => hnot q b hedge hp
    · intro q
      by_cases hq : q ∈ f.reversePostorder
      · exact hmoves q hq
      · have hnone : (s'.func.block q).succs = [] := by
          rw [show (s'.func.block q).succs = (f.block q).succs from hdone.consistent.graph.succs q]
          rw [eq_nil_iff_forall_not_mem]
          exact fun b hedge => hq (hmem hedge)
        rw [hrest q hq]
        change [] = (s'.func.block q).succs.flatMap _
        rw [hnone]
        rfl
  · rintro pre q post hlayout all all' t t' ⟨ht, hsize, hmoves, hrest⟩ hstep
    obtain ⟨last, hblock, rfl⟩ := runs_bind_pure.mp hstep
    rw [blockMoves, runs_get_bind] at hblock
    obtain ⟨edges, hedges, rfl⟩ := runs_bind_pure.mp hblock
    have hnodup := not_mem_of_split f.reversePostorder_nodup hlayout
    have hlt : q < all.size := by
      rw [hsize, ← hf.flow.mem_reversePostorder, hlayout]
      exact mem_append_right _ mem_cons_self
    rw [show (t.func.block q).succs = (f.block q).succs from ht.consistent.graph.succs q] at hedges
    obtain ⟨ht', hs, hlast⟩ := Resolving.allEdgeMoves hf ht (hf.flow.succs_nodup q) (fun b hb => hb)
      (fun b _ p k hp ⟨q', hq', b', _, hp'⟩ => hnodup ((hf.onto_unique hp hp').1 ▸ hq')) hedges
    refine ⟨ht'.congr fun p k => ?_, ?_, ?_, ?_⟩
    · simp only [mem_append, mem_singleton, or_and_right, exists_or, exists_eq_left]
    · rw [Array.size_setIfInBounds, hsize]
    · intro d hd
      rw [getD_setIfInBounds hlt]
      split
      · rename_i heq
        rw [heq, hlast, endCopies, show (t'.func.block q).succs = (f.block q).succs from
          ht'.consistent.graph.succs q, flatMap_def]
      · rename_i hne
        have hd : d ∈ pre := by simpa [hne] using hd
        rw [hmoves d hd, endCopies, endCopies,
          show (t'.func.block d).succs = (f.block d).succs from ht'.consistent.graph.succs d,
          show (t.func.block d).succs = (f.block d).succs from ht.consistent.graph.succs d]
        exact flatMap_congr fun b hb => (ht.edgeCopies_eq ht' hf hs hb fun p k hp => ⟨d, hd, b, hb, hp⟩).symm
    · intro d hd
      have hne : d ≠ q := fun heq => hd (mem_append_right _ (mem_singleton.mpr heq))
      rw [getD_setIfInBounds hlt, if_neg hne]
      exact hrest d fun hmem => hd (mem_append_left _ hmem)
  · refine ⟨h.congr (by simp), ?_, nofun, fun q _ => ?_⟩
    · rw [Array.size_replicate]
      exact h.consistent.graph.size
    · exact getD_replicate ..

theorem Resolved.recount {t : Outline} (h : Resolved c allowed f moves t) : Resolved c allowed f moves t.recount where
  consistent := h.consistent.recount
  current := h.current
  length v hv hop := (congrArg List.length (t.agrees_recount v).args).trans (h.length v hv hop)
  fed q b p k hedge hp := (h.fed q b p k hedge hp).recount h.consistent.spans
  same v k hv hop hnot := (congrArg (·[k]?) (t.agrees_recount v).args).trans (h.same v k hv hop hnot)
  moves q := (h.moves q).trans (t.endCopies_recount c.types q).symm

theorem allocateAll_spec (hf : f.Prepared c.types) (hsig : Signature.of c.types f = .ok c.signature)
    (hlive : c.live = Liveness.compute f) (hlow : ∀ r : Reg, r.val < 2 → allowed.contains r)
    (h : Between c allowed f [] s) (hrun : Runs (c.allocateAll f.reversePostorder) s moves s') :
    Resolved c allowed f moves s'.outline := by
  obtain ⟨_, s1, hblocks, h1⟩ := runs_bind.mp hrun
  obtain ⟨_, s2, hmod, hedges⟩ := runs_bind.mp h1
  have hbetween := allocateBlocks_spec hf hsig hlive hlow h hblocks
  obtain rfl := runs_modify.mp hmod
  have hargs : ∀ v < f.values.size, (f.value v).op.isLeading → s1.func.args v = f.args v := by
    intro v hv hop
    refine hbetween.untouched.args v hv nofun (fun b hk hc => ?_) (.inl hop)
    rw [(hf.ssa.ret_control hk hc).2.1] at hop
    cases hop
  refine resolveEdges_spec hf.ssa ⟨?_, rfl, ?_, nofun, ?_⟩ hedges
  · have hcons : ((s1.outline.turnTo none []).turnTo none s1.out).Consistent c allowed f
        f.reversePostorder .empty := hbetween.consistent.turnTo nofun nofun
    exact hcons
  · exact fun v hv hop => congrArg List.length (hargs v hv hop)
  · exact fun v k hv hop _ => congrArg (·[k]?) (hargs v hv hop)

end Setting

theorem allocate_spec {f g : Func} {types : TypeTable} {allowed : RegSet} {a : Allocation}
    (hf : f.Prepared types) (hlow : ∀ r : Reg, r.val < 2 → allowed.contains r)
    (h : allocate f types allowed = .ok (a, g)) :
    ∃ (c : Setting) (t : Outline), c.types = types ∧ Signature.of types f = .ok c.signature ∧
      a.signature = c.signature ∧ a.layout = f.reversePostorder ∧
      t.func.recountUses = g ∧ c.Resolved allowed f a.edgeMoves t := by
  obtain ⟨signature, hsig, h1⟩ := except_bind_eq_ok.mp h
  obtain ⟨⟨moves, s⟩, hrun, hret⟩ := except_bind_eq_ok.mp h1
  obtain ⟨rfl, rfl⟩ := Prod.mk.inj (Except.ok.inj hret)
  refine ⟨⟨types, Liveness.compute f, signature⟩, s.outline, rfl, hsig, rfl, rfl, rfl, ?_⟩
  exact Setting.allocateAll_spec hf hsig rfl hlow (Setting.between_start hf rfl rfl rfl rfl) hrun

end SsaCodegen
