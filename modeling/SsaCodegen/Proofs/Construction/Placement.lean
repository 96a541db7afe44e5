import SsaCodegen.Proofs.Construction.Minimal
import SsaCodegen.Proofs.Frontiers
import SsaCodegen.Proofs.Checks

/-! Phis stand in the iterated frontier of the blocks that assign their variable. Elsewhere they would read
each other and one value besides, and would have been merged. -/

namespace SsaCodegen

open List

namespace Construction

variable {t : Task} {s : Construction} {x : Var} {b d y : BlockId} {rest bs : List BlockId}
  {p v w : ValueId}

section

variable (h : Complete t s)

include h

theorem Complete.starts_of_not_site (hw : s.EndsWith x b w) (hb : b ∉ s.sites x) :
    s.IsPhi (s.resolve w) x b ∨ (s.func.block b).preds ≠ [] ∧ ∀ q ∈ (s.func.block b).preds, s.EndsWith x q w := by
  obtain ⟨u, hu, huw⟩ := hw
  rcases h.starts_cases ((h.sound.starts x b u hu).resolve_left hb) with hphi | ⟨hne, hall⟩
  · rw [huw] at hphi
    exact .inl hphi
  · exact .inr ⟨hne, fun q hq => (hall q hq).congr huw⟩

theorem Complete.phi_rest (hp : s.IsPhi p x b) (htrail : Trail s.func (b :: rest)) :
    ∃ q rest', rest = q :: rest' := by
  cases rest with
  | nil =>
    cases htrail with
    | start =>
      obtain ⟨-, -, -, htwo⟩ := h.sound.shape.phi p hp.lt hp.op
      rw [hp.block, h.flow.entry_preds] at htwo
      exact absurd htwo (by decide)
  | cons q rest' => exact ⟨q, rest', rfl⟩

/-- A variable that has a value has been assigned on the way. -/
theorem Complete.exists_site (htrail : Trail s.func bs) :
    ∀ b rest, bs = b :: rest → ∀ w, s.EndsWith x b w → ∃ c ∈ bs, c ∈ s.sites x := by
  induction htrail with
  | start =>
    rintro b rest hsplit w hw
    obtain ⟨rfl, rfl⟩ := List.cons.inj hsplit
    by_contra hnone
    rcases h.starts_of_not_site hw fun hb => hnone ⟨_, mem_cons_self, hb⟩ with hphi | ⟨hne, -⟩
    · obtain ⟨q, rest', hrest⟩ := h.phi_rest hphi .start
      cases hrest
    · exact hne h.flow.entry_preds
  | @step q c rest' trail edge ih =>
    rintro b rest hsplit w hw
    obtain ⟨rfl, rfl⟩ := List.cons.inj hsplit
    by_cases hb : c ∈ s.sites x
    · exact ⟨c, mem_cons_self, hb⟩
    have hpred := h.flow.edge.mp edge
    obtain ⟨u, hu⟩ : ∃ u, s.EndsWith x q u := by
      rcases h.starts_of_not_site hw hb with hphi | ⟨-, hall⟩
      · obtain ⟨k, a, -, -, hends⟩ := h.operand hphi hpred
        exact ⟨a, hends⟩
      · exact ⟨w, hall q hpred⟩
    obtain ⟨e, he, hsite⟩ := ih q rest' rfl u hu
    exact ⟨e, mem_cons_of_mem c he, hsite⟩

def Stray (s : Construction) (x : Var) (d : BlockId) (q : ValueId) : Prop :=
  s.forward.lookup q = none ∧ ∃ y rest, s.IsPhi q x y ∧ ¬s.func.Joins (s.sites x) y ∧
    Trail s.func (y :: rest) ∧ Func.LastIn (fun c => c ∈ s.sites x ∨ s.func.Joins (s.sites x) c) rest d

/-- Between `d` and a later block a variable is what it is at the end of `d`, or a stray phi. -/
theorem Complete.stray_or_endsWith (htrail : Trail s.func bs) : ∀ b rest, bs = b :: rest →
      Func.LastIn (fun c => c ∈ s.sites x ∨ s.func.Joins (s.sites x) c) bs d →
      ∀ w, s.EndsWith x b w → s.Stray x d (s.resolve w) ∨ s.EndsWith x d w := by
  induction htrail with
  | start =>
    rintro b rest hsplit hlast w hw
    obtain ⟨rfl, rfl⟩ := List.cons.inj hsplit
    rcases Func.lastIn_cons.mp hlast with ⟨-, rfl⟩ | ⟨-, pre, post, hnil, -⟩
    · exact .inr hw
    · exact absurd hnil (by simp)
  | @step q c rest' trail edge ih =>
    rintro b rest hsplit hlast w hw
    obtain ⟨rfl, rfl⟩ := List.cons.inj hsplit
    rcases Func.lastIn_cons.mp hlast with ⟨-, rfl⟩ | ⟨hS, hlast'⟩
    · exact .inr hw
    rcases h.starts_of_not_site hw fun hb => hS (.inl hb) with hphi | ⟨-, hall⟩
    · exact .inl ⟨h.sound.lookup_resolve w, c, _, hphi, fun hj => hS (.inr hj), .step trail edge, hlast'⟩
    · exact ih q rest' rfl hlast' w (hall q (h.flow.edge.mp edge))

/-- Stray phis read each other and the value of their variable at the end of `d`. -/
theorem Complete.stray_reads {q a : ValueId} (hq : s.Stray x d q) (ha : a ∈ s.func.args q) :
    s.Stray x d (s.resolve a) ∨ s.EndsWith x d a := by
  obtain ⟨-, y, rest, hphi, hy, htrail, hlast⟩ := hq
  obtain ⟨z, hz, hends⟩ := Known.operand h.sound hphi (h.known _ _ _ hphi) ha
  obtain ⟨r, hr⟩ := h.flow.exists_trail (h.flow.pred_lt y z hz)
  have htrail' : Trail s.func (y :: z :: r) := .step hr (h.flow.edge.mpr hz)
  obtain ⟨hne, hdom⟩ := h.flow.dominates_of_lastIn htrail hy hlast
  have hmem := (mem_cons.mp (hdom _ htrail')).resolve_left hne
  obtain ⟨d', hd'⟩ := Func.exists_lastIn (S := fun c => c ∈ s.sites x ∨ s.func.Joins (s.sites x) c) ⟨d, hmem, by
      obtain ⟨-, -, -, hS, -⟩ := hlast
      exact hS⟩
  obtain rfl := h.flow.lastIn_unique htrail htrail' hy hlast hd'
  exact h.stray_or_endsWith hr z r rfl hd' a hends

/-- A phi that is not replaced stands in the iterated frontier of the blocks that assign its variable. -/
theorem Complete.phi_joins (hp : s.collapse.IsPhi p x b) (hself : s.collapse.forward.lookup p = none) :
    s.collapse.func.Joins (s.collapse.sites x) b := by
  have h' := h.collapse.complete
  by_contra hb
  -- some walk to the phi passes an assignment; let `d` be the last one, or the last join
  have hlt := hp.block ▸ (h'.sound.shape.phi p hp.lt hp.op).1
  obtain ⟨rest, htrail⟩ := h'.flow.exists_trail hlt
  obtain ⟨q, rest, rfl⟩ := h'.phi_rest hp htrail
  obtain ⟨hq, edge⟩ : Trail s.collapse.func (q :: rest) ∧ b ∈ (s.collapse.func.block q).succs := by
    cases htrail with
    | step hq edge => exact ⟨hq, edge⟩
  obtain ⟨k, a, -, -, ha⟩ := h'.operand hp (h'.flow.edge.mp edge)
  obtain ⟨c, hc, hsite⟩ := h'.exists_site hq q rest rfl a ha
  obtain ⟨d, hd⟩ := Func.exists_lastIn
    (S := fun c => c ∈ s.collapse.sites x ∨ s.collapse.func.Joins (s.collapse.sites x) c)
    ⟨c, hc, .inl hsite⟩
  have hstray : s.collapse.Stray x d p := ⟨hself, b, q :: rest, hp, hb, htrail, hd⟩
  -- the stray phis read nothing else than the value of `x` at the end of `d`
  obtain ⟨v, hv⟩ : ∃ v, ∀ w, s.collapse.EndsWith x d w → s.collapse.resolve w = v := by
    by_cases hends : ∃ w, s.collapse.EndsWith x d w
    · obtain ⟨w, hw⟩ := hends
      exact ⟨s.collapse.resolve w, fun u hu => hu.unique hw⟩
    · exact ⟨0, fun w hw => absurd ⟨w, hw⟩ hends⟩
  refine h.irredundant (v := v) ?_ ⟨fun q hq => hq.1, ?_⟩ p hstray
  · rintro q ⟨-, y, -, hphi, -⟩
    exact ⟨x, y, h.collapse.isPhi hphi⟩
  · intro q hq a ha
    exact (h'.stray_reads hq ha).imp_right (hv a)

/-- What is recorded of a phi of the finished function: the blocks that assign its variable, and it
stands in their iterated frontier. -/
theorem Complete.site_joins {site : PhiSites} (hsite : site ∈ s.finish.sites) :
    s.finish.func.Joins site.blocks (s.finish.func.value site.phi).block := by
  obtain ⟨p, hp, rfl⟩ := mem_map.mp hsite
  obtain ⟨b, -, hpb⟩ := mem_flatMap.mp hp
  obtain ⟨ps, lead, back, hl⟩ := h.collapse.complete.layout b
  obtain ⟨hmem, hphi⟩ := mem_filter.mp hpb
  replace hmem : p ∈ (s.collapse.pruned.block b).values := by
    rw [← Func.block_recountUses]
    exact takeWhile_subset _ hmem
  replace hphi : (s.collapse.func.value p).op = .phi := by
    rw [← value_pruned, ← s.collapse.pruned.value_recountUses_congr Value.op fun _ _ => rfl]
    exact beq_iff_eq.mp hphi
  obtain ⟨⟨x, hx⟩, hself, -⟩ := (hl.phi p).mp (h.collapse.complete.mem_layout_phis hl hmem hphi)
  have hjoin := h.phi_joins hx hself
  have hsites : ((s.collapse.phiVars.lookup p).map s.collapse.sites).getD [] = s.collapse.sites x := by
    rw [hx.var]
    rfl
  have hat : (s.finish.func.value p).block = b := by
    rw [finish_func, s.collapse.pruned.value_recountUses_congr Value.block fun _ _ => rfl, value_pruned, hx.block]
  rw [hsites, hat]
  exact hjoin.congr ((sameGraph_pruned _).trans (Func.sameGraph_recountUses _))

end

end Construction

variable {ir : Ir.Func} {types : TypeTable} {built : Built}

/-- A function that was brought into SSA form passes the checks of SSA form and of the places of its
phis. -/
theorem buildSsa_checks (htypes : types.Made) (hbuilt : buildSsa ir types = .ok built) : built.func.verify = .ok () ∧
      checkPhiPlacement built.func (DomTree.compute built.func) built.sites = .ok () := by
  obtain ⟨hvalid, s, hs, rfl⟩ := lowered_of_buildSsa hbuilt
  have hc := Construction.complete_of_lowered hvalid hs
  have hc' := hc.collapse.complete
  have htask : (enter ir types).1.types = types := by rw [enter_eq]
  refine ⟨?_, ?_⟩
  · rw [Construction.finish_func]
    refine hc'.ssaForm.verify (hc'.branchesOnBool ?_)
    rw [htask]
    exact htypes.bool_not_memory
  · have hnone : s.finish.sites.find? (fun site => !(iteratedFrontier
        ((DomTree.compute s.finish.func).frontiers s.finish.func) site.blocks).contains
          (s.finish.func.value site.phi).block) = none := by
      rw [List.find?_eq_none]
      intro site hsite
      rw [Bool.not_eq_true', Bool.not_eq_false, List.contains_iff_mem]
      exact hc.site_joins hsite
    rw [checkPhiPlacement, hnone]
    rfl

/-- The counting loop passes them with the phis of its local and of memory. -/
theorem countdown_checks : TypeTable.builtins.Made ∧ ∃ built, buildSsa countdown .builtins = .ok built ∧
    built.sites = [⟨3, [0, 2]⟩, ⟨6, [0, 2]⟩] ∧ built.func.verify = .ok () ∧
      checkPhiPlacement built.func (DomTree.compute built.func) built.sites = .ok () := by
  obtain ⟨built, hbuilt⟩ := exists_buildSsa_countdown
  have hsites : (buildSsa countdown .builtins).toOption.map (·.sites) = some [⟨3, [0, 2]⟩, ⟨6, [0, 2]⟩] := by
    decide +kernel
  rw [hbuilt] at hsites
  exact ⟨.builtins, built, hbuilt, Option.some.inj hsites, buildSsa_checks .builtins hbuilt⟩

end SsaCodegen
