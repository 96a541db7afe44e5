import SsaCodegen.Proofs.Allocation.Checker
import SsaCodegen.Proofs.Allocation.Form

/-! Values that are needed at the same time share no register, since claims arise at definitions only and a
register is claimed for one value. -/

namespace SsaCodegen

open List Func Claims

namespace Func

variable {f : Func} {u v w : ValueId} {r : Reg}

theorem firstShared?_eq_none : ∀ {l owners : List (Reg × ValueId)}, (l.map Prod.fst).Nodup →
    (∀ x ∈ l, x.1 ∉ owners.map Prod.fst) → firstShared? owners l = none
  | [], _, _, _ => rfl
  | (r, v) :: l, owners, hnodup, hfresh => by
    obtain ⟨hr, hnodup⟩ := nodup_cons.mp hnodup
    obtain ⟨hnew, hfresh⟩ := forall_mem_cons.mp hfresh
    have hnone : owners.lookup r = none := by
      rw [lookup_eq_none_iff]
      exact fun x hx => bne_iff_ne.mpr fun heq => hnew (mem_map.mpr ⟨x, hx, heq.symm⟩)
    rw [firstShared?, hnone]
    refine firstShared?_eq_none hnodup fun x hx => ?_
    rw [map_cons, mem_cons]
    rintro (heq | hmem)
    · exact hr (heq ▸ mem_map_of_mem hx)
    · exact hfresh x hx hmem

theorem conflictAmong?_eq_none {needed : List ValueId} (hneeded : needed.Nodup) (hregs : ∀ v, (f.regsOf v).Nodup)
    (hapart : ∀ v ∈ needed, ∀ w ∈ needed, ∀ r ∈ f.regsOf v, r ∈ f.regsOf w → v = w) :
    f.conflictAmong? needed = none := by
  refine firstShared?_eq_none ?_ nofun
  have hkeys : (needed.flatMap fun v => (f.regsOf v).map (·, v)).map Prod.fst = needed.flatMap f.regsOf := by
    rw [map_flatMap]
    refine flatMap_congr fun v _ => ?_
    rw [map_map]
    exact map_id _
  rw [hkeys, nodup_flatMap]
  refine ⟨fun v _ => hregs v, hneeded.pairwise_of_forall_ne fun v hv w hw hne r hr hr' => ?_⟩
  exact hne (hapart v hv w hw r hr hr')

end Func

namespace Draft

variable {d : Draft} {b : BlockId} {pre ws tail : List ValueId} {P P' Q R S : Claims} {u v w a : ValueId}
  {r : Reg} {needed : ValueSet}

def Claimed (d : Draft) (P : Claims) (w : ValueId) : Prop :=
  d.func.regsOf w ≠ [] → ∃ u, d.Held P u w

theorem Claimed.mono (h : d.Claimed P w) (hPQ : P.Within Q) : d.Claimed Q w := fun hne =>
  (h hne).imp fun _ hheld => hheld.mono hPQ

theorem Claimed.unique (hv : d.Claimed P v) (hw : d.Claimed P w) (hr : r ∈ d.func.regsOf v)
    (hr' : r ∈ d.func.regsOf w) : v = w := by
  obtain ⟨u, hu⟩ := hv (ne_nil_of_mem hr)
  obtain ⟨u', hu'⟩ := hw (ne_nil_of_mem hr')
  obtain ⟨i, hi⟩ := mem_iff_getElem?.mp hr
  obtain ⟨j, hj⟩ := mem_iff_getElem?.mp hr'
  have hsame := (hu.2 i r hi).symm.trans (hu'.2 j r hj)
  exact congrArg Occupant.copy (Option.some.inj hsame)

theorem Claimed.of_put {x : ValueId} {rs : List Reg} (h : d.Claimed (P.put u x rs) w) (hne : w ≠ x) :
    d.Claimed P w := by
  intro hregs
  obtain ⟨u', hheld⟩ := h hregs
  refine ⟨u', hheld.1, fun p r hr => ?_⟩
  rcases put_eq_some (hheld.2 p r hr) with ⟨i, -, heq⟩ | ⟨-, hold⟩
  · exact absurd (congrArg Occupant.copy heq) hne
  · exact hold

theorem Claimed.before_step (h : d.Claimed P' w) (hstep : d.Step b pre P v P') (hne : w ≠ v) : d.Claimed P w := by
  cases hstep with
  | compute => exact h.of_put hne
  | call => exact (h.of_put hne).mono (empty_within P)
  | store => exact h
  | load => exact h.of_put hne
  | remake => exact h.of_put hne

theorem Claimed.before_steps : ∀ {ws pre : List ValueId} {R : Claims}, d.Claimed Q w →
    d.Steps b pre R ws Q → w ∉ ws → d.Claimed R w
  | [], _, _, h, hsteps, _ => h.mono hsteps
  | v :: ws, _, _, h, ⟨P, P', hP, hstep, hrest⟩, hnot => by
    obtain ⟨hne, hnot⟩ := ne_and_not_mem_of_not_mem_cons hnot
    exact ((h.before_steps hrest hnot).before_step hstep hne).mono hP

theorem Step.claimed_self (hstep : d.Step b pre P w P') (hnodup : (d.func.regsOf w).Nodup) : d.Claimed P' w := by
  intro hregs
  cases hstep with
  | compute => exact ⟨w, hold_put hnodup hregs⟩
  | call => exact ⟨w, hold_put hnodup hregs⟩
  | store new op args home before loc =>
    rw [regsOf, loc] at hregs
    exact absurd rfl hregs
  | load => exact ⟨_, hold_put hnodup hregs⟩
  | remake => exact ⟨_, hold_put hnodup hregs⟩

theorem Step.regsOf_eq_nil (hstep : d.Step b pre P v P') (hcall : (d.func.value v).op = .call)
    (hw : d.Claimed P' w) (hne : w ≠ v) : d.func.regsOf w = [] := by
  by_contra hregs
  cases hstep with
  | compute lt op inner other => exact other (op.symm.trans hcall)
  | call =>
    obtain ⟨u, hheld⟩ := hw.of_put hne hregs
    obtain ⟨r, hr⟩ := exists_mem_of_ne_nil _ hregs
    obtain ⟨i, hi⟩ := mem_iff_getElem?.mp hr
    cases hheld.2 i r hi
  | store new op => cases hcall.symm.trans op
  | load new op => cases hcall.symm.trans op
  | remake new op => cases hcall.symm.trans op

/-- Going back over a run meets no conflict, if all that is needed after it is claimed there, and if what
comes before the run meets none. -/
theorem Steps.conflictBefore? (hnodup : ∀ v, (d.func.regsOf v).Nodup)
    (hreads : ∀ {pre : List ValueId} {P P' : Claims}, ∀ v ∈ ws, d.Step b pre P v P' →
      ∀ a ∈ d.func.dataUses v, d.Claimed P a) (htail : ∀ needed : ValueSet, (∀ w ∈ needed, d.Claimed R w) →
      d.func.conflictBefore? tail needed = none)
    (hsteps : d.Steps b pre R ws Q) (hneeded : ∀ w ∈ needed, d.Claimed Q w) :
    d.func.conflictBefore? (ws.reverse ++ tail) needed = none := by
  induction ws using List.reverseRecOn generalizing Q needed with
  | nil => exact htail needed fun w hw => (hneeded w hw).mono hsteps
  | append_singleton ws v ih =>
    obtain ⟨M, hfirst, P, P', hP, hstep, hQ⟩ := hsteps.split
    rw [reverse_append, reverse_singleton, append_assoc, singleton_append, conflictBefore?_cons]
    refine ⟨fun w hw hne => ?_, ih (fun v hv => hreads v (mem_append_left _ hv)) hfirst fun w hw => ?_⟩
    · have hw := (hneeded w hw).mono hQ
      exact ⟨fun r hr hr' => hne (hw.unique (hstep.claimed_self (hnodup v)) hr' hr),
        fun hcall => hstep.regsOf_eq_nil hcall hw hne⟩
    · refine Claimed.mono ?_ hP
      rcases mem_needed_before.mp hw with ⟨-, hw⟩ | ⟨hw, hne⟩
      · exact hreads v (mem_append_right _ mem_cons_self) hstep w hw
      · exact ((hneeded w hw).mono hQ).before_step hstep hne

end Draft

namespace Setting.Resolved

variable {c : Setting} {allowed : RegSet} {f : Func} {moves : Array (List WordMove)} {t : Outline}
  {b q : BlockId} {pre rest : List ValueId} {P S : Claims} {u v w a : ValueId}

/-- What a block starts with, and the way from there to its end. -/
structure Path (t : Outline) (f : Func) (b : BlockId) (S : Claims) (rest : List ValueId) : Prop where
  values : (t.func.block b).values = f.leading b ++ rest
  start : t.StartsWith f b S
  steps : (t.draft f).Steps b (f.leading b) S rest (t.atEnd b)

section

variable (h : Resolved c allowed f moves t)

include h

theorem path (hf : f.SsaForm) (hb : b < f.blocks.size) : ∃ S rest, Path t f b S rest := by
  obtain ⟨S, rest, hvals, hS, hsteps⟩ := h.route hf hb
  exact ⟨S, rest, hvals, hS, hsteps⟩

theorem regsOf_home (hhome : t.homes.lookup u = some a) : t.func.regsOf a = [] := by
  obtain ⟨-, ⟨rfl, l, hl, hreg⟩ | ⟨-, -, -, -, ⟨slot, hslot⟩, -⟩⟩ := h.consistent.homes u a hhome
  · rw [regsOf_of_loc hl]
    cases l <;> first | rfl | cases hreg
  · rw [regsOf_of_loc hslot]
    rfl

theorem ty_of_home (hhome : t.homes.lookup u = some a) : (t.func.value a).ty = (f.value u).ty := by
  obtain ⟨hlt, ⟨rfl, -⟩ | ⟨-, -, -, hty, -⟩⟩ := h.consistent.homes u a hhome
  · exact (h.consistent.kin a hlt).ty
  · exact hty

theorem claimed_of_atHand (hhand : (t.draft f).AtHand b pre P u a) : (t.draft f).Claimed P a := by
  rcases hhand with hheld | hstored
  · exact fun _ => ⟨u, hheld⟩
  · exact fun hne => absurd (h.regsOf_home hstored.1) hne

theorem renamed_of_use {R : ValueId → ValueId → Prop}
    (hw : w < f.values.size) (hargs : ∀ u ∈ f.args w, u < f.values.size)
    (hren : (t.draft f).Renames w R) (ha : a ∈ t.func.dataUses w) : ∃ u, R u a := by
  obtain ⟨hdata, hres⟩ := mem_filter.mp ha
  obtain ⟨k, hk⟩ := mem_iff_getElem?.mp hdata
  have hlt := (List.getElem?_eq_some_iff.mp hk).1
  have hka : (t.func.args w)[k]? = some a := by
    rw [List.prefix_iff_getElem?.mp (t.func.dataArgs_front w) k hlt, ← hk, getElem?_eq_getElem]
  have hlt' := hren.1 ▸ (List.getElem?_eq_some_iff.mp hka).1
  rcases hren.2 k _ a (getElem?_eq_getElem hlt') hka with hR | ⟨rfl, hnone⟩
  · exact ⟨_, hR⟩
  · rw [h.consistent.hasResult (hargs _ (getElem_mem hlt'))] at hres
    rw [h.consistent.dataArgs_length hw hren.1] at hlt
    exact absurd (hnone hlt) (by rw [show ((t.draft f).source.value _).hasResult = _ from hres]; decide)

section

variable (hf : f.SsaForm) (hw : w ∈ (t.func.block b).values)

include hf hw

theorem operand_lt (hlt : w < f.values.size) (hop : (f.value w).op ≠ .phi)
    (hu : u ∈ f.args w) : u < f.values.size := by
  obtain ⟨pre, post, hvals⟩ := append_of_mem hw
  obtain ⟨d, hd, -⟩ := (h.source_before hf hvals hlt hop hu).2
  exact (hf.placed d u hd).1

theorem claimed_of_use {P' : Claims} (hstep : (t.draft f).Step b pre P w P')
    (ha : a ∈ t.func.dataUses w) : (t.draft f).Claimed P a := by
  have hargs : w < f.values.size → ∀ u ∈ f.args w, u < f.values.size := by
    refine fun hlt u => h.operand_lt hf hw hlt fun hop => ?_
    have hnot : (t.func.value w).op.isLeading = false := hstep.not_leading
    rw [(h.consistent.kin w hlt).op, hop] at hnot
    cases hnot
  cases hstep with
  | compute lt op inner other reads =>
    obtain ⟨u, hheld⟩ := h.renamed_of_use lt (hargs lt) reads ha
    exact fun _ => ⟨u, hheld⟩
  | call lt op isCall reads =>
    obtain ⟨u, hhand⟩ := h.renamed_of_use lt (hargs lt) reads ha
    exact h.claimed_of_atHand hhand
  | store new op args home before loc held =>
    have hmem := (t.func.dataArgs_front w).subset (mem_filter.mp ha).1
    rw [show t.func.args w = _ from args, mem_singleton] at hmem
    rw [hmem]
    exact fun _ => ⟨_, held⟩
  | load new op args stored loc =>
    have hmem := (t.func.dataArgs_front w).subset (mem_filter.mp ha).1
    rw [show t.func.args w = _ from args, mem_singleton] at hmem
    exact hmem ▸ h.claimed_of_atHand (.inr stored)
  | remake new op payload args =>
    have hmem := (t.func.dataArgs_front w).subset (mem_filter.mp ha).1
    rw [show t.func.args w = _ from args] at hmem
    cases hmem

end

theorem claimed_of_controlUse (hf : f.SsaForm)
    (hb : b < f.blocks.size) (ha : a ∈ t.func.controlUses b) : (t.draft f).Claimed (t.atEnd b) a := by
  rw [controlUses] at ha
  split at ha
  · rename_i a' hk ha'
    rw [h.consistent.graph.kind] at hk
    obtain ⟨u, a'', -, hcontrol, hheld⟩ := (h.closed hf hb).branch hk
    rw [ha', Option.some_inj] at hcontrol
    rw [mem_singleton.mp ha, hcontrol]
    exact fun _ => ⟨u, hheld⟩
  · rename_i v hk hv
    rw [h.consistent.graph.kind] at hk
    rw [(h.closed hf hb).plain (by rw [hk]; decide)] at hv
    obtain ⟨hlt, -, -, hargs⟩ := hf.ret_control hk hv
    have hargs : ∀ u ∈ f.args v, u < f.values.size := fun u hu =>
      (hargs u hu).elim fun d hd => (hf.placed d u hd.1).1
    obtain ⟨u, hhand⟩ := h.renamed_of_use hlt hargs ((h.closed hf hb).ret v hk hv) ha
    exact h.claimed_of_atHand hhand
  · cases ha

theorem claimed_of_feeds (hf : f.SsaForm) (ha : t.func.Feeds b q a) : (t.draft f).Claimed (t.atEnd b) a := by
  obtain ⟨k, hk, -, p, hp, hres, rfl, -⟩ := ha
  rw [h.consistent.graph.preds] at hk
  have hedge := hf.flow.edge.mpr (mem_of_getElem? hk)
  have hvis := hf.flow.mem_reversePostorder.mpr (hf.flow.succ_lt b q hedge)
  have honto : f.Onto b q p k := by
    refine ⟨?_, hf.flow.predIndex?_eq_some.mpr hk⟩
    rw [← h.consistent.placedPhis_eq hf hvis (h.current_ne q)]
    exact mem_filter.mpr ⟨hp, hres⟩
  obtain ⟨b', u, a, hb', -, ha, hhand, -⟩ := h.fed b q p k hedge honto
  rw [(hf.placed q p (mem_placedPhis honto.1).1).2, hk, Option.some_inj] at hb'
  subst hb'
  rw [arg, getD_eq_getElem?_getD, ha]
  exact h.claimed_of_atHand hhand

end

section

variable (h : Resolved c allowed f moves t) (hf : f.Prepared c.types)

include h hf

/-- What the start of a block claims and still needs was claimed at the end of the block before. -/
theorem claimed_end_of_start (hpath : Path t f q S rest) (hedge : q ∈ (t.func.block b).succs)
    (hneeded : t.func.Needed w q) (hw : (t.draft f).Claimed S w) : (t.draft f).Claimed (t.atEnd b) w := by
  have hform := h.ssaForm hf.ssa
  have hnot := hform.not_mem_of_needed (h.branchesOnBool hf.ssa hf.onBool)
    (hform.flow.reachable q (hform.flow.succ_lt b q hedge)) hneeded
  rw [h.consistent.graph.succs] at hedge
  intro hregs
  obtain ⟨u, hheld⟩ := hw hregs
  rcases hpath.start.source with hlead | ⟨p, hpreds, -, hwithin, -⟩
  · obtain ⟨r, hr⟩ := exists_mem_of_ne_nil _ hheld.1
    obtain ⟨i, hi⟩ := mem_iff_getElem?.mp hr
    obtain ⟨hcopy, hmem⟩ := hlead r _ (hheld.2 i r hi)
    refine absurd ?_ hnot
    rw [hpath.values, show w = u from hcopy]
    exact mem_append_left _ hmem
  · have hp := hf.ssa.flow.edge.mp hedge
    rw [hpreds, mem_singleton] at hp
    exact ⟨u, hp ▸ hheld.mono hwithin⟩

theorem claimed_of_exposes (hpath : Path t f b S rest) (hw : t.func.Exposes b w) : (t.draft f).Claimed S w := by
  have hb : w ∈ t.func.controlUses b → b < f.blocks.size := by
    intro hw
    by_contra hge
    rw [controlUses, block_eq_default _ (h.consistent.graph.size ▸ not_lt.mp hge)] at hw
    cases hw
  rcases hw with ⟨pre, x, post, hvals, hnot, hphi, hw⟩ | ⟨hnot, hw⟩
  · have hx : x ∈ (t.func.block b).values := by rw [hvals]; simp
    rcases append_eq_append_iff.mp (hpath.values.symm.trans hvals) with
      ⟨ws, rfl, hrest⟩ | ⟨ws, hlead, hrest⟩
    · have hsteps := hpath.steps
      rw [hrest] at hsteps
      obtain ⟨M, P, P', hfirst, hP, hstep, -⟩ := hsteps.at_mem
      exact ((h.claimed_of_use hf.ssa hx hstep hw).mono hP).before_steps hfirst
        fun hmem => hnot (mem_append_right _ hmem)
    · cases ws with
      | nil =>
        have hsteps := hpath.steps
        rw [nil_append] at hrest
        rw [← hrest] at hsteps
        obtain ⟨P, P', hP, hstep, -⟩ := hsteps
        exact (h.claimed_of_use hf.ssa hx hstep hw).mono hP
      | cons y ws =>
        -- values that lead a block and are no phis read nothing
        obtain ⟨rfl, -⟩ := List.cons.inj hrest
        have hmem : x ∈ f.leading b := by rw [hlead]; simp
        have hlt := (hf.ssa.placed b x (mem_values_of_mem_leading hmem)).1
        have hop : (f.value x).op ≠ .phi := by
          rw [← (h.consistent.kin x hlt).op]
          exact fun hop => absurd hphi (by rw [isPhi, hop]; decide)
        have hmem' := (t.func.dataArgs_front x).subset (mem_filter.mp hw).1
        rw [h.args_leading hlt (isLeading_of_mem_leading hmem) hop, hf.bare_inputs b x hmem hop] at hmem'
        cases hmem'
  · refine (h.claimed_of_controlUse hf.ssa (hb hw) hw).before_steps hpath.steps fun hmem => hnot ?_
    rw [hpath.values]
    exact mem_append_right _ hmem

theorem claimed_of_needed (hw : t.func.Needed w b) : ∀ {S rest}, Path t f b S rest → (t.draft f).Claimed S w := by
  obtain ⟨d, hwalk, hend⟩ := hw
  induction hwalk using Relation.ReflTransGen.head_induction_on with
  | refl =>
    intro S rest hpath
    rcases hend with hend | ⟨hnot, s, hfeeds⟩
    · exact h.claimed_of_exposes hf hpath hend
    · refine (h.claimed_of_feeds hf.ssa hfeeds).before_steps hpath.steps fun hmem => hnot ?_
      rw [hpath.values]
      exact mem_append_right _ hmem
  | @head x y hstep hwalk ih =>
    intro S rest hpath
    have hlt := (h.ssaForm hf.ssa).flow.succ_lt x y hstep.2
    obtain ⟨S', rest', hpath'⟩ := h.path hf.ssa (h.consistent.graph.size ▸ hlt)
    have hclaimed := h.claimed_end_of_start hf hpath' hstep.2 ⟨d, hwalk, hend⟩ (ih hpath')
    refine hclaimed.before_steps hpath.steps fun hmem' => hstep.1 ?_
    rw [hpath.values]
    exact mem_append_right _ hmem'

theorem claimed_of_liveOut (hb : b < f.blocks.size) (hw : w ∈ (Liveness.compute t.func).liveOut b) :
    (t.draft f).Claimed (t.atEnd b) w := by
  have hform := h.ssaForm hf.ssa
  have hregular := hform.regular (h.branchesOnBool hf.ssa hf.onBool)
  obtain ⟨hstage, hfixed⟩ := Liveness.fixed_compute hregular
  have hreach := hform.flow.reachable b (h.consistent.graph.size ▸ hb)
  rcases (hfixed b hreach false w).mp hw with ⟨s, hfeeds⟩ | ⟨s, hedge, hin⟩
  · exact h.claimed_of_feeds hf.ssa hfeeds
  · have hneeded := hstage.needed s w hin
    obtain ⟨S, rest, hpath⟩ := h.path hf.ssa (h.consistent.graph.size ▸ hform.flow.succ_lt b s hedge)
    exact h.claimed_end_of_start hf hpath hedge hneeded (h.claimed_of_needed hf hneeded hpath)

theorem conflictBefore?_leading
    (hS : t.StartsWith f b S) : ∀ {vs : List ValueId} {needed : ValueSet}, (∀ v ∈ vs, v ∈ f.leading b) →
      (∀ w ∈ needed, (t.draft f).Claimed S w) → t.func.conflictBefore? vs needed = none := by
  intro vs
  induction vs with
  | nil => exact fun _ _ => rfl
  | cons v vs ih =>
    intro needed hvs hneeded
    obtain ⟨hv, hvs⟩ := forall_mem_cons.mp hvs
    have hself : (t.draft f).Claimed S v := fun hregs => ⟨v, hS.held v hv hregs⟩
    have hlt := (hf.ssa.placed b v (mem_values_of_mem_leading hv)).1
    have hlead := isLeading_of_mem_leading hv
    rw [conflictBefore?_cons]
    refine ⟨fun w hw hne => ⟨fun r hr hr' => hne ((hneeded w hw).unique hself hr' hr), fun hcall => ?_⟩,
      ih hvs fun w hw => ?_⟩
    · rw [(h.consistent.kin v hlt).op] at hcall
      rw [hcall] at hlead
      cases hlead
    · rcases mem_needed_before.mp hw with ⟨hphi, hw⟩ | ⟨hw, -⟩
      · have hop : (f.value v).op ≠ .phi := by
          rw [← (h.consistent.kin v hlt).op]
          exact fun hop => absurd hphi (by rw [isPhi, hop]; decide)
        have hmem := (t.func.dataArgs_front v).subset (mem_filter.mp hw).1
        rw [h.args_leading hlt hlead hop, hf.bare_inputs b v hv hop] at hmem
        cases hmem
      · exact hneeded w hw

theorem checkAllocation : t.func.checkAllocation = .ok () := by
  have hnone : t.func.reversePostorder.findSome? (t.func.conflictIn? (Liveness.compute t.func)) = none := by
    rw [findSome?_eq_none_iff]
    intro b hb
    have hlt : b < f.blocks.size := by
      rw [← h.consistent.graph.size]
      exact (hf.ssa.flow.congr h.consistent.graph).mem_reversePostorder.mp hb
    obtain ⟨S, rest, hpath⟩ := h.path hf.ssa hlt
    have hend : ∀ w ∈ ((Liveness.compute t.func).liveOut b).insertAll (t.func.controlUses b),
        (t.draft f).Claimed (t.atEnd b) w := by
      intro w hw
      rcases ValueSet.mem_insertAll.mp hw with hw | hw
      · exact h.claimed_of_controlUse hf.ssa hlt hw
      · exact h.claimed_of_liveOut hf hlt hw
    have hnodup := h.consistent.tidy.nodup
    rw [conflictIn?, conflictAmong?_eq_none (ValueSet.toList_nodup _) hnodup
      fun v hv w hw r hr hr' => (hend v (ValueSet.mem_toList.mp hv)).unique
        (hend w (ValueSet.mem_toList.mp hw)) hr hr']
    rw [hpath.values, reverse_append]
    refine hpath.steps.conflictBefore? hnodup (fun v hv hstep a ha => ?_) (fun needed hneeded => ?_) hend
    · refine h.claimed_of_use hf.ssa ?_ hstep ha
      rw [hpath.values]
      exact mem_append_right _ hv
    · exact h.conflictBefore?_leading hf hpath.start (fun v hv => mem_reverse.mp hv) hneeded
  rw [Func.checkAllocation, hnone]
  rfl

end

end Setting.Resolved

end SsaCodegen
