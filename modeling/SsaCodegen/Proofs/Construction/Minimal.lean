import SsaCodegen.Proofs.Construction.Unassigned

/-! The finished function has no phi too many. A set of phis that reads one value from outside would have a part
in one component that does so too, and that part would have been found. -/

namespace SsaCodegen

open List

namespace Construction

variable {t : Task} {s s₁ s₂ : Construction} {group C : List ValueId} {v p : ValueId}
  {R : ValueId → Prop}

/-- A set of phis that stand for themselves and read each other and one value besides. -/
structure OneSource (s : Construction) (R : ValueId → Prop) (v : ValueId) : Prop where
  self : ∀ p, R p → s.forward.lookup p = none
  reads : ∀ p, R p → ∀ a ∈ s.func.args p, R (s.resolve a) ∨ s.resolve a = v

def Connected (s : Construction) (C : List ValueId) : Prop :=
  ∀ X : ValueId → Prop, (∃ p ∈ C, X p) →
    (∀ p ∈ C, X p → ∀ a ∈ s.func.args p, s.resolve a ∈ C → X (s.resolve a)) → ∀ q ∈ C, X q

theorem Regroups.resolve_other (h : Regroups t group s s1) (hs : Complete t s) {a : ValueId}
    (ha : s.resolve a ∉ group) : s1.resolve a = s.resolve a := by
  have hlook := (h.others _ ha).trans (hs.sound.lookup_resolve a)
  rw [← h.asks.resolve, h.complete.sound.resolve_self hlook]

theorem mem_inner : p ∈ s.inner C ↔ p ∈ C ∧ ∀ a ∈ s.func.args p, s.resolve a ∈ C := by
  rw [inner, mem_filter, List.isEmpty_iff, eq_nil_iff_forall_not_mem]
  refine and_congr_right fun _ => ⟨fun h a ha => ?_, fun h w hw => ?_⟩
  · by_contra hout
    exact h _ (mem_operandsOutside.mpr ⟨⟨a, ha, rfl⟩, hout⟩)
  · obtain ⟨⟨a, ha, rfl⟩, hout⟩ := mem_operandsOutside.mp hw
    exact hout (h a ha)

/-- If a redundant set has a member that reads from outside its component, that component reads
nothing else from outside. -/
theorem soleOutside_of_oneSource (h1 : Complete t s1) (hC : s1.Unreplaced C) (hconn : s1.Connected C)
    (hregroups : Regroups t (s1.inner C) s1 s2) (hR : ∀ p, R p → p ∈ C) (hone : s2.OneSource R v) (hp : R p)
    (hout : p ∉ s1.inner C) : s1.soleOutside? C = some v := by
  have hself : ∀ q ∈ C, s1.resolve q = q := fun q hq => h1.sound.resolve_self (hC.phi q hq).1
  have hstays : ∀ q, s1.resolve q ∈ C → s2.resolve q ∈ C := fun q hq =>
    hregroups.stays (· ∈ C) (fun p hp => (mem_inner.mp hp).2) q hq
  have hfar : ∀ a, s1.resolve a ∉ C → s2.resolve a = s1.resolve a := fun a ha =>
    hregroups.resolve_other h1 fun hmem => ha (mem_inner.mp hmem).1
  -- what a member of the set reads from outside
  have hsource : ∀ q, R q → ∀ a ∈ s1.func.args q, s1.resolve a ∉ C → s1.resolve a = v := by
    intro q hq a ha hnot
    have hread := hone.reads q hq a (by rw [hregroups.func]; exact ha)
    rw [hfar a hnot] at hread
    exact hread.resolve_left fun hmem => hnot (hR _ hmem)
  obtain ⟨a, ha, hnot⟩ : ∃ a ∈ s1.func.args p, s1.resolve a ∉ C := by
    by_contra hall
    push Not at hall
    exact hout (mem_inner.mpr ⟨hR p hp, hall⟩)
  have hv : v ∉ C := by
    rw [← hsource p hp a ha hnot]
    exact hnot
  -- all members of the component stand for members of the set
  have hall : ∀ q ∈ C, R (s2.resolve q) := by
    refine hconn (fun q => R (s2.resolve q)) ⟨p, hR p hp, ?_⟩ fun q hq hRq b hb hbC => ?_
    · rw [hregroups.complete.sound.resolve_self (hone.self p hp)]
      exact hp
    · rw [hregroups.asks.resolve]
      by_cases hrep : s2.isReplaced q = true
      · obtain ⟨-, -, -, -, hargs⟩ := hregroups.complete.sound.replaced_known q hrep
        rw [hargs b (by rw [hregroups.func]; exact hb)]
        exact hRq
      · have hq2 := hregroups.complete.sound.resolve_self (Option.not_isSome_iff_eq_none.mp hrep)
        rw [hq2] at hRq
        refine (hone.reads q hRq b (by rw [hregroups.func]; exact hb)).resolve_right fun heq => ?_
        exact hv (heq ▸ hstays b hbC)
  refine soleOutside?_eq_some.mpr ⟨⟨p, hR p hp, ?_⟩, fun q hq w hw => ?_⟩
  · rw [← hsource p hp a ha hnot]
    exact mem_operandsOutside.mpr ⟨⟨a, ha, rfl⟩, hnot⟩
  · obtain ⟨⟨b, hb, rfl⟩, hbC⟩ := mem_operandsOutside.mp hw
    have hq2 : s2.resolve q = q := by
      refine (hregroups.resolve_other h1 ?_).trans (hself q hq)
      rw [hself q hq]
      exact fun hmem => hbC ((mem_inner.mp hmem).2 b hb)
    have hRq := hall q hq
    rw [hq2] at hRq
    exact hsource q hRq b hb hbC

/-- No redundant set is left in a component that has been treated. -/
theorem collapseOne_irredundant {fuel : Nat} (h1 : Complete t s1) (hC : s1.Unreplaced C)
    (hconn : s1.Connected C) (ih : ∀ group : List ValueId, s1.Unreplaced group → group.length < fuel →
      ∀ R v, (∀ p, R p → p ∈ group) → (collapseWithin fuel group s1).OneSource R v → ∀ p, ¬R p)
    (hlen : C.length ≤ fuel) (hR : ∀ p, R p → p ∈ C)
    (hone : (collapseOne fuel s1 C).OneSource R v) : ∀ p, ¬R p := by
  intro p hp
  rw [collapseOne] at hone
  split at hone
  · have hlook := hone.self p hp
    rw [replaceAll, lookup_map_append, if_pos (hR p hp)] at hlook
    cases hlook
  · next hsole =>
    -- some member reads from outside
    obtain ⟨o, hoC, ho⟩ : ∃ o ∈ C, o ∉ s1.inner C := by
      by_contra hall
      push Not at hall
      exact h1.grounded (· ∈ C) (fun q hq => (hC.phi q hq).2) (fun q hq => (mem_inner.mp (hall q hq)).2) p (hR p hp)
    have hless : (s1.inner C).length < C.length := by
      refine (length_filter_le _ _).lt_of_ne fun heq => ?_
      have hfilter := length_filter_eq_length_iff.mp heq
      exact ho (mem_filter.mpr ⟨hoC, hfilter o hoC⟩)
    have hregroups : Regroups t (s1.inner C) s1
        (if C.length > 1 && !(s1.inner C).isEmpty then collapseWithin fuel (s1.inner C) s1 else s1) := by
      split
      · exact collapseWithin_regroups fuel _ s1 h1 hC.inner
      · exact Regroups.refl h1 _
    by_cases hin : ∀ q, R q → q ∈ s1.inner C
    · have hpos := length_pos_of_mem (hin p hp)
      have hcond : (C.length > 1 && !(s1.inner C).isEmpty) := by
        rw [Bool.and_eq_true, decide_eq_true_eq, Bool.not_eq_true', ← Bool.not_eq_true, isEmpty_iff_length_eq_zero]
        omega
      rw [if_pos hcond] at hone
      exact ih _ hC.inner (hless.trans_le hlen) R v hin hone p hp
    · push Not at hin
      obtain ⟨q, hq, hout⟩ := hin
      have := soleOutside_of_oneSource h1 hC hconn hregroups hR hone hq hout
      rw [hsole] at this
      cases this

theorem exists_first_component {cs : List (List ValueId)} (h : ∃ m ∈ cs, ∃ p ∈ m, R p) :
    ∃ done C rest, cs = done ++ C :: rest ∧ (∃ p ∈ C, R p) ∧ ∀ m ∈ done, ∀ p ∈ m, ¬R p := by
  induction cs with
  | nil =>
    obtain ⟨m, hm, -⟩ := h
    cases hm
  | cons C cs ih =>
    by_cases hC : ∃ p ∈ C, R p
    · exact ⟨[], C, cs, rfl, hC, forall_mem_nil _⟩
    · obtain ⟨m, hm, hp⟩ := h
      rcases mem_cons.mp hm with rfl | hm
      · exact absurd hp hC
      · obtain ⟨done, C', rest, rfl, hC', hdone⟩ := ih ⟨m, hm, hp⟩
        refine ⟨C :: done, C', rest, rfl, hC', fun m' hm' p hpm hRp => ?_⟩
        rcases mem_cons.mp hm' with rfl | hm'
        · exact hC ⟨p, hpm, hRp⟩
        · exact hdone m' hm' p hpm hRp

theorem Component.connected_after (hC : s.Component group C) (hask : Asks s s1)
    (hfunc : s1.func = s.func) (hself : ∀ q ∈ C, s1.resolve q = q) : s1.Connected C := by
  rintro X ⟨p, hp, hXp⟩ hclosed q hq
  have hpath := hC.connected p hp q hq
  induction hpath with
  | refl => exact hXp
  | tail hpr hrq ih =>
    have hr := hC.maximal p hp _ hpr (.head hrq (hC.connected _ hq p hp))
    obtain ⟨⟨a, ha, rfl⟩, -⟩ := mem_operandsIn.mp hrq
    have ha1 : s1.resolve a = s.resolve a := by rw [← hask.resolve, hself _ hq]
    have hX := hclosed _ hr (ih hr) a (by rw [hfunc]; exact ha) (by rw [ha1]; exact hq)
    rw [ha1] at hX
    exact hX

/-- No redundant set is left in a group. -/
theorem collapseWithin_irredundant : ∀ (fuel : Nat) (group : List ValueId) (s : Construction),
    Complete t s → s.Unreplaced group → group.length < fuel → ∀ R v, (∀ p, R p → p ∈ group) →
      (collapseWithin fuel group s).OneSource R v → ∀ p, ¬R p := by
  intro fuel
  induction fuel with
  | zero => exact fun _ _ _ _ hlen => absurd hlen (Nat.not_lt_zero _)
  | succ fuel ih =>
    intro group s h hg hlen R v hR hone p0 hp0
    obtain ⟨m0, hm0, hpm0⟩ := exists_component (hR p0 hp0)
    obtain ⟨done, C, rest, hsplit, ⟨p, hpC, hp⟩, hdone⟩ := exists_first_component ⟨m0, hm0, p0, hpm0, hp0⟩
    have hord := s.components_ordered group
    rw [collapseWithin_succ, hsplit, foldl_append] at hone
    rw [hsplit] at hord
    obtain ⟨-, hordC, hordD⟩ := pairwise_append.mp hord
    have hordC := (pairwise_cons.mp hordC).1
    have hcomp : s.Component group C := component_of_mem (by rw [hsplit]; simp)
    -- the states before and after this component, and at the end
    have h1 := foldl_collapseOne (collapseWithin_regroups fuel) h hg
      (Regroups.refl h [].flatten) done (C :: rest) hsplit
    have h2 := foldl_collapseOne (collapseWithin_regroups fuel) h hg h1 [C] rest (by rw [hsplit]; simp)
    have h12 := foldl_collapseOne (collapseWithin_regroups fuel) h hg
      (Regroups.refl h [].flatten) (done ++ [C]) rest (by rw [hsplit]; simp)
    rw [foldl_append] at h12
    have h3 := foldl_collapseOne (collapseWithin_regroups fuel) h hg h12 rest [] (by rw [hsplit]; simp)
    rw [foldl_cons, foldl_nil] at h2 h12 h3
    generalize done.foldl (collapseOne fuel) s = s1 at *
    have hdisj : ∀ q ∈ C, q ∉ done.flatten ∧ q ∉ rest.flatten := by
      refine fun q hq => ⟨fun hmem => ?_, fun hmem => ?_⟩
      · obtain ⟨m, hm, hqm⟩ := mem_flatten.mp hmem
        exact hordD m hm C mem_cons_self q hqm q hq .refl
      · obtain ⟨m, hm, hqm⟩ := mem_flatten.mp hmem
        exact hordC m hm q hq q hqm .refl
    -- neither this component nor an earlier one reads a later one
    have hreads : ∀ q ∈ (done ++ [C]).flatten, ∀ a ∈ s.func.args q, s.resolve a ∉ rest.flatten := by
      intro q hq a ha hmem
      obtain ⟨m, hm, hqm⟩ := mem_flatten.mp hq
      obtain ⟨m', hm', ham'⟩ := mem_flatten.mp hmem
      have hgroup := (component_of_mem (by rw [hsplit]; simp [hm'])).sub _ ham'
      have hread : s.ReadsIn group q (s.resolve a) := .single (mem_operandsIn.mpr ⟨⟨a, ha, rfl⟩, hgroup⟩)
      rcases mem_append.mp hm with hm | hm
      · exact hordD m hm m' (mem_cons_of_mem C hm') q hqm _ ham' hread
      · rw [mem_singleton.mp hm] at hqm
        exact hordC m' hm' q hqm _ ham' hread
    have hnear : ∀ q ∈ C, ∀ a ∈ s.func.args q, (collapseOne fuel s1 C).resolve a ∉ rest.flatten := by
      intro q hq a ha
      have hqC : q ∈ (done ++ [C]).flatten := mem_flatten.mpr ⟨C, by simp, hq⟩
      exact h12.stays (· ∉ rest.flatten) hreads a (hreads q hqC a ha)
    have hC1 := h1.unreplaced ⟨hcomp.nodup, fun q hq => hg.phi q (hcomp.sub q hq)⟩ fun q hq => (hdisj q hq).1
    have hself : ∀ q ∈ C, s1.resolve q = q := fun q hq => h1.complete.sound.resolve_self (hC1.phi q hq).1
    have hlenC := (hcomp.nodup.length_le_of_subset hcomp.sub).trans (Nat.le_of_lt_succ hlen)
    refine collapseOne_irredundant (R := fun q => R q ∧ q ∈ C) (v := v) h1.complete hC1
      (hcomp.connected_after h1.asks h1.func hself) (fun group' => ih group' s1 h1.complete) hlenC
      (fun q hq => hq.2) ⟨fun q hq => ?_, fun q hq a ha => ?_⟩ p ⟨hp, hpC⟩
    · rw [← h3.others q (hdisj q hq.2).2]
      exact hone.self q hq.1
    · have ha3 := ha
      rw [← h3.func] at ha3
      rw [h12.func] at ha
      have hsame := h3.resolve_other h12.complete (hnear q hq.2 a ha)
      rw [← hsame]
      refine (hone.reads q hq.1 a ha3).imp (fun hRa => ⟨hRa, ?_⟩) id
      obtain ⟨m, hm, ham⟩ := exists_component (hR _ hRa)
      rw [hsplit, mem_append, mem_cons] at hm
      rcases hm with hm | rfl | hm
      · exact absurd hRa (hdone m hm _ ham)
      · exact ham
      · refine absurd (mem_flatten.mpr ⟨m, hm, ham⟩) ?_
        rw [hsame]
        exact hnear q hq.2 a ha

theorem Complete.irredundant (h : Complete t s) (hphi : ∀ p, R p → ∃ x b, s.IsPhi p x b)
    (hone : s.collapse.OneSource R v) : ∀ p, ¬R p := by
  refine collapseWithin_irredundant _ _ s h h.unreplaced_openPhis (Nat.lt_succ_self _) R v (fun p hp => ?_) hone
  by_contra hnot
  refine hnot (h.mem_openPhis.mpr ⟨?_, hphi p hp⟩)
  rw [← h.collapse.others p hnot]
  exact hone.self p hp

end Construction

variable {f : Func}

def Func.HasPhi (f : Func) (b : BlockId) (p : ValueId) : Prop :=
  p ∈ (f.block b).values ∧ (f.value p).op = .phi

/-- What a value or the end of a block depends on, directly or through phis. -/
inductive Func.Sought (f : Func) : ValueId → Prop
  | control {b : BlockId} {p : ValueId} (ends : (f.block b).control = some p) : Sought f p
  | operand {b : BlockId} {r p : ValueId}
      (reader : (f.block b).control = some r ∨ r ∈ (f.block b).values ∧ (f.value r).op ≠ .phi)
      (reads : p ∈ f.args r) : Sought f p
  | through {b : BlockId} {q p : ValueId} (sought : Sought f q) (phi : f.HasPhi b q)
      (reads : p ∈ f.args q) : Sought f p

/-- No phi of a function, made for variables as listed, could be left out. -/
structure Func.Minimal (f : Func) (vars : List (ValueId × Var)) : Prop where
  sought : ∀ b p, f.HasPhi b p → f.Sought p
  single : ∀ b p, f.HasPhi b p → ∃ x, vars.lookup p = some x ∧ ∀ q, f.HasPhi b q → vars.lookup q = some x → q = p
  irredundant : ∀ (R : ValueId → Prop) (v : ValueId), (∀ p, R p → ∃ b, f.HasPhi b p) →
    (∀ p, R p → ∀ a ∈ f.args p, R a ∨ a = v) → ∀ p, ¬R p

theorem Func.hasPhi_recountUses {b : BlockId} {p : ValueId} : f.recountUses.HasPhi b p ↔ f.HasPhi b p := by
  rw [HasPhi, HasPhi, block_recountUses, value_recountUses_congr f Value.op fun _ _ => rfl]

theorem Func.Sought.recountUses {p : ValueId} (h : f.Sought p) : f.recountUses.Sought p := by
  induction h with
  | @control b p hc => exact .control (by rwa [block_recountUses])
  | @operand b r p hr hp =>
    refine .operand (b := b) ?_ (by rwa [args_recountUses])
    rwa [block_recountUses, value_recountUses_congr f Value.op fun _ _ => rfl]
  | @through b q p _ hphi hp ih => exact .through ih (hasPhi_recountUses.mpr hphi) (by rwa [args_recountUses])

namespace Construction

variable {t : Task} {s : Construction} {b : BlockId} {p : ValueId}

section

variable (h : Complete t s)

include h

theorem Complete.phi_kept (hp : s.pruned.HasPhi b p) :
    (∃ x, s.IsPhi p x b) ∧ s.forward.lookup p = none ∧ s.Needed p := by
  obtain ⟨ps, lead, back, hl⟩ := h.layout b
  exact (hl.phi p).mp (h.mem_layout_phis hl hp.1 hp.2)

/-- Phis that are needed are placed, so each is read by one that is placed or by another value. -/
theorem Complete.sought (hp : s.Needed p) : ∃ b, s.pruned.HasPhi b p ∧ s.pruned.Sought p := by
  obtain ⟨r, hr, hleads⟩ := h.needed_iff.mp hp
  induction hleads with
  | refl =>
    obtain ⟨hop, b, -, hc | ⟨v, hv, hreader⟩⟩ := mem_phiRoots.mp hr
    · exact ⟨_, ⟨h.control_placed hc hop, hop⟩, .control hc⟩
    · have hreader : (s.pruned.block b).control = some v ∨
          v ∈ (s.pruned.block b).values ∧ (s.pruned.value v).op ≠ .phi := by
        refine hreader.imp id fun hv => ⟨?_, hv.2⟩
        obtain ⟨hmem, hother⟩ := hv
        rw [block_pruned]
        exact mem_filter.mpr ⟨hmem, by rw [bne_iff_ne.mpr hother, Bool.true_or]⟩
      exact ⟨_, ⟨h.operand_placed hv hop (hreader.imp id And.left), hop⟩, .operand hreader hv⟩
  | tail hrq hqp ih =>
    obtain ⟨b, hq, hsought⟩ := ih (h.needed_iff.mpr ⟨r, hr, hrq⟩)
    obtain ⟨hargs, hop⟩ := mem_filter.mp hqp
    rw [beq_iff_eq] at hop
    exact ⟨_, ⟨h.operand_placed hargs hop (.inr hq.1), hop⟩, .through hsought hq hargs⟩

theorem Complete.minimal (hsingle : s.Single) : s.finish.func.Minimal s.phiVars where
  sought b p hp := by
    rw [finish_func, Func.hasPhi_recountUses] at hp
    obtain ⟨-, -, hneeded⟩ := h.collapse.complete.phi_kept hp
    obtain ⟨-, -, hsought⟩ := h.collapse.complete.sought hneeded
    exact hsought.recountUses
  single b p hp := by
    rw [finish_func, Func.hasPhi_recountUses] at hp
    obtain ⟨⟨x, hx⟩, -⟩ := h.collapse.complete.phi_kept hp
    have hpx := h.collapse.isPhi hx
    have hmem : ∀ q, s.phiVars.lookup q = some x → (q, x) ∈ s.phiVars := by
      intro q hq
      obtain ⟨before, after, hvars, -⟩ := lookup_eq_some_iff.mp hq
      simp [hvars]
    refine ⟨x, hpx.var, fun q hq hvar => ?_⟩
    rw [finish_func, Func.hasPhi_recountUses] at hq
    obtain ⟨⟨y, hy⟩, -⟩ := h.collapse.complete.phi_kept hq
    refine (hsingle p x (hmem p hpx.var)).2.2 q (hmem q hvar) ?_
    rw [hpx.block, (h.collapse.isPhi hy).block]
  irredundant R v hR hreads := by
    have hphi : ∀ p, R p → ∃ b, s.collapse.pruned.HasPhi b p := fun p hp => by
      obtain ⟨b, hb⟩ := hR p hp
      exact ⟨b, Func.hasPhi_recountUses.mp hb⟩
    refine h.irredundant (v := v) (fun p hp => ?_) ⟨fun p hp => ?_, fun p hp a ha => ?_⟩
    · obtain ⟨b, hb⟩ := hphi p hp
      obtain ⟨⟨x, hx⟩, -⟩ := h.collapse.complete.phi_kept hb
      exact ⟨x, b, h.collapse.isPhi hx⟩
    · obtain ⟨b, hb⟩ := hphi p hp
      exact (h.collapse.complete.phi_kept hb).2.1
    · refine hreads p hp _ ?_
      rw [finish_func, Func.args_recountUses, args_pruned]
      exact mem_map_of_mem ha

end

end Construction

variable {ir : Ir.Func} {types : TypeTable} {built : Built}

/-- Construction leaves no phi that is not needed, no two phis of a block for one variable and no set of phis,
in loops of any shape, that could be replaced by one value. -/
theorem buildSsa_is_minimal (hbuilt : buildSsa ir types = .ok built) :
    ∃ s, lowered ir types = .ok s ∧ built = s.finish ∧ built.func.Minimal s.phiVars := by
  obtain ⟨hvalid, s, hs, rfl⟩ := lowered_of_buildSsa hbuilt
  exact ⟨s, hs, rfl, (Construction.complete_of_lowered hvalid hs).minimal (charted_of_lowered hvalid hs).single⟩

theorem countdown_is_minimal : ∃ built s, buildSsa countdown .builtins = .ok built ∧
    lowered countdown .builtins = .ok s ∧ built = s.finish ∧ built.func.Minimal s.phiVars := by
  obtain ⟨built, hbuilt⟩ := exists_buildSsa_countdown
  obtain ⟨s, hs, heq, hminimal⟩ := buildSsa_is_minimal hbuilt
  exact ⟨built, s, hbuilt, hs, heq, hminimal⟩

end SsaCodegen
