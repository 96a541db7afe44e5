import SsaCodegen.Proofs.Construction.Steps

/-! Replacing phis. A set of phis that have one value from outside in common can give way to it without a
change of what the variables are. -/

namespace SsaCodegen.Construction

open List Option

variable {ir : Ir.Func} {W F : List ValueId} {s : Construction} {w p a : ValueId} {x : Var}
  {b : BlockId}

def merge (s : Construction) (members : List ValueId) (v : ValueId)
    (users : List (ValueId × ValueId)) (removed : Nat) : Construction :=
  { s with
    forward := members.map (·, v) ++ s.forward, phiUsers := users, phisRemoved := removed }

/-- A set of phis whose operands are known and that read nothing but each other and `v`. -/
structure Redundant (s : Construction) (members : List ValueId) (v : ValueId) : Prop where
  nodup : members.Nodup
  phi : ∀ p ∈ members, s.forward.lookup p = none ∧ ∃ x b, s.IsPhi p x b ∧ s.Known p x b
  outside : v ∉ members
  lt : v < s.func.values.size
  self : s.forward.lookup v = none
  type : ∀ p ∈ members, (s.func.value p).ty ≠ TypeId.mem → (s.func.value v).ty = (s.func.value p).ty
  reads : ∀ p ∈ members, ∀ a ∈ s.func.args p, s.resolve a ∈ members ∨ s.resolve a = v

section Merge

variable {members : List ValueId} {v : ValueId} {users : List (ValueId × ValueId)} {removed : Nat}

theorem lookup_merge_other (hw : w ∉ members) :
    (s.merge members v users removed).forward.lookup w = s.forward.lookup w := by
  rw [merge, lookup_map_append, if_neg hw]

variable (hs : s.Sound ir W F) (hr : s.Redundant members v)

include hs hr

theorem settled_merge : Settled (s.merge members v users removed).forward :=
  hs.settled.map_append hr.nodup (fun p hp => (hr.phi p hp).1) hr.self hr.outside

theorem resolve_merge (w : ValueId) : (s.merge members v users removed).resolve w =
    if s.resolve w ∈ members then v else s.resolve w := by
  rw [resolve_eq_standsFor (settled_merge hs hr), resolve_eq_standsFor hs.settled]
  exact standsFor_map_append hr.outside w

theorem resolve_merge_congr {u : ValueId} (h : s.resolve w = s.resolve u) :
    (s.merge members v users removed).resolve w = (s.merge members v users removed).resolve u := by
  rw [resolve_merge hs hr, resolve_merge hs hr, h]

theorem asks_merge : Asks s (s.merge members v users removed) := by
  have hends : ∀ x b w, s.EndsWith x b w → (s.merge members v users removed).EndsWith x b w := by
    rintro x b w ⟨u, hu, huw⟩
    exact ⟨u, hu, resolve_merge_congr hs hr huw⟩
  exact .of_func (.of_func hs rfl rfl rfl (fun _ _ => resolve_merge_congr hs hr)
    fun x b w _ => hends x b w) rfl hends ⟨rfl, rfl, rfl, rfl, rfl⟩

theorem resolve_args_merge (hp : p ∈ members) (ha : a ∈ s.func.args p) :
    (s.merge members v users removed).resolve a = (s.merge members v users removed).resolve p := by
  rw [resolve_merge hs hr, resolve_merge hs hr, hs.resolve_self (hr.phi p hp).1]
  split
  · rfl
  · next h => exact (hr.reads p hp a ha).resolve_left h

theorem sound_merge (hfree : ∀ p ∈ members, p ∉ W ∧ p ∉ F ∧ p ∉ s.incomplete.map (·.2.2))
    (husers : ∀ w q, (w, q) ∈ users → w < s.func.values.size ∧ ∃ w', (w', q) ∈ s.phiUsers) :
    (s.merge members v users removed).Sound ir W F := by
  have hstep : Step ir W F [] s (s.merge members v users removed) :=
    { toExtends := (asks_merge hs hr).toExtends
      shape := hs.shape
      settled := settled_merge hs hr
      replaces := fun p w h => by
        rw [merge, lookup_map_append] at h
        split at h
        · next hp =>
          obtain rfl := some.inj h
          exact .inr ⟨(hr.phi p hp).2, hr.lt, hr.type p hp, fun a ha => resolve_args_merge hs hr hp ha⟩
        · exact .inl h
      replaced_args := fun _ _ _ => rfl
      defines := fun _ _ _ h => .inl h
      sites := fun _ _ h => h
      assigned := hs.assigned
      makes := fun _ hle hlt => absurd hlt (not_lt.mpr hle)
      waits := forall_mem_nil _
      free := fun q hq h => by
        rw [isReplaced, lookup_merge_other]
        · exact h
        · intro hm
          obtain ⟨hW, hF, hI⟩ := hfree q hm
          exact hq.elim hW fun hq => hq.elim hF hI
      users := fun w q h => ⟨(husers w q h).1, .inl (husers w q h).2⟩ }
  exact hs.step hstep

end Merge

/-- A phi that may be looked at: it has all its operands, and no question that began before it is
still being answered. -/
structure Ready (s : Construction) (m : Nat) (W : List ValueId) (p : ValueId) : Prop where
  above : m ≤ p
  known : ∃ x b, s.IsPhi p x b ∧ s.Known p x b
  waits : p ∉ W ∧ p ∉ s.incomplete.map (·.2.2)

theorem soleOperand?_eq_some {v : ValueId} (h : s.soleOperand? p = some v) :
    v ≠ p ∧ (∃ a ∈ s.func.args p, s.resolve a = v) ∧ ∀ a ∈ s.func.args p, s.resolve a = p ∨ s.resolve a = v := by
  have hmem : ∀ w, w ∈ ((s.func.args p).map s.resolve).filter (· != p) ↔
      (∃ a ∈ s.func.args p, s.resolve a = w) ∧ w ≠ p := by
    intro w
    rw [mem_filter, List.mem_map, bne_iff_ne]
  rw [soleOperand?] at h
  split at h
  · exact absurd h (by simp)
  · next w rest hfilter =>
    split at h
    · next hall =>
      obtain rfl := some.inj h
      rw [hfilter] at hmem
      obtain ⟨hread, hne⟩ := (hmem w).mp mem_cons_self
      refine ⟨hne, hread, fun a ha => ?_⟩
      by_cases hap : s.resolve a = p
      · exact .inl hap
      · rcases mem_cons.mp ((hmem _).mpr ⟨⟨a, ha, rfl⟩, hap⟩) with h' | h'
        · exact .inr h'
        · exact .inr (beq_iff_eq.mp (all_eq_true.mp hall _ h'))
    · exact absurd h (by simp)

section

variable (hs : s.Sound ir W F)

include hs

theorem Sound.type_resolve {v : ValueId} (hv : v < s.func.values.size) :
    s.resolve v < s.func.values.size ∧ ((s.func.value v).ty ≠ TypeId.mem →
      (s.func.value (s.resolve v)).ty = (s.func.value v).ty) := by
  let P (w : ValueId) : Prop := w < s.func.values.size ∧
    ((s.func.value v).ty ≠ TypeId.mem → (s.func.value w).ty = (s.func.value v).ty)
  have hP : P (standsFor s.forward v) := by
    refine standsFor_keeps hs.settled (fun p w hpw hp => ?_) ⟨hv, fun _ => rfl⟩
    obtain ⟨-, hw, hty⟩ := hs.replaced p w hpw
    refine ⟨hw, fun hne => ?_⟩
    have hpv := hp.2 hne
    exact (hty (hpv ▸ hne)).trans hpv
  rwa [resolve_eq_standsFor hs.settled]

theorem Fits.resolve {v : ValueId} (h : s.Fits ir x v) : s.Fits ir x (s.resolve v) := by
  obtain ⟨hlt, hty⟩ := hs.type_resolve h.1
  refine ⟨hlt, fun hne => ?_⟩
  have hv := h.2 hne
  exact (hty (hv ▸ hne)).trans hv

theorem EndsWith.fits {v : ValueId} (h : s.EndsWith x b v) : s.Fits ir x (s.resolve v) := by
  obtain ⟨w, hw, hwv⟩ := h
  rw [← hwv]
  exact (hs.defs x b w hw).resolve hs

theorem IsPhi.fits (hp : s.IsPhi p x b) : (s.func.value p).ty = x.type ir := by
  obtain ⟨y, hy, hyt⟩ := hs.phi_var p hp.lt hp.op
  obtain rfl : y = x := some.inj (hy.symm.trans hp.var)
  exact hyt

theorem Known.operand (hp : s.IsPhi p x b) (hk : s.Known p x b) (ha : a ∈ s.func.args p) :
    ∃ q ∈ (s.func.block b).preds, s.EndsWith x q a := by
  obtain ⟨k, hlt, hka⟩ := getElem_of_mem ha
  obtain ⟨-, -, hlen, -⟩ := hs.shape.phi p hp.lt hp.op
  rw [hp.block] at hlen
  obtain ⟨q, hq⟩ : ∃ q, (s.func.block b).preds[k]? = some q := ⟨_, getElem?_eq_getElem (hlen ▸ hlt)⟩
  obtain ⟨-, a', ha', he⟩ := hk k q hq
  obtain rfl : a' = a := by
    rw [getElem?_eq_getElem hlt, hka] at ha'
    exact (some.inj ha').symm
  exact ⟨q, mem_of_getElem? hq, he⟩

theorem redundant_of_soleOperand {v : ValueId} (hp : s.IsPhi p x b) (hk : s.Known p x b)
    (hself : s.isReplaced p = false) (hv : s.soleOperand? p = some v) : s.Redundant [p] v := by
  obtain ⟨hne, ⟨a, ha, rfl⟩, hall⟩ := soleOperand?_eq_some hv
  obtain ⟨q, -, he⟩ := Known.operand hs hp hk ha
  obtain ⟨hlt, hty⟩ := he.fits hs
  have hlook := not_isSome_iff_eq_none.mp (by
    rw [isReplaced] at hself
    rw [hself]
    exact Bool.false_ne_true)
  refine ⟨pairwise_singleton _ _, ?_, ?_, hlt, hs.lookup_resolve a, ?_, ?_⟩
  · intro q' hq'
    rw [mem_singleton.mp hq']
    exact ⟨hlook, x, b, hp, hk⟩
  · rw [mem_singleton]
    exact hne
  · intro q' hq'
    rw [mem_singleton.mp hq', IsPhi.fits hs hp]
    exact hty
  · intro q' hq' a' ha'
    rw [mem_singleton.mp hq'] at ha'
    rw [mem_singleton]
    exact hall a' ha'

end

theorem replacePhi_eq (p v : ValueId) : ∃ work users removed,
    s.replacePhi p v = (work, s.merge [p] v users removed) ∧ (∀ q ∈ work, (p, q) ∈ s.phiUsers) ∧
      ∀ w q, (w, q) ∈ users → (w, q) ∈ s.phiUsers ∨ w = v ∧ (p, q) ∈ s.phiUsers := by
  let t : Construction := { s with forward := (p, v) :: s.forward }
  let work := ((s.phiUsers.filter (·.1 == p)).map (·.2)).filter (!t.isReplaced ·)
  have hwork : ∀ q ∈ work, (p, q) ∈ s.phiUsers := by
    intro q hq
    obtain ⟨⟨e, r⟩, he, rfl⟩ := mem_map.mp (mem_filter.mp hq).1
    obtain ⟨hmem, hep⟩ := mem_filter.mp he
    obtain rfl : e = p := beq_iff_eq.mp hep
    exact hmem
  refine ⟨work, s.phiUsers.filter (not ∘ (·.1 == p)) ++ work.map (v, ·), s.phisRemoved + 1, ?_, hwork, ?_⟩
  · simp only [replacePhi, partition_eq_filter_filter]
    rfl
  · intro w q h
    rcases mem_append.mp h with h | h
    · exact .inl (mem_filter.mp h).1
    · obtain ⟨r, hr, hrw⟩ := mem_map.mp h
      obtain ⟨rfl, rfl⟩ := Prod.mk.inj hrw
      exact .inr ⟨rfl, hwork r hr⟩

/-- Looking at phis keeps what holds, and touches no phi below `m` if the phis above are not used
below. -/
theorem simplifyWithin_spec (m : Nat) (hF : ∀ q ∈ F, q < m) :
    ∀ (fuel : Nat) (work : List ValueId) (s : Construction), s.Sound ir W F →
      (∀ v q, (v, q) ∈ s.phiUsers → m ≤ v → m ≤ q) → (∀ p ∈ work, s.Ready m W p) →
      (simplifyWithin fuel work s).Sound ir W F ∧ Asks s (simplifyWithin fuel work s) ∧
        Frozen m s (simplifyWithin fuel work s) := by
  intro fuel
  induction fuel with
  | zero =>
    intro work s hs _ _
    exact ⟨hs, Asks.refl s hs.resolve_resolve, Frozen.refl m s⟩
  | succ fuel ih =>
    intro work s hs hup hwork
    cases work with
    | nil =>
      rw [simplifyWithin]
      · exact ⟨hs, Asks.refl s hs.resolve_resolve, Frozen.refl m s⟩
      · exact Nat.succ_ne_zero fuel
    | cons p work =>
      have hrest : ∀ q ∈ work, s.Ready m W q := fun q hq => hwork q (mem_cons_of_mem p hq)
      rw [simplifyWithin]
      split
      · exact ih work s hs hup hrest
      · next hself =>
        split
        · exact ih work s hs hup hrest
        · next v hv =>
          obtain ⟨hmp, ⟨x, b, hp, hk⟩, hpW, hpI⟩ := hwork p mem_cons_self
          have hred := redundant_of_soleOperand hs hp hk (Bool.eq_false_iff.mpr hself) hv
          obtain ⟨users', users, removed, heq, husers', husers⟩ := replacePhi_eq p v
          rw [heq]
          have hpF : p ∉ F := fun h => not_lt.mpr hmp (hF p h)
          have hask : Asks s (s.merge [p] v users removed) := asks_merge hs hred
          have hs' : (s.merge [p] v users removed).Sound ir W F := by
            refine sound_merge hs hred ?_ ?_
            · intro q hq
              rw [mem_singleton.mp hq]
              exact ⟨hpW, hpF, hpI⟩
            · intro w q h
              rcases husers w q h with h | ⟨rfl, h⟩
              · exact ⟨(hs.users w q h).1, w, h⟩
              · exact ⟨hred.lt, p, h⟩
          have hup' : ∀ w q, (w, q) ∈ (s.merge [p] v users removed).phiUsers → m ≤ w → m ≤ q := by
            intro w q h hw
            rcases husers w q h with h | ⟨-, h⟩
            · exact hup w q h hw
            · exact hup p q h hmp
          have hkeep : ∀ q, s.Ready m W q → (s.merge [p] v users removed).Ready m W q := by
            rintro q ⟨h1, ⟨y, c, hq, hqk⟩, h3⟩
            exact ⟨h1, ⟨y, c, hq, hask.known q y c hq hqk⟩, h3⟩
          have hwork' : ∀ q ∈ users'.reverse ++ work, (s.merge [p] v users removed).Ready m W q := by
            intro q hq
            rcases mem_append.mp hq with hq | hq
            · have hpq := husers' q (mem_reverse.mp hq)
              have hmq := hup p q hpq hmp
              refine hkeep q ⟨hmq, ?_, ?_, ?_⟩
              · exact (hs.users p q hpq).2.2.resolve_left fun h => not_lt.mpr hmq (hF q h)
              · exact fun h => (hs.waiting q h).2.2 p hpq
              · intro h
                obtain ⟨⟨c, y, r⟩, hr, rfl⟩ := mem_map.mp h
                exact (hs.incomplete c y r hr).2.2.2 p hpq
            · exact hkeep q (hrest q hq)
          obtain ⟨h1, h2, h3⟩ := ih (users'.reverse ++ work) _ hs' hup' hwork'
          have hfrozen : Frozen m s (s.merge [p] v users removed) := by
            refine ⟨fun _ _ => rfl, fun w q h hq => ?_⟩
            rcases husers w q h with h | ⟨-, h⟩
            · exact h
            · exact absurd hq (not_lt.mpr (hup p q h hmp))
          exact ⟨h1, hask.trans h2, hfrozen.trans h3 le_rfl⟩

/-- A phi whose operands are known is settled: if it was the value of its variable at the end of its
block, so is what stands for it. -/
theorem settlePhi_spec {m : Nat} (hs : s.Sound ir W F) (hF : ∀ q ∈ F, q < m)
    (hup : ∀ v q, (v, q) ∈ s.phiUsers → m ≤ v → m ≤ q) (hp : s.IsPhi p x b) (hready : s.Ready m W p)
    {v : ValueId} {t : Construction} (ht : s.settlePhi x b p = (v, t)) :
    t.Sound ir W F ∧ Asks s t ∧ Frozen m s t ∧ t.Fits ir x v ∧ (s.EndsWith x b p → t.EndsWith x b v) := by
  obtain ⟨h1, h2, h3⟩ : (s.simplify p).Sound ir W F ∧ Asks s (s.simplify p) ∧ Frozen m s (s.simplify p) :=
    simplifyWithin_spec m hF _ [p] s hs hup (fun q hq => by rw [mem_singleton.mp hq]; exact hready)
  have hp' := h2.isPhi hp
  have hfits := Fits.resolve h1 ⟨hp'.lt, fun _ => IsPhi.fits h1 hp'⟩
  have hres := (h1.resolve_resolve p).symm
  have hends : s.EndsWith x b p → (s.simplify p).EndsWith x b ((s.simplify p).resolve p) :=
    fun he => (h2.ends_all x b p he).congr hres
  obtain ⟨rfl, rfl⟩ := Prod.mk.inj ht
  split
  · next hdef =>
    have hsame : ∀ w, (s.simplify p).def? x b = some w →
        (s.simplify p).resolve w = (s.simplify p).resolve ((s.simplify p).resolve p) := by
      intro w hw
      rw [beq_iff_eq.mp hdef] at hw
      rw [← some.inj hw]
      exact hres
    obtain ⟨hb, -⟩ := h1.shape.phi p hp'.lt hp'.op
    rw [hp'.block] at hb
    have hstart : (s.simplify p).StartsWith x b ((s.simplify p).resolve p) := .inl ⟨p, hp', hres⟩
    have hask := asks_record h1 hb hsame
    exact ⟨sound_record h1 hb hfits (.inr hstart) hsame, h2.trans hask,
      h3.trans (frozen_record m x b _) le_rfl, hfits,
      fun he => hask.ends_all x b _ (hends he)⟩
  · exact ⟨h1, h2, h3, hfits, hends⟩

end SsaCodegen.Construction
