import SsaCodegen.Proofs.Construction.Components
import SsaCodegen.Proofs.Construction.Hosts

/-! Replacing groups of phis. A component that reads one value from outside is redundant. -/

namespace SsaCodegen.Construction

open List

variable {t : Task} {s s' s'' : Construction} {group members : List ValueId} {v w p : ValueId}
  {x : Var} {b : BlockId}

/-- Phis that nothing stands for, each listed once. -/
structure Unreplaced (s : Construction) (group : List ValueId) : Prop where
  nodup : group.Nodup
  phi : ∀ p ∈ group, s.forward.lookup p = none ∧ ∃ x b, s.IsPhi p x b

/-- What replacing some phis of a group keeps. Representatives stay within any set of values that
holds what the group reads. -/
structure Regroups (t : Task) (group : List ValueId) (s s' : Construction) : Prop where
  complete : Complete t s'
  asks : Asks s s'
  func : s'.func = s.func
  vars : s'.phiVars = s.phiVars
  others : ∀ w, w ∉ group → s'.forward.lookup w = s.forward.lookup w
  stays : ∀ X : ValueId → Prop, (∀ p ∈ group, ∀ a ∈ s.func.args p, X (s.resolve a)) →
    ∀ w, X (s.resolve w) → X (s'.resolve w)

theorem Regroups.refl (h : Complete t s) (group : List ValueId) : Regroups t group s s :=
  ⟨h, Asks.refl s h.sound.resolve_resolve, rfl, rfl, fun _ _ => rfl, fun _ _ _ hw => hw⟩

section

variable (h : Regroups t group s s')

include h

theorem Regroups.trans (h' : Regroups t group s' s'') : Regroups t group s s'' where
  complete := h'.complete
  asks := h.asks.trans h'.asks
  func := h'.func.trans h.func
  vars := h'.vars.trans h.vars
  others w hw := (h'.others w hw).trans (h.others w hw)
  stays X hX w hw := by
    refine h'.stays X (fun p hp a ha => ?_) w (h.stays X hX w hw)
    rw [h.func] at ha
    exact h.stays X hX a (hX p hp a ha)

theorem Regroups.mono {group' : List ValueId} (hsub : ∀ p ∈ group, p ∈ group') : Regroups t group' s s' :=
  { h with
    others := fun w hw => h.others w fun hmem => hw (hsub w hmem)
    stays := fun X hX => h.stays X fun p hp => hX p (hsub p hp) }

theorem Regroups.isPhi (hp : s'.IsPhi p x b) : s.IsPhi p x b :=
  ⟨h.func ▸ hp.lt, h.func ▸ hp.op, h.func ▸ hp.block, h.vars ▸ hp.var⟩

theorem Regroups.unreplaced (hm : s.Unreplaced members)
    (hdisj : ∀ p ∈ members, p ∉ group) : s'.Unreplaced members := by
  refine ⟨hm.nodup, fun p hp => ?_⟩
  obtain ⟨hlook, x, b, hphi⟩ := hm.phi p hp
  rw [h.others p (hdisj p hp)]
  exact ⟨hlook, x, b, h.asks.isPhi hphi⟩

end

theorem Complete.replaceAll (h : Complete t s) (hr : s.Redundant members v) :
    Complete t (s.replaceAll members v) ∧ Asks s (s.replaceAll members v) := by
  have hask : Asks s (s.replaceAll members v) := asks_merge h.sound hr
  have hsound : (s.replaceAll members v).Sound t.ir [] [] := by
    refine sound_merge h.sound hr (fun p _ => ⟨not_mem_nil, not_mem_nil, ?_⟩) ?_
    · rw [h.incomplete]
      exact not_mem_nil
    · exact fun w q hwq => ⟨(h.sound.users w q hwq).1, w, hwq⟩
  refine ⟨⟨hsound, h.rooted.asks h.sound hask, h.flow, h.incomplete,
    fun p x b hp => hask.known p x b hp (h.known p x b hp), fun b hb => ?_⟩, hask⟩
  obtain ⟨es, hes⟩ := h.finished b hb
  exact ⟨es, hes.extends hask.toExtends rfl rfl (fun x v => hask.ends_all x b v) (fun _ hx => hx) fun _ _ => rfl⟩

theorem Complete.type_operand (h : Complete t s) {a : ValueId} (hp : s.IsPhi p x b) (ha : a ∈ s.func.args p)
    (hty : (s.func.value p).ty ≠ TypeId.mem) : (s.func.value (s.resolve a)).ty = (s.func.value p).ty := by
  obtain ⟨q, -, hends⟩ := (h.known p x b hp).operand h.sound hp ha
  rw [hp.fits h.sound] at hty ⊢
  exact (hends.fits h.sound).2 hty

theorem Complete.type_reads (h : Complete t s) (hg : s.Unreplaced group) {q : ValueId} (hp : p ∈ group)
    (hpq : s.ReadsIn group p q) (hty : (s.func.value p).ty ≠ TypeId.mem) :
    (s.func.value q).ty = (s.func.value p).ty := by
  induction hpq with
  | refl => rfl
  | tail hpr hrq ih =>
    obtain ⟨⟨a, ha, rfl⟩, -⟩ := mem_operandsIn.mp hrq
    obtain ⟨-, x, b, hphi⟩ := hg.phi _ (ReadsIn.mem hpr hp)
    rw [h.type_operand hphi ha (by rw [ih]; exact hty), ih]

theorem mem_operandsOutside : w ∈ s.operandsOutside members p ↔
    (∃ a ∈ s.func.args p, s.resolve a = w) ∧ w ∉ members := by
  rw [operandsOutside, mem_filter, mem_map, Bool.not_eq_true', ← Bool.not_eq_true, contains_iff_mem]

theorem soleOutside?_eq_some : s.soleOutside? members = some v ↔ (∃ p ∈ members, v ∈ s.operandsOutside members p) ∧
      ∀ p ∈ members, ∀ w ∈ s.operandsOutside members p, w = v := by
  have hmem : ∀ w, w ∈ members.flatMap (s.operandsOutside members) ↔
      ∃ p ∈ members, w ∈ s.operandsOutside members p := fun w => mem_flatMap
  rw [soleOutside?]
  cases hlist : members.flatMap (s.operandsOutside members) with
  | nil =>
    simp only [reduceCtorEq, false_iff, not_and]
    rintro ⟨p, hp, hv⟩
    exact absurd ((hmem v).mpr ⟨p, hp, hv⟩) (by rw [hlist]; exact not_mem_nil)
  | cons u rest =>
    dsimp only
    rw [hlist] at hmem
    constructor
    · intro hsome
      split at hsome
      · next hall =>
        obtain rfl := Option.some.inj hsome
        refine ⟨(hmem u).mp mem_cons_self, fun p hp w hw => ?_⟩
        rcases mem_cons.mp ((hmem w).mpr ⟨p, hp, hw⟩) with rfl | hw
        · rfl
        · exact beq_iff_eq.mp (all_eq_true.mp hall w hw)
      · cases hsome
    · rintro ⟨-, hall⟩
      have hu : ∀ w ∈ u :: rest, w = v := fun w hw => by
        obtain ⟨p, hp, hw⟩ := (hmem w).mp hw
        exact hall p hp w hw
      rw [if_pos, hu u mem_cons_self]
      rw [all_eq_true]
      intro w hw
      rw [hu w (mem_cons_of_mem u hw), hu u mem_cons_self, beq_self_eq_true]

theorem Complete.redundant (h : Complete t s) (hm : s.Unreplaced members)
    (hty : ∀ p ∈ members, ∀ q ∈ members, (s.func.value p).ty ≠ TypeId.mem → (s.func.value q).ty = (s.func.value p).ty)
    (hv : s.soleOutside? members = some v) : s.Redundant members v := by
  obtain ⟨⟨q, hq, hvq⟩, hall⟩ := soleOutside?_eq_some.mp hv
  obtain ⟨⟨a, ha, rfl⟩, hout⟩ := mem_operandsOutside.mp hvq
  obtain ⟨-, y, c, hphi⟩ := hm.phi q hq
  obtain ⟨r, -, hends⟩ := (h.known q y c hphi).operand h.sound hphi ha
  refine ⟨hm.nodup, fun p hp => ?_, hout, (hends.fits h.sound).1, h.sound.lookup_resolve a,
    fun p hp hmem => ?_, fun p hp a' ha' => ?_⟩
  · obtain ⟨hlook, x, b, hphi⟩ := hm.phi p hp
    exact ⟨hlook, x, b, hphi, h.known p x b hphi⟩
  · have hpq := hty p hp q hq hmem
    rw [h.type_operand hphi ha (by rw [hpq]; exact hmem), hpq]
  · by_cases hin : s.resolve a' ∈ members
    · exact .inl hin
    · exact .inr (hall p hp _ (mem_operandsOutside.mpr ⟨⟨a', ha', rfl⟩, hin⟩))

theorem Complete.regroups (h : Complete t s) (hr : s.Redundant members v)
    (hread : ∃ p ∈ members, ∃ a ∈ s.func.args p, s.resolve a = v) :
    Regroups t members s (s.replaceAll members v) := by
  obtain ⟨hcomplete, hask⟩ := h.replaceAll hr
  refine ⟨hcomplete, hask, rfl, rfl, fun w hw => lookup_merge_other hw, fun X hX w hw => ?_⟩
  have hresolve : (s.replaceAll members v).resolve w =
      if s.resolve w ∈ members then v else s.resolve w := resolve_merge h.sound hr w
  rw [hresolve]
  split
  · obtain ⟨p, hp, a, ha, rfl⟩ := hread
    exact hX p hp a ha
  · exact hw

def inner (s : Construction) (members : List ValueId) : List ValueId :=
  members.filter fun p => (s.operandsOutside members p).isEmpty

/-- How one component is treated. -/
def collapseOne (fuel : Nat) (s : Construction) (members : List ValueId) : Construction :=
  match s.soleOutside? members with
  | some v => s.replaceAll members v
  | none =>
    if members.length > 1 && !(s.inner members).isEmpty then
      collapseWithin fuel (s.inner members) s
    else s

theorem collapseWithin_succ (fuel : Nat) (group : List ValueId) (s : Construction) :
    collapseWithin (fuel + 1) group s = (s.components group).foldl (collapseOne fuel) s := rfl

theorem Unreplaced.inner (h : s.Unreplaced members) : s.Unreplaced (s.inner members) :=
  ⟨h.nodup.filter _, fun p hp => h.phi p (mem_filter.mp hp).1⟩

theorem collapseOne_regroups {fuel : Nat}
    (ih : ∀ (group : List ValueId) (s : Construction), Complete t s → s.Unreplaced group →
      Regroups t group s (collapseWithin fuel group s)) (h : Complete t s) (hm : s.Unreplaced members)
    (hty : ∀ p ∈ members, ∀ q ∈ members, (s.func.value p).ty ≠ TypeId.mem →
      (s.func.value q).ty = (s.func.value p).ty) : Regroups t members s (collapseOne fuel s members) := by
  rw [collapseOne]
  split
  · next v hv =>
    refine h.regroups (h.redundant hm hty hv) ?_
    obtain ⟨⟨p, hp, hvp⟩, -⟩ := soleOutside?_eq_some.mp hv
    exact ⟨p, hp, (mem_operandsOutside.mp hvp).1⟩
  · split
    · exact (ih _ s h hm.inner).mono fun p hp => (mem_filter.mp hp).1
    · exact Regroups.refl h members

/-- The components of a group are treated one after the other, each while its members are still
there. -/
theorem foldl_collapseOne {fuel : Nat}
    (ih : ∀ (group : List ValueId) (s : Construction), Complete t s → s.Unreplaced group →
      Regroups t group s (collapseWithin fuel group s))
    (h : Complete t s) (hg : s.Unreplaced group) {done : List (List ValueId)}
    (hdone : Regroups t done.flatten s s') :
    ∀ mid rest : List (List ValueId), s.components group = done ++ mid ++ rest →
      Regroups t mid.flatten s' (mid.foldl (collapseOne fuel) s') := by
  intro mid
  induction mid using List.reverseRecOn with
  | nil => exact fun _ _ => Regroups.refl hdone.complete _
  | append_singleton mid m ihmid =>
    intro rest hsplit
    have hmid := ihmid (m :: rest) (by rw [hsplit]; simp)
    have hmem : m ∈ s.components group := by
      rw [hsplit]
      simp
    have hcomp := component_of_mem hmem
    have hm : s.Unreplaced m := ⟨hcomp.nodup, fun p hp => hg.phi p (hcomp.sub p hp)⟩
    have hdisj : ∀ m' ∈ done ++ mid, ∀ p ∈ m, p ∉ m' := by
      intro m' hm' p hp hp'
      have hord := s.components_ordered group
      rw [hsplit, ← append_assoc, append_assoc (done ++ mid)] at hord
      exact (pairwise_append.mp hord).2.2 m' hm' m mem_cons_self p hp' p hp .refl
    have hm1 := hdone.unreplaced hm fun p hp hmem => by
      obtain ⟨m', hm', hpm'⟩ := mem_flatten.mp hmem
      exact hdisj m' (mem_append_left _ hm') p hp hpm'
    have hm2 := hmid.unreplaced hm1 fun p hp hmem => by
      obtain ⟨m', hm', hpm'⟩ := mem_flatten.mp hmem
      exact hdisj m' (mem_append_right _ hm') p hp hpm'
    rw [foldl_append, foldl_cons, flatten_append]
    refine (hmid.mono fun p hp => mem_append_left _ hp).trans
      ((collapseOne_regroups ih hmid.complete hm2 ?_).mono fun p hp =>
        mem_append_right _ (mem_flatten.mpr ⟨m, mem_singleton.mpr rfl, hp⟩))
    rw [hmid.func, hdone.func]
    exact fun p hp q hq => h.type_reads hg (hcomp.sub p hp) (hcomp.connected p hp q hq)

theorem flatten_components_sub {done rest : List (List ValueId)}
    (hsplit : s.components group = done ++ rest) : ∀ p ∈ done.flatten, p ∈ group := by
  intro p hp
  obtain ⟨m, hm, hpm⟩ := mem_flatten.mp hp
  refine (component_of_mem (s := s) ?_).sub p hpm
  rw [hsplit]
  exact mem_append_left _ hm

theorem collapseWithin_regroups : ∀ (fuel : Nat) (group : List ValueId) (s : Construction),
    Complete t s → s.Unreplaced group → Regroups t group s (collapseWithin fuel group s) := by
  intro fuel
  induction fuel with
  | zero => exact fun group s h _ => Regroups.refl h group
  | succ fuel ih =>
    intro group s h hg
    have hall := foldl_collapseOne ih h hg (Regroups.refl h [].flatten) (s.components group) []
      (by rw [nil_append, append_nil])
    exact hall.mono (flatten_components_sub (append_nil _).symm)

theorem Func.Shape.phis_eq {f : Func} (h : f.Shape) (b : BlockId) :
    f.phis b = (f.block b).values.filter fun v => (f.value v).op == .phi := by
  obtain ⟨ps, rest, hsplit, hps, hrest⟩ := h.phis_first b
  have hlead : ∀ v ∈ ps, (f.value v).op.isLeading := fun v hv => by rw [hps v hv]; rfl
  have hnone : ∀ vs : List ValueId, (∀ v ∈ vs, v ∈ rest) → vs.filter (fun v => (f.value v).op == .phi) = [] := by
    intro vs hvs
    rw [filter_eq_nil_iff]
    intro v hv hop
    exact (hrest v (hvs v hv)).1 (beq_iff_eq.mp hop)
  rw [Func.phis, hsplit, takeWhile_append_of_pos hlead, filter_append, filter_append,
    hnone rest fun _ hv => hv, hnone _ fun v hv => takeWhile_subset _ hv]

def openPhis (s : Construction) : List ValueId :=
  (s.func.blockIds.flatMap s.func.phis).filter (!s.isReplaced ·)

theorem Complete.mem_openPhis (h : Complete t s) :
    p ∈ s.openPhis ↔ s.forward.lookup p = none ∧ ∃ x b, s.IsPhi p x b := by
  rw [openPhis, mem_filter, mem_flatMap, Bool.not_eq_true', isReplaced,
    Option.isSome_eq_false_iff, Option.isNone_iff_eq_none, and_comm]
  refine and_congr_right fun _ => ⟨?_, ?_⟩
  · rintro ⟨b, -, hp⟩
    rw [Func.Shape.phis_eq h.sound.shape, mem_filter] at hp
    obtain ⟨hlt, hblock⟩ := h.sound.shape.placed b p hp.1
    obtain ⟨x, hx, -⟩ := h.sound.phi_var p hlt (beq_iff_eq.mp hp.2)
    exact ⟨x, b, hlt, beq_iff_eq.mp hp.2, hblock, hx⟩
  · rintro ⟨x, b, hp⟩
    obtain ⟨hlt, hmem, -⟩ := h.sound.shape.phi p hp.lt hp.op
    refine ⟨(s.func.value p).block, mem_range.mpr hlt, ?_⟩
    rw [Func.Shape.phis_eq h.sound.shape, mem_filter]
    exact ⟨hmem, beq_iff_eq.mpr hp.op⟩

theorem Complete.unreplaced_openPhis (h : Complete t s) : s.Unreplaced s.openPhis := by
  refine ⟨List.Nodup.filter _ ?_, fun p hp => h.mem_openPhis.mp hp⟩
  refine nodup_flatMap.mpr ⟨fun b _ => ?_, nodup_range.imp fun {b c} hne => ?_⟩
  · rw [Func.Shape.phis_eq h.sound.shape]
    exact (h.sound.shape.nodup b).filter _
  · intro p hp hp'
    rw [Func.Shape.phis_eq h.sound.shape] at hp hp'
    have hb := (h.sound.shape.placed b p (mem_filter.mp hp).1).2
    have hc := (h.sound.shape.placed c p (mem_filter.mp hp').1).2
    exact hne (hb.symm.trans hc)

theorem Complete.collapse (h : Complete t s) : Regroups t s.openPhis s s.collapse :=
  collapseWithin_regroups _ _ s h h.unreplaced_openPhis

end SsaCodegen.Construction
