import SsaCodegen.Proofs.Allocation.Edges

/-! Allocated functions are in SSA form: what registers hold was defined on every walk to the place. -/

namespace SsaCodegen

open List Func

namespace Draft

variable {d : Draft} {b : BlockId} {past : List BlockId} {pre ws : List ValueId} {P P' Q R : Claims}
  {u v w : ValueId}

def Backed (d : Draft) (past : List BlockId) (pre : List ValueId) (P : Claims) : Prop :=
  ∀ r o, P r = some o → (d.func.value o.copy).ty = (d.source.value o.value).ty ∧
    (o.copy ∈ pre ∨ ∃ e ∈ past, o.copy ∈ (d.func.block e).values)

theorem Backed.weaken (h : d.Backed past pre P) (hQ : Q.Within P) : d.Backed past pre Q :=
  fun r o ho => h r o (hQ r o ho)

theorem Backed.later (h : d.Backed past pre P) (w : ValueId) : d.Backed past (pre ++ [w]) P :=
  fun r o ho => ⟨(h r o ho).1, (h r o ho).2.imp_left (mem_append_left _)⟩

theorem Backed.put (h : d.Backed past pre P) (hty : (d.func.value w).ty = (d.source.value u).ty)
    (rs : List Reg) : d.Backed past (pre ++ [w]) (P.put u w rs) := by
  intro r o ho
  rcases Claims.put_eq_some ho with ⟨p, -, rfl⟩ | ⟨-, ho⟩
  · exact ⟨hty, .inl (mem_append_right _ mem_cons_self)⟩
  · exact h.later w r o ho

theorem Step.backed (hstep : d.Step b pre P w P')
    (hkin : ∀ v < d.source.values.size, d.source.Kin d.func v) (h : d.Backed past pre P) :
    d.Backed past (pre ++ [w]) P' := by
  cases hstep with
  | compute lt => exact h.put (hkin w lt).ty _
  | call lt =>
    have hempty : d.Backed past pre .empty := nofun
    exact hempty.put (hkin w lt).ty _
  | store => exact h.later w
  | load new op args stored loc available ty => exact h.put ty _
  | remake new op payload args const value ty => exact h.put ty _

theorem Steps.backed (hkin : ∀ v < d.source.values.size, d.source.Kin d.func v) :
    ∀ {ws pre : List ValueId} {R : Claims}, d.Steps b pre R ws Q → d.Backed past pre R → d.Backed past (pre ++ ws) Q
  | [], pre, R, hsteps, h => by
    rw [append_nil]
    exact h.weaken hsteps
  | w :: ws, pre, R, ⟨P, P', hP, hstep, hrest⟩, h => by
    have hnext := hrest.backed hkin (hstep.backed hkin (h.weaken hP))
    rwa [append_assoc] at hnext

end Draft

namespace Setting.Resolved

variable {c : Setting} {allowed : RegSet} {f : Func} {moves : Array (List WordMove)} {t : Outline}
  {b q : BlockId} {past : List BlockId} {pre post : List ValueId} {P S : Claims} {u v w a : ValueId}
  {r : Reg} {o : Occupant}

variable (h : Resolved c allowed f moves t) (hf : f.SsaForm)

include h

theorem current_ne (b : BlockId) : t.current ≠ some b := by
  rw [h.current]
  exact nofun

theorem valuesOf_eq (b : BlockId) : t.valuesOf b = (t.func.block b).values :=
  Outline.valuesOf_other (h.current_ne b)

theorem lt_of_mem (hv : v ∈ (t.func.block b).values) : b < f.blocks.size :=
  h.consistent.graph.size ▸ lt_of_mem_values hv

theorem args_leading (hv : v < f.values.size) (hlead : (f.value v).op.isLeading)
    (hop : (f.value v).op ≠ .phi) : t.func.args v = f.args v := by
  refine ext_getElem? fun k => h.same v k hv hlead fun q d _ honto => ?_
  exact hop (mem_placedPhis honto.1).2.1

include hf

section

variable (hb : b < f.blocks.size)

include hb

theorem visited : t.Visited f b (t.atEnd b) := by
  have hvis := h.consistent.visited b (hf.flow.mem_reversePostorder.mpr hb)
  rwa [Outline.stop_other (h.current_ne b)] at hvis

theorem closed : t.Closed f f.reversePostorder b :=
  h.consistent.closed b (hf.flow.mem_reversePostorder.mpr hb) (h.current_ne b)

theorem route : ∃ S rest, (t.func.block b).values = f.leading b ++ rest ∧
    t.StartsWith f b S ∧ (t.draft f).Steps b (f.leading b) S rest (t.atEnd b) := by
  obtain ⟨S, rest, hvals, hstart, hsteps⟩ := (h.visited hf hb).route
  exact ⟨S, rest, (h.valuesOf_eq b).symm.trans hvals, hstart, hsteps⟩

theorem originals : (t.func.block b).values.filter (· < f.values.size) = (f.block b).values := by
  rw [← h.valuesOf_eq]
  exact (h.closed hf hb).all

end

theorem mem_values (hv : v ∈ (f.block b).values) : v ∈ (t.func.block b).values := by
  rw [← h.originals hf (lt_of_mem_values hv)] at hv
  exact (mem_filter.mp hv).1

theorem placed (hv : v ∈ (t.func.block b).values) : v < t.func.values.size ∧ (t.func.value v).block = b := by
  rw [← h.valuesOf_eq] at hv
  exact (h.visited hf (h.lt_of_mem (h.valuesOf_eq b ▸ hv))).placed v hv

theorem source_split (hvals : (t.func.block b).values = pre ++ v :: post) (hv : v < f.values.size) :
    (f.block b).values = pre.filter (· < f.values.size) ++ v :: post.filter (· < f.values.size) := by
  have hb := h.lt_of_mem (v := v) (by rw [hvals]; simp)
  rw [← h.originals hf hb, hvals, filter_append]
  exact congrArg _ (filter_cons_of_pos (decide_eq_true hv))

theorem atEnd_of_source (hu : f.AtEnd u b) : t.func.AtEnd u b := by
  obtain ⟨d, hu, hdom⟩ := hu
  exact ⟨d, h.mem_values hf hu, hdom.congr h.consistent.graph⟩

theorem before_of_source (hu : f.Before u b (pre.filter (· < f.values.size))) : t.func.Before u b pre := by
  rcases hu with hu | ⟨d, hne, hu, hdom⟩
  · exact .inl (mem_filter.mp hu).1
  · exact .inr ⟨d, hne, h.mem_values hf hu, hdom.congr h.consistent.graph⟩

theorem before_of_walks (hb : b < f.blocks.size)
    (hwalks : ∀ past, Trail f (b :: past) → a ∈ pre ∨ ∃ e ∈ past, a ∈ (t.func.block e).values) :
    t.func.Before a b pre := by
  obtain ⟨past, htrail, hfirst⟩ := exists_first_trail (hf.flow.reachable b hb)
  rcases hwalks past htrail with ha | ⟨e, he, ha⟩
  · exact .inl ha
  · by_cases hpre : a ∈ pre
    · exact .inl hpre
    · refine .inr ⟨e, fun heq => hfirst (heq ▸ he), ha, fun past' htrail' => ?_⟩
      obtain ⟨e', he', ha'⟩ := (hwalks past' (htrail'.congr h.consistent.graph.symm)).resolve_left hpre
      rw [← (h.placed hf ha).2, (h.placed hf ha').2]
      exact mem_cons_of_mem b he'

theorem backed_start (hS : t.StartsWith f b S) (htrail : Trail f (b :: past))
    (hprev : ∀ p rest, past = p :: rest → (t.draft f).Backed rest (t.func.block p).values (t.atEnd p)) :
    (t.draft f).Backed past (f.leading b) S := by
  intro r o ho
  rcases hS.source with hlead | ⟨p, hpreds, -, hwithin, -⟩
  · obtain ⟨hcopy, hmem⟩ := hlead r o ho
    have hlt := (hf.placed b o.value (mem_values_of_mem_leading hmem)).1
    rw [hcopy]
    exact ⟨(h.consistent.kin o.value hlt).ty, .inl hmem⟩
  · cases past with
    | nil =>
      cases htrail with
      | start =>
        rw [hf.flow.entry_preds] at hpreds
        cases hpreds
    | cons d rest =>
      have hd := htrail.head_pred hf.flow
      rw [hpreds, mem_singleton] at hd
      subst hd
      obtain ⟨hty, hmem⟩ := hprev d rest rfl r o (hwithin r o ho)
      refine ⟨hty, .inr ?_⟩
      rcases hmem with hmem | ⟨e, he, hmem⟩
      · exact ⟨d, mem_cons_self, hmem⟩
      · exact ⟨e, mem_cons_of_mem d he, hmem⟩

theorem backed_end : ∀ {past : List BlockId} {b : BlockId}, Trail f (b :: past) → (t.draft f).Backed past
    (t.func.block b).values (t.atEnd b) := by
  intro past
  induction past with
  | nil =>
    intro b htrail
    obtain ⟨S, rest, hvals, hstart, hsteps⟩ := h.route hf (htrail.lt hf.flow b mem_cons_self)
    rw [hvals]
    exact hsteps.backed h.consistent.kin (h.backed_start hf hstart htrail nofun)
  | cons p past ih =>
    intro b htrail
    obtain ⟨S, rest, hvals, hstart, hsteps⟩ := h.route hf (htrail.lt hf.flow b mem_cons_self)
    rw [hvals]
    refine hsteps.backed h.consistent.kin (h.backed_start hf hstart htrail fun d rest' heq => ?_)
    obtain ⟨rfl, rfl⟩ := List.cons.inj heq
    exact ih htrail.tail.1

theorem backed (hS : t.StartsWith f b S) (hsteps : (t.draft f).Steps b (f.leading b) S pre P)
    (htrail : Trail f (b :: past)) : (t.draft f).Backed past (f.leading b ++ pre) P := by
  refine hsteps.backed h.consistent.kin (h.backed_start hf hS htrail fun p rest heq => ?_)
  subst heq
  exact h.backed_end hf htrail.tail.1

theorem held_walks (hS : t.StartsWith f b S) (hsteps : (t.draft f).Steps b (f.leading b) S pre P)
    (hheld : (t.draft f).Held P u a) (htrail : Trail f (b :: past)) : (t.func.value a).ty = (f.value u).ty ∧
    (a ∈ f.leading b ++ pre ∨ ∃ e ∈ past, a ∈ (t.func.block e).values) := by
  obtain ⟨r, hr⟩ := exists_mem_of_ne_nil _ hheld.1
  obtain ⟨i, hi⟩ := mem_iff_getElem?.mp hr
  exact h.backed hf hS hsteps htrail r _ (hheld.2 i r hi)

section

variable (hb : b < f.blocks.size) (hS : t.StartsWith f b S)
  (hsteps : (t.draft f).Steps b (f.leading b) S pre P) (hheld : (t.draft f).Held P u a)

include hb hS hsteps hheld

theorem before_of_held : t.func.Before a b (f.leading b ++ pre) :=
  h.before_of_walks hf hb fun _ htrail => (h.held_walks hf hS hsteps hheld htrail).2

theorem ty_of_held : (t.func.value a).ty = (f.value u).ty := by
  obtain ⟨past, htrail⟩ := hf.flow.exists_trail hb
  exact (h.held_walks hf hS hsteps hheld htrail).1

end

theorem before_of_stored (hu : f.AtEnd u b) (hstored : (t.draft f).Stored b pre u a) : t.func.Before a b pre := by
  by_cases hmem : u ∈ (f.block b).values
  · exact .inl (hstored.2 hmem)
  · obtain ⟨d, hd, hdom⟩ := hu
    refine .inr ⟨d, fun heq => hmem (heq ▸ hd), ?_, hdom.congr h.consistent.graph⟩
    obtain ⟨-, ⟨rfl, -⟩ | ⟨-, -, -, -, -, -, hplace⟩⟩ := h.consistent.homes u a hstored.1
    · exact h.mem_values hf hd
    · rwa [(hf.placed d u hd).2, h.valuesOf_eq] at hplace

theorem before_of_atHand (hu : f.AtEnd u b) (hb : b < f.blocks.size) (hS : t.StartsWith f b S)
    (hsteps : (t.draft f).Steps b (f.leading b) S pre P)
    (hhand : (t.draft f).AtHand b (f.leading b ++ pre) P u a) : t.func.Before a b (f.leading b ++ pre) :=
  hhand.elim (h.before_of_held hf hb hS hsteps) (h.before_of_stored hf hu)

theorem atEnd_of_atHand (hu : f.AtEnd u b) (hb : b < f.blocks.size)
    (hhand : (t.draft f).AtHand b (t.valuesOf b) (t.atEnd b) u a) : t.func.AtEnd a b := by
  obtain ⟨S, rest, hvals, hS, hsteps⟩ := h.route hf hb
  rw [h.valuesOf_eq, hvals] at hhand
  refine (h.before_of_atHand hf hu hb hS hsteps hhand).atEnd fun v hv => ?_
  rw [hvals]
  exact hv

section

variable (hvals : (t.func.block b).values = pre ++ w :: post) (hw : w < f.values.size) (hop : (f.value w).op ≠ .phi)

include hvals hw hop

theorem source_before (hu : u ∈ f.args w) : f.Before u b (pre.filter (· < f.values.size)) ∧ f.AtEnd u b := by
  have hsplit := h.source_split hf hvals hw
  have hbefore := hf.reads b _ w _ hsplit hop u hu
  refine ⟨hbefore, hbefore.atEnd fun v hv => ?_⟩
  rw [hsplit]
  exact mem_append_left _ hv

theorem before_of_renames {R : ValueId → ValueId → Prop} (hren : (t.draft f).Renames w R)
    (hR : ∀ u a, f.AtEnd u b → R u a → t.func.Before a b pre) (ha : a ∈ t.func.args w) :
    t.func.Before a b pre := by
  obtain ⟨k, hk⟩ := mem_iff_getElem?.mp ha
  have hlt := hren.1 ▸ (List.getElem?_eq_some_iff.mp hk).1
  have hu := h.source_before hf hvals hw hop (getElem_mem hlt)
  rcases hren.2 k _ a (getElem?_eq_getElem hlt) hk with hR' | ⟨rfl, -⟩
  · exact hR _ a hu.2 hR'
  · exact h.before_of_source hf hu.1

end

theorem before_of_step {M P' : Claims} (hvals : (t.func.block b).values = f.leading b ++ pre ++ w :: post)
    (hS : t.StartsWith f b S) (hsteps : (t.draft f).Steps b (f.leading b) S pre M) (hP : P.Within M)
    (hstep : (t.draft f).Step b (f.leading b ++ pre) P w P') (ha : a ∈ t.func.args w) : t.func.Before a b
    (f.leading b ++ pre) := by
  have hb := h.lt_of_mem (v := w) (by rw [hvals]; simp)
  have hsteps := hsteps.weaken hP
  have hphi : w < f.values.size → (f.value w).op ≠ .phi := by
    intro hlt hop
    have hnot : (t.func.value w).op.isLeading = false := hstep.not_leading
    rw [(h.consistent.kin w hlt).op, hop] at hnot
    cases hnot
  cases hstep with
  | compute lt op inner other reads =>
    exact h.before_of_renames hf hvals lt (hphi lt) reads (fun u a _ => h.before_of_held hf hb hS hsteps) ha
  | call lt op isCall reads =>
    exact h.before_of_renames hf hvals lt (hphi lt) reads (fun u a hu => h.before_of_atHand hf hu hb hS hsteps) ha
  | store new op args home before =>
    rw [show t.func.args w = _ from args, mem_singleton] at ha
    exact .inl (ha ▸ before)
  | load new op args stored loc available =>
    rw [show t.func.args w = _ from args, mem_singleton] at ha
    exact h.before_of_stored hf available (ha ▸ stored)
  | remake new op payload args =>
    rw [show t.func.args w = _ from args] at ha
    cases ha

theorem reads (hvals : (t.func.block b).values = pre ++ w :: post) (hop : (t.func.value w).op ≠ .phi)
    (ha : a ∈ t.func.args w) : t.func.Before a b pre := by
  have hb := h.lt_of_mem (v := w) (by rw [hvals]; simp)
  obtain ⟨S, rest, hroute, hS, hsteps⟩ := h.route hf hb
  rcases append_eq_append_iff.mp (hroute.symm.trans hvals) with
    ⟨ws, rfl, hrest⟩ | ⟨ws, hlead, hrest⟩
  · rw [hrest] at hsteps
    obtain ⟨M, P, P', hfirst, hP, hstep, -⟩ := hsteps.at_mem
    exact h.before_of_step hf hvals hS hfirst hP hstep ha
  · cases ws with
    | nil =>
      rw [append_nil] at hlead
      rw [nil_append] at hrest
      subst hlead
      rw [← hrest] at hsteps
      obtain ⟨P, P', hP, hstep, -⟩ := hsteps
      have hstep : (t.draft f).Step b (f.leading b ++ []) P w P' := by rwa [append_nil]
      have hvals : (t.func.block b).values = f.leading b ++ [] ++ w :: post := by
        rw [append_nil]
        exact hvals
      have hnil := h.before_of_step hf hvals hS (.refl S) hP hstep ha
      rwa [append_nil] at hnil
    | cons x ws =>
      obtain ⟨rfl, -⟩ := List.cons.inj hrest
      have hmem : w ∈ f.leading b := by rw [hlead]; simp
      have hlt := (hf.placed b w (mem_values_of_mem_leading hmem)).1
      have hop' := (h.consistent.kin w hlt).op ▸ hop
      rw [h.args_leading hlt (isLeading_of_mem_leading hmem) hop'] at ha
      exact h.before_of_source hf (h.source_before hf hvals hlt hop' ha).1

section

variable (hv : v ∈ (t.func.block b).values)

include hv

theorem mem_leading (hop : (t.func.value v).op.isLeading) : v ∈ f.leading b := by
  obtain ⟨S, rest, hvals, -, hsteps⟩ := h.route hf (h.lt_of_mem hv)
  rw [hvals] at hv
  refine (mem_append.mp hv).resolve_right fun hrest => ?_
  have hnot : (t.func.value v).op.isLeading = false := hsteps.not_leading v hrest
  rw [hop] at hnot
  cases hnot

theorem mem_leading_of_phi (hop : (t.func.value v).op = .phi) : v ∈ f.leading b :=
  h.mem_leading hf hv (by rw [hop]; rfl)

theorem source_phi (hop : (t.func.value v).op = .phi) :
    v ∈ (f.block b).values ∧ v < f.values.size ∧ (f.value v).op = .phi := by
  have hmem := mem_values_of_mem_leading (h.mem_leading_of_phi hf hv hop)
  have hlt := (hf.placed b v hmem).1
  exact ⟨hmem, hlt, (h.consistent.kin v hlt).op ▸ hop⟩

end

theorem phis_first (b : BlockId) : ∃ ps rest, (t.func.block b).values = ps ++ rest ∧
    (∀ v ∈ ps, (t.func.value v).op = .phi) ∧ ∀ v ∈ rest, (t.func.value v).op ≠ .phi := by
  by_cases hb : b < f.blocks.size
  · obtain ⟨S, rest, hvals, -, hsteps⟩ := h.route hf hb
    obtain ⟨ps, others, hsource, hps, hothers⟩ := hf.phis_first b
    have hkin : ∀ v ∈ (f.block b).values, (t.func.value v).op = (f.value v).op := fun v hv =>
      (h.consistent.kin v (hf.placed b v hv).1).op
    have hlead : f.leading b = ps ++ others.takeWhile fun v => (f.value v).op.isLeading := by
      rw [leading, hsource, takeWhile_append_of_pos]
      intro v hv
      rw [hps v hv]
      rfl
    refine ⟨ps, _, by rw [hvals, hlead, append_assoc], fun v hv => ?_, fun v hv => ?_⟩
    · rw [hkin v (by rw [hsource]; exact mem_append_left _ hv)]
      exact hps v hv
    · rcases mem_append.mp hv with hv | hv
      · have hmem := takeWhile_subset _ hv
        rw [hkin v (by rw [hsource]; exact mem_append_right _ hmem)]
        exact hothers v hmem
      · intro hop
        have hnot : (t.func.value v).op.isLeading = false := hsteps.not_leading v hv
        rw [hop] at hnot
        cases hnot
  · rw [block_eq_default _ (h.consistent.graph.size ▸ not_lt.mp hb)]
    exact ⟨[], [], rfl, forall_mem_nil _, forall_mem_nil _⟩

theorem phi_reads {k : Nat} (hv : v ∈ (t.func.block b).values) (hop : (t.func.value v).op = .phi)
    (hq : (f.block b).preds[k]? = some q) (ha : (t.func.args v)[k]? = some a) : t.func.AtEnd a q := by
  obtain ⟨hmem, hlt, hop'⟩ := h.source_phi hf hv hop
  have hlead := h.mem_leading_of_phi hf hv hop
  have hedge := hf.flow.edge.mpr (mem_of_getElem? hq)
  by_cases honto : f.Onto q b v k
  · obtain ⟨q', u, a', hq', hu, ha', hhand, -⟩ := h.fed q b v k hedge honto
    rw [(hf.placed b v hmem).2, hq, Option.some_inj] at hq'
    subst hq'
    rw [ha, Option.some_inj] at ha'
    subst ha'
    exact h.atEnd_of_atHand hf (hf.phi_reads b v hmem hop' k q u hq hu)
      (hf.flow.pred_lt b q (mem_of_getElem? hq)) hhand
  · rw [h.same v k hlt (isLeading_of_mem_leading hlead)] at ha
    · exact h.atEnd_of_source hf (hf.phi_reads b v hmem hop' k q a hq ha)
    · intro q' b' _ honto'
      have hblock := (hf.placed b' v (mem_placedPhis honto'.1).1).2.symm.trans (hf.placed b v hmem).2
      subst hblock
      have hsame := (hf.flow.predIndex?_eq_some.mp honto'.2).symm.trans hq
      exact honto (Option.some.inj hsame ▸ honto')

theorem branch (hb : b < f.blocks.size) (hk : (f.block b).kind = .branch) : ∃ u a,
    (f.block b).control = some u ∧ (t.func.block b).control = some a ∧ t.func.AtEnd a b ∧
    (t.func.value a).ty = (f.value u).ty := by
  obtain ⟨u, a, hu, ha, hheld⟩ := (h.closed hf hb).branch hk
  obtain ⟨S, rest, hvals, hS, hsteps⟩ := h.route hf hb
  refine ⟨u, a, hu, ha, ?_, h.ty_of_held hf hb hS hsteps hheld⟩
  exact h.atEnd_of_atHand hf (hf.branch_control hk hu) hb (.inl hheld)

theorem ret_reads (hb : b < f.blocks.size) (hk : (f.block b).kind = .ret)
    (hv : (f.block b).control = some v) (ha : a ∈ t.func.args v) : t.func.AtEnd a b := by
  have hren := (h.closed hf hb).ret v hk hv
  obtain ⟨k, hka⟩ := mem_iff_getElem?.mp ha
  have hlt := hren.1 ▸ (List.getElem?_eq_some_iff.mp hka).1
  have hu := (hf.ret_control hk hv).2.2.2 _ (getElem_mem hlt)
  rcases hren.2 k _ a (getElem?_eq_getElem hlt) hka with hhand | ⟨rfl, -⟩
  · exact h.atEnd_of_atHand hf hu hb hhand
  · exact h.atEnd_of_source hf hu

theorem ssaForm : t.func.SsaForm where
  flow := hf.flow.congr h.consistent.graph
  spans := h.consistent.spans
  placed _ _ hv := h.placed hf hv
  nodup b := by
    by_cases hb : b < f.blocks.size
    · rw [← h.valuesOf_eq]
      exact (h.visited hf hb).nodup
    · rw [block_eq_default _ (h.consistent.graph.size ▸ not_lt.mp hb)]
      exact nodup_nil
  phis_first := h.phis_first hf
  phi_args b p hp hop := by
    obtain ⟨hmem, hlt, hop'⟩ := h.source_phi hf hp hop
    rw [h.length p hlt (by rw [hop']; rfl), h.consistent.graph.preds]
    exact hf.phi_args b p hmem hop'
  reads _ _ _ _ hvals hop _ ha := h.reads hf hvals hop ha
  phi_reads b p hp hop k q a hq ha := by
    rw [h.consistent.graph.preds] at hq
    exact h.phi_reads hf hp hop hq ha
  plain b hk := by
    by_cases hb : b < f.blocks.size
    · rw [h.consistent.graph.kind] at hk
      rw [(h.closed hf hb).plain (by rw [hk]; decide)]
      exact hf.plain b hk
    · rw [block_eq_default _ (h.consistent.graph.size ▸ not_lt.mp hb)]
      rfl
  branch b hb hk := by
    rw [h.consistent.graph.size] at hb
    rw [h.consistent.graph.kind] at hk
    obtain ⟨u, a, -, ha, hend, -⟩ := h.branch hf hb hk
    exact ⟨a, ha, hend⟩
  ret b hb hk := by
    rw [h.consistent.graph.size] at hb
    rw [h.consistent.graph.kind] at hk
    obtain ⟨v, hv, hlt, hop, hblock, hnot, -⟩ := hf.ret b hb hk
    have hkin := h.consistent.kin v hlt
    refine ⟨v, ?_, hlt.trans_le h.consistent.size_le, hkin.op.trans hop,
      hkin.block.trans hblock, fun d hd => ?_, fun a ha => h.ret_reads hf hb hk hv ha⟩
    · rw [(h.closed hf hb).plain (by rw [hk]; decide), hv]
    · have hd' := (h.visited hf (h.lt_of_mem hd)).listed v (by rwa [h.valuesOf_eq]) hlt
      exact hnot d hd'

theorem branchesOnBool (hbool : f.BranchesOnBool) : t.func.BranchesOnBool := by
  intro b a hk ha
  have hb := h.consistent.graph.size ▸ lt_of_control ha
  rw [h.consistent.graph.kind] at hk
  obtain ⟨u, a', hu, ha', -, hty⟩ := h.branch hf hb hk
  rw [ha, Option.some_inj] at ha'
  rw [ha', hty]
  exact hbool b u hk hu

end Setting.Resolved

end SsaCodegen
