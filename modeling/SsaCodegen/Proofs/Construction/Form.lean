import SsaCodegen.Proofs.Construction.Entry
import SsaCodegen.Proofs.Construction.Finish

/-! What holds of a function when its construction succeeds: it is in SSA form. -/

namespace SsaCodegen

namespace Construction

open List Option

variable {t : Task} {s : Construction} {b : BlockId} {u v a : ValueId} {es pre : List Event}
  {ps lead back vs ws : List ValueId} {f : Func}

def Kept (s : Construction) (u : ValueId) : Prop :=
  (s.func.value u).op = .phi → u ∈ (s.pruned.block (s.func.value u).block).values

theorem Layout.mem_values (hl : s.Layout b ps lead back) : v ∈ (s.pruned.block b).values ↔
    v ∈ ps ∨ v ∈ s.func.body b ∨ b = s.func.entry ∧ v ∈ s.consts.map (·.2) := by
  rw [hl.values, hl.body]
  simp only [mem_append]
  split
  · next hb => tauto
  · next hb => tauto

section

variable (h : Complete t s)

include h

theorem Complete.const_op {c : ValueId} (hc : c ∈ s.consts.map (·.2)) :
    c < s.func.values.size ∧ (s.func.value c).op = .const ∧ (s.func.value c).block = s.func.entry ∧
      s.func.args c = [] := by
  obtain ⟨⟨key, c⟩, hmem, rfl⟩ := mem_map.mp hc
  obtain ⟨hlt, hop, -, hblock, hargs⟩ := h.rooted.consts key c hmem
  exact ⟨hlt, hop, hblock, hargs⟩

theorem Complete.mem_layout_phis (hl : s.Layout b ps lead back) (hv : v ∈ (s.pruned.block b).values)
    (hop : (s.func.value v).op = .phi) : v ∈ ps := by
  rcases hl.mem_values.mp hv with hps | hbody | ⟨-, hconst⟩
  · exact hps
  · exact absurd hop (Func.mem_body h.sound.shape hbody).2.2
  · exact absurd ((h.const_op hconst).2.1.symm.trans hop) (by decide)

theorem Complete.root_mem (hl : s.Layout s.func.entry ps lead back) (hr : s.IsRoot u) :
    u ∈ lead ∨ u ∈ s.consts.map (·.2) := by
  have hu := hr.lt
  have hinput : ((s.func.value u).op = .arg ∨ (s.func.value u).op = .resultPtr) → u ∈ lead := by
    intro hop
    have hmem := h.rooted.inputs u hu hop
    rw [hl.body] at hmem
    refine (mem_append.mp hmem).resolve_right fun hback => ?_
    have hlead := hl.back u hback
    rcases hop with hop | hop <;> rw [hop] at hlead <;> cases hlead
  rcases hr with hop | hop | hop
  · exact .inl (hinput (.inl hop))
  · exact .inl (hinput (.inr hop))
  · exact .inr (h.rooted.const u hu hop)

theorem Complete.root_placed (hr : s.IsRoot u) : u ∈ (s.pruned.block s.func.entry).values := by
  obtain ⟨ps, lead, back, hl⟩ := h.layout s.func.entry
  rw [hl.mem_values, hl.body]
  rcases h.root_mem hl hr with hmem | hmem
  · exact .inr (.inl (mem_append_left _ hmem))
  · exact .inr (.inr ⟨rfl, hmem⟩)

theorem Complete.host_placed {c : BlockId} (hc : s.Hosts c u) (hphi : s.Kept u) : u ∈ (s.pruned.block c).values := by
  obtain ⟨ps, lead, back, hl⟩ := h.layout c
  rcases hc with hbody | ⟨x, hx⟩
  · exact hl.mem_values.mpr (.inr (.inl hbody))
  · have hmem := hphi hx.op
    rw [hx.block] at hmem
    exact hmem

theorem Complete.before_of_provided (hl : s.Layout b ps lead back)
    (hvs : ∀ u, .value u ∈ pre → u ∈ lead ++ vs) (hphi : s.Kept u) (hp : s.Provided b pre u) :
    s.pruned.Before u b (ps ++ lead ++ (if b = s.func.entry then s.consts.map (·.2) else []) ++ vs) := by
  rcases hp with hr | hv | ⟨x, hx⟩ | ⟨c, hne, hc, hdom⟩
  · by_cases hb : b = s.func.entry
    · subst hb
      refine .inl ?_
      rcases h.root_mem hl hr with hmem | hmem <;> simp [hmem]
    · exact .inr ⟨s.func.entry, Ne.symm hb, h.root_placed hr, (s.func.dominates_entry b).congr (sameGraph_pruned s)⟩
  · refine .inl ?_
    have hmem := mem_append.mp (hvs u hv)
    rcases hmem with hmem | hmem <;> simp [hmem]
  · have hmem := hphi hx.op
    rw [hx.block] at hmem
    exact .inl (by simp [h.mem_layout_phis hl hmem hx.op])
  · exact .inr ⟨c, hne, h.host_placed hc hphi, hdom.congr (sameGraph_pruned s)⟩

theorem Complete.atEnd_of_provided (hfin : Finished t s b es) (hphi : s.Kept u)
    (hp : s.Provided b es u) : s.pruned.AtEnd u b := by
  rcases hp with hr | hv | hx | ⟨c, hne, hc, hdom⟩
  · exact ⟨s.func.entry, h.root_placed hr, (s.func.dominates_entry b).congr (sameGraph_pruned s)⟩
  · exact ⟨b, h.host_placed (.inl (hfin.script.mem_body hv)) hphi, Func.Dominates.refl _ b⟩
  · exact ⟨b, h.host_placed (.inr hx) hphi, Func.Dominates.refl _ b⟩
  · exact ⟨c, h.host_placed hc hphi, hdom.congr (sameGraph_pruned s)⟩

theorem Complete.atEnd_of_endsWith {x : Var} (hb : b < s.func.blocks.size) (hv : s.EndsWith x b v)
    (hphi : s.Kept (s.resolve v)) : s.pruned.AtEnd (s.resolve v) b := by
  rcases h.host_dominates hb hv with hr | ⟨c, hc, hdom⟩
  · exact ⟨s.func.entry, h.root_placed hr, (s.func.dominates_entry b).congr (sameGraph_pruned s)⟩
  · exact ⟨c, h.host_placed hc hphi, hdom.congr (sameGraph_pruned s)⟩

end

theorem Func.mem_args_cases (hop : (f.value v).op ≠ .phi) (ha : a ∈ f.args v) :
    a ∈ f.dataArgs v ∨ (f.value v).op.takesMem ∧ f.memArg? v = some a := by
  rw [Func.dataArgs, Func.memArg?, if_neg fun hc => hop hc.1]
  by_cases htakes : (f.value v).op.takesMem
  · rw [if_pos htakes, if_pos htakes]
    have hne := ne_nil_of_mem ha
    rw [← dropLast_append_getLast hne] at ha
    rcases mem_append.mp ha with ha | ha
    · exact .inl ha
    · rw [mem_singleton.mp ha]
      exact .inr ⟨htakes, getLast?_eq_some_getLast hne⟩
  · rw [if_neg htakes]
    exact .inl ha

theorem Func.mem_args_of_memArg? {m : ValueId} (hm : f.memArg? v = some m) : m ∈ f.args v := by
  rw [Func.memArg?] at hm
  split at hm
  · exact mem_of_getLast? hm
  · cases hm

theorem Op.not_leading_of_takesMem {op : Op} (h : op.takesMem) : op.isLeading = false ∧ op ≠ .const ∧ op ≠ .phi := by
  cases op <;> first | exact absurd h (by decide) | exact ⟨rfl, by decide, by decide⟩

theorem Script.split (h : Script t s b es) (hsplit : s.func.body b = vs ++ v :: ws) :
    ∃ pre post, es = pre ++ .value v :: post ∧ pre.filterMap Event.value? = vs := by
  rw [h.body] at hsplit
  obtain ⟨front, rest, rfl, rfl, hrest⟩ := filterMap_eq_append_iff.mp hsplit
  obtain ⟨skipped, e, post, rfl, hskip, he, -⟩ := filterMap_eq_cons_iff.mp hrest
  have hev : e = .value v := by
    cases e with
    | value w => rw [some.inj he]
    | store => cases he
    | load => cases he
    | node => cases he
  refine ⟨front ++ skipped, post, by rw [hev, append_assoc], ?_⟩
  rw [filterMap_append, filterMap_eq_nil_iff.mpr hskip, append_nil]

section

variable (h : Complete t s)

include h

theorem Complete.split_values (hl : s.Layout b ps lead back)
    (hsplit : (s.pruned.block b).values = vs ++ v :: ws) (hop : (s.func.value v).op ≠ .phi)
    (hreads : s.func.args v ≠ [] ∨ (s.func.value v).op.takesMem) : ∃ vs', back = vs' ++ v :: ws ∧
      vs = ps ++ lead ++ (if b = s.func.entry then s.consts.map (·.2) else []) ++ vs' := by
  have hnot : v ∉ ps ++ lead ++ (if b = s.func.entry then s.consts.map (·.2) else []) := by
    intro hmem
    rcases mem_append.mp hmem with hmem | hmem
    · rcases mem_append.mp hmem with hmem | hmem
      · obtain ⟨⟨x, hx⟩, -⟩ := (hl.phi v).mp hmem
        exact hop hx.op
      · obtain ⟨hlead, hnil⟩ := hl.lead v hmem
        rcases hreads with hargs | htakes
        · exact hargs hnil
        · exact absurd (hlead.symm.trans (Op.not_leading_of_takesMem htakes).1) nofun
    · split at hmem
      · obtain ⟨-, hconst, -, hnil⟩ := h.const_op hmem
        rcases hreads with hargs | htakes
        · exact hargs hnil
        · exact (Op.not_leading_of_takesMem htakes).2.1 hconst
      · cases hmem
  rw [hl.values] at hsplit
  rcases append_eq_append_iff.mp hsplit with ⟨vs', rfl, hback⟩ | ⟨mid, hmid, hrest⟩
  · exact ⟨vs', hback, rfl⟩
  · cases mid with
    | nil =>
      refine ⟨[], hrest.symm, ?_⟩
      rw [hmid, append_nil, append_nil]
    | cons w mid =>
      obtain ⟨rfl, -⟩ := List.cons.inj hrest
      exact absurd (mem_iff_append.mpr ⟨_, _, hmid⟩) hnot

theorem Complete.reads_before (hb : b < s.func.blocks.size)
    (hsplit : (s.pruned.block b).values = vs ++ v :: ws) (hop : (s.func.value v).op ≠ .phi)
    (ha : a ∈ s.pruned.args v) : s.pruned.Before a b vs := by
  have hplaced : s.Kept a := fun hphi => h.operand_placed ha hphi (.inr (by rw [hsplit]; simp))
  rw [args_pruned] at ha
  obtain ⟨a', ha', rfl⟩ := mem_map.mp ha
  obtain ⟨ps, lead, back, hl⟩ := h.layout b
  obtain ⟨vs', hback, rfl⟩ := h.split_values hl hsplit hop (.inl (ne_nil_of_mem ha'))
  obtain ⟨es, hfin⟩ := h.finished b hb
  obtain ⟨pre, post, rfl, hpre⟩ := hfin.script.split (hl.body.trans (by rw [hback, ← append_assoc]))
  obtain ⟨hav, hcur⟩ := h.provided hb hfin rfl
  have hp : s.Provided b pre (s.resolve a') := by
    cases hfin.script.follows pre _ post rfl with
    | value _ _ _ data memory =>
      rcases Func.mem_args_cases hop ha' with ha' | ⟨htakes, ha'⟩
      · exact hav a' (data a' ha')
      · obtain ⟨m, hm, hmem⟩ := memory htakes
        obtain rfl := some.inj (ha'.symm.trans hm)
        exact hcur .memory a' hmem
  refine h.before_of_provided hl (fun u hu => ?_) hplaced hp
  rw [← hpre]
  exact mem_filterMap.mpr ⟨_, hu, rfl⟩

omit h in
theorem spans_pruned (hs : s.func.Spans) : s.pruned.Spans :=
  hs.congr rfl (fun _ => rfl) Array.size_map

theorem Complete.mem_values_cases (hv : v ∈ (s.pruned.block b).values) :
    (∃ x, s.IsPhi v x b) ∨ v ∈ s.func.body b ∨ b = s.func.entry ∧ v ∈ s.consts.map (·.2) := by
  obtain ⟨ps, lead, back, hl⟩ := h.layout b
  exact (hl.mem_values.mp hv).imp (fun hp => ((hl.phi v).mp hp).1) id

theorem Complete.placed (hv : v ∈ (s.pruned.block b).values) :
    v < s.func.values.size ∧ (s.func.value v).block = b := by
  rcases h.mem_values_cases hv with ⟨x, hx⟩ | hbody | ⟨rfl, hc⟩
  · exact ⟨hx.lt, hx.block⟩
  · obtain ⟨hlt, hblk, -⟩ := Func.mem_body h.sound.shape hbody
    exact ⟨hlt, hblk⟩
  · obtain ⟨hlt, -, hblk, -⟩ := h.const_op hc
    exact ⟨hlt, hblk⟩

theorem Complete.nodup_values (b : BlockId) : (s.pruned.block b).values.Nodup := by
  obtain ⟨ps, lead, back, hl⟩ := h.layout b
  have hbody : (lead ++ back).Nodup := by
    rw [← hl.body]
    exact (h.sound.shape.nodup b).filter _
  obtain ⟨hlead, hback, hdisj⟩ := nodup_append.mp hbody
  have hphi : ∀ p ∈ ps, (s.func.value p).op = .phi := by
    intro p hp
    obtain ⟨⟨x, hx⟩, -⟩ := (hl.phi p).mp hp
    exact hx.op
  have hop : ∀ v ∈ lead ++ back, (s.func.value v).op ≠ .phi ∧ (s.func.value v).op ≠ .const := by
    intro v hv
    rw [← hl.body] at hv
    refine ⟨(Func.mem_body h.sound.shape hv).2.2, fun hc => ?_⟩
    have hlisted := h.rooted.listed b v hv
    rw [hc] at hlisted
    exact absurd hlisted (by decide)
  have hconst : ∀ v ∈ (if b = s.func.entry then s.consts.map (·.2) else []), (s.func.value v).op = .const := by
    intro v hv
    split at hv
    · exact (h.const_op hv).2.1
    · cases hv
  have hcs : (if b = s.func.entry then s.consts.map (·.2) else []).Nodup := by
    split
    · exact h.rooted.nodup
    · exact nodup_nil
  rw [hl.values, nodup_append, nodup_append, nodup_append]
  refine ⟨⟨⟨hl.phi_nodup, hlead, ?_⟩, hcs, ?_⟩, hback, ?_⟩
  · rintro v hv _ hw rfl
    exact (hop v (mem_append_left _ hw)).1 (hphi v hv)
  · rintro v hv _ hw rfl
    rcases mem_append.mp hv with hv | hv
    · have hc := hconst v hw
      rw [hphi v hv] at hc
      cases hc
    · exact (hop v (mem_append_left _ hv)).2 (hconst v hw)
  · rintro v hv _ hw rfl
    rcases mem_append.mp hv with hv | hv
    · rcases mem_append.mp hv with hv | hv
      · exact (hop v (mem_append_right _ hw)).1 (hphi v hv)
      · exact hdisj v hv v hw rfl
    · exact (hop v (mem_append_right _ hw)).2 (hconst v hv)

section

variable (hb : b < s.func.blocks.size) (hfin : Finished t s b es)

include hb hfin

theorem Complete.end_ret (hk : (s.func.block b).kind = .ret) : ∃ c, (s.pruned.block b).control = some c ∧
      c < s.func.values.size ∧ (s.func.value c).op = .ret ∧ (s.func.value c).block = b ∧
      (∀ d, c ∉ (s.pruned.block d).values) ∧ ∀ a ∈ s.pruned.args c, s.pruned.AtEnd a b := by
  obtain ⟨c, hc, hlt, hop, hblk, hdata, m, hm, hmem⟩ := hfin.closed.ret hk
  have hphi : (s.func.value c).op ≠ .phi := by rw [hop]; decide
  have hself := h.sound.resolve_not_phi hphi
  have hctl : (s.pruned.block b).control = some c := by
    rw [block_pruned]
    rw [hc, map_some, hself]
  obtain ⟨hav, hcur⟩ := h.provided hb hfin (append_nil es).symm
  refine ⟨c, hctl, hlt, hop, hblk, fun d hd => ?_, fun a ha => ?_⟩
  · rcases h.mem_values_cases hd with ⟨x, hx⟩ | hbody | ⟨-, hconst⟩
    · exact hphi hx.op
    · have hlisted := h.rooted.listed d c hbody
      rw [hop] at hlisted
      exact absurd hlisted (by decide)
    · have hcop := (h.const_op hconst).2.1
      rw [hop] at hcop
      cases hcop
  · have hplaced := fun hphi => h.operand_placed ha hphi (.inl hctl)
    rw [args_pruned] at ha
    obtain ⟨a', ha', rfl⟩ := mem_map.mp ha
    refine h.atEnd_of_provided hfin hplaced ?_
    rcases Func.mem_args_cases hphi ha' with ha' | ⟨-, ha'⟩
    · exact hav a' (hdata a' ha')
    · obtain rfl := some.inj (ha'.symm.trans hm)
      exact hcur .memory a' hmem

theorem Complete.end_branch (hk : (s.func.block b).kind = .branch) : ∃ c, (s.pruned.block b).control = some c ∧
      s.pruned.AtEnd c b ∧ (t.types.isMemoryAggregate TypeId.bool = false → (s.func.value c).ty = TypeId.bool) := by
  obtain ⟨c, hc, hav, hty⟩ := hfin.closed.branch hk
  have hctl : (s.pruned.block b).control = some (s.resolve c) := by
    rw [block_pruned]
    rw [hc, map_some]
  obtain ⟨hprov, -⟩ := h.provided hb hfin (append_nil es).symm
  refine ⟨s.resolve c, hctl, ?_, fun hbool => ?_⟩
  · exact h.atEnd_of_provided hfin (h.control_placed hctl) (hprov c hav)
  · rw [(h.sound.type_resolve hav.1).2 (by rw [hty hbool]; decide)]
    exact hty hbool

end

/-- What construction leaves behind is in SSA form. -/
theorem Complete.ssaForm : s.pruned.SsaForm := by
  have hgraph := sameGraph_pruned s
  refine ⟨h.flow.congr hgraph, spans_pruned h.sound.shape.spans, fun b v hv => h.placed hv,
    h.nodup_values, fun b => ?_, fun b p hp hop => ?_, fun b pre v post hsplit hop a ha => ?_,
    fun b p hp hop k q a hq ha => ?_, fun b hk => ?_, fun b hb hk => ?_, fun b hb hk => ?_⟩
  · obtain ⟨ps, lead, back, hl⟩ := h.layout b
    refine ⟨ps, lead ++ (if b = s.func.entry then s.consts.map (·.2) else []) ++ back,
      by rw [hl.values]; simp only [append_assoc], fun v hv => ?_, fun v hv => ?_⟩
    · obtain ⟨⟨x, hx⟩, -⟩ := (hl.phi v).mp hv
      exact hx.op
    · have hcases : v ∈ s.func.body b ∨ v ∈ (if b = s.func.entry then s.consts.map (·.2) else []) := by
        rw [hl.body]
        simp only [mem_append] at hv ⊢
        tauto
      rcases hcases with hbody | hc
      · exact (Func.mem_body h.sound.shape hbody).2.2
      · split at hc
        · rw [value_pruned, (h.const_op hc).2.1]
          decide
        · cases hc
  · obtain ⟨hlt, hblk⟩ := h.placed hp
    obtain ⟨-, -, hlen, htwo⟩ := h.sound.shape.phi p hlt hop
    rw [args_pruned, length_map, hgraph.preds, hlen, hblk]
    rw [hblk] at htwo
    exact ⟨rfl, htwo⟩
  · exact h.reads_before (hgraph.size ▸ Func.lt_of_mem_values (hsplit ▸ mem_append_cons_self)) hsplit hop ha
  · have hplaced := fun hphi => h.operand_placed (mem_of_getElem? ha) hphi (.inr hp)
    obtain ⟨hlt, hblk⟩ := h.placed hp
    obtain ⟨x, hx, -⟩ := h.sound.phi_var p hlt hop
    rw [hgraph.preds] at hq
    obtain ⟨-, a', ha', hends⟩ := h.known p x b ⟨hlt, hop, hblk, hx⟩ k q hq
    rw [args_pruned, getElem?_map, ha'] at ha
    obtain rfl := some.inj ha
    exact h.atEnd_of_endsWith (h.flow.pred_lt b q (mem_of_getElem? hq)) hends hplaced
  · rw [hgraph.kind] at hk
    rw [block_pruned]
    by_cases hb : b < s.func.blocks.size
    · obtain ⟨es, hfin⟩ := h.finished b hb
      rw [hfin.closed.plain hk]
      rfl
    · rw [Func.block_eq_default _ (not_lt.mp hb)]
      rfl
  · rw [hgraph.size] at hb
    rw [hgraph.kind] at hk
    obtain ⟨es, hfin⟩ := h.finished b hb
    obtain ⟨c, hc, hend, -⟩ := h.end_branch hb hfin hk
    exact ⟨c, hc, hend⟩
  · rw [hgraph.size] at hb
    rw [hgraph.kind] at hk
    obtain ⟨es, hfin⟩ := h.finished b hb
    exact h.end_ret hb hfin hk

theorem Complete.branchesOnBool (hbool : t.types.isMemoryAggregate TypeId.bool = false) :
    s.pruned.BranchesOnBool := by
  intro b c hk hc
  obtain ⟨es, hfin⟩ := h.finished b (h.mem_control_pruned hc).1
  rw [(sameGraph_pruned s).kind] at hk
  obtain ⟨c', hc', -, hty⟩ := h.end_branch (h.mem_control_pruned hc).1 hfin hk
  obtain rfl := some.inj (hc'.symm.trans hc)
  exact hty hbool

end

end Construction

def lowered (ir : Ir.Func) (types : TypeTable) : Except CompileError Construction := do
  let (_, s) ← (enter ir types).1.lowerAll.run (enter ir types).2
  return s

variable {ir : Ir.Func} {types : TypeTable} {built : Built}

theorem buildUnchecked_eq : buildUnchecked ir types =
    ((ir.checkLocals types).mapError (.outOfRange ir.name)).bind fun _ =>
      (lowered ir types).map Construction.finish := by
  rw [buildUnchecked, lowered]
  obtain ⟨t, s⟩ := enter ir types
  dsimp only
  cases t.lowerAll.run s <;> rfl

theorem lowered_of_buildSsa (h : buildSsa ir types = .ok built) :
    ir.Valid types ∧ ∃ s, lowered ir types = .ok s ∧ built = s.finish := by
  rw [buildSsa, except_bind_eq_ok, buildUnchecked_eq] at h
  obtain ⟨u, hu, h⟩ := h
  obtain ⟨w, hw, h⟩ := except_bind_eq_ok.mp h
  obtain ⟨s, hs, rfl⟩ := except_map_eq_ok.mp h
  exact ⟨Ir.Func.valid_of_validate hu, s, hs, rfl⟩

/-- A loop that counts its parameter down to zero and stores each count through a pointer. -/
def countdown : Ir.Func where
  name := "countdown"
  params := [TypeId.i64, TypeId.ptr]
  result := TypeId.i64
  locals := #[⟨"n", TypeId.i64⟩]
  blocks := #[⟨"entry", [0, 1], some (.jump 1)⟩, ⟨"head", [2, 3, 4], some (.branch 4 2 3)⟩,
    ⟨"body", [5, 6, 7, 8, 9, 10], some (.jump 1)⟩, ⟨"exit", [11], some (.ret (some 11))⟩]
  nodes := #[⟨TypeId.i64, .param 0⟩, ⟨TypeId.void, .storeLocal 0 0⟩,
    ⟨TypeId.i64, .loadLocal 0⟩, ⟨TypeId.i64, .const 0⟩, ⟨TypeId.bool, .cmp .sgt 2 3⟩,
    ⟨TypeId.i64, .loadLocal 0⟩, ⟨TypeId.i64, .const 1⟩, ⟨TypeId.i64, .binary .sub 5 6⟩,
    ⟨TypeId.void, .storeLocal 0 7⟩, ⟨TypeId.ptr, .param 1⟩, ⟨TypeId.void, .store 9 7⟩,
    ⟨TypeId.i64, .loadLocal 0⟩]

theorem exists_buildSsa_countdown : ∃ built, buildSsa countdown .builtins = .ok built := by
  obtain ⟨built, hbuilt, -⟩ := exists_ok_of_any (m := buildSsa countdown .builtins) (p := fun _ => true)
    (by decide +kernel)
  exact ⟨built, hbuilt⟩

theorem runs_of_lowered {s : Construction} (hs : lowered ir types = .ok s) :
    Runs (enter ir types).1.lowerAll (enter ir types).2 () s := by
  rw [lowered, except_bind_eq_ok] at hs
  obtain ⟨⟨u, s'⟩, hrun, hs'⟩ := hs
  rw [← Except.ok.inj hs']
  exact hrun

theorem task_enter (ir : Ir.Func) (types : TypeTable) : (enter ir types).1.ir = ir ∧
    (enter ir types).1.types = types ∧ (enter ir types).1.sources = ir.reachableBlocks.toArray := by
  exact ⟨rfl, rfl, rfl⟩

namespace Construction

variable {s : Construction}

theorem progress_of_lowered (hvalid : ir.Valid types) (hs : lowered ir types = .ok s) :
    Progress (enter ir types).1 s ∧ ∀ b, b < s.func.blocks.size → b ∈ s.filled ∧ b ∈ s.sealedBlocks := by
  have hstart : (enter ir types).2.filled = [] ∧ (enter ir types).2.incomplete = [] := by
    exact ⟨rfl, rfl⟩
  obtain ⟨hir, htypes, hsources⟩ := task_enter ir types
  have hvalid' : (enter ir types).1.ir.Valid (enter ir types).1.types := by
    exact hvalid
  exact Progress.lowerAll hvalid' (by exact hsources) (progress_enter hvalid) hstart.1 hstart.2 (runs_of_lowered hs)

theorem typed_of_lowered (htypes : types.Made) (hvalid : ir.Valid types) (hs : lowered ir types = .ok s) :
    s.Typed (enter ir types).1 := by
  refine (progress_of_lowered hvalid hs).1.typed ?_
  exact htypes

theorem complete_of_lowered (hvalid : ir.Valid types) (hs : lowered ir types = .ok s) :
    Complete (enter ir types).1 s := by
  obtain ⟨hprog, hall⟩ := progress_of_lowered hvalid hs
  refine hprog.complete ?_ hall
  exact hvalid

theorem sameGraph_finish (hvalid : ir.Valid types) (hs : lowered ir types = .ok s) :
    ir.skeleton.SameGraph s.finish.func := by
  obtain ⟨hprog, hall⟩ := progress_of_lowered hvalid hs
  have hgraph := hprog.graph
  rw [← (complete_of_lowered hvalid hs).collapse.func] at hgraph
  exact (hgraph.trans (sameGraph_pruned _)).trans (Func.sameGraph_recountUses _)

end Construction

end SsaCodegen
