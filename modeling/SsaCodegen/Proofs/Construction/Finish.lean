import SsaCodegen.Proofs.Construction.Collapse
import SsaCodegen.Proofs.SsaForm

/-! The finished function. Operands are read through the replacements, and phis that nothing needs are gone. -/

namespace SsaCodegen

open List Func OperandPool Option

theorem OperandPool.read_map (p : OperandPool) (g : ValueId → ValueId) (s : Span) :
    read (p.map g) s = (p.read s).map g := by
  rw [read, read, ← Array.map_extract, Array.toList_map]

namespace Construction

variable {t : Task} {s : Construction} {b : BlockId} {v p c a : ValueId}

theorem args_substitute (s : Construction) (v : ValueId) : s.substitute.args v = (s.func.args v).map s.resolve :=
  read_map s.func.operands s.resolve _

theorem block_substitute (s : Construction) (b : BlockId) : s.substitute.block b = { s.func.block b with
      values := (s.func.block b).values.filter (!s.isReplaced ·)
      control := (s.func.block b).control.map s.resolve } :=
  getD_map rfl

theorem Func.block_dropDeadPhis (f : Func) (b : BlockId) : f.dropDeadPhis.block b =
    { f.block b with values := (f.block b).values.filter fun v => (f.value v).op != .phi ||
      (reach f.phiArgs (List.range f.values.size) f.phiRoots).contains v } :=
  getD_map rfl

def merged (s : Construction) : Func := insertAfterLeading s.substitute (s.consts.map (·.2))

def Needed (s : Construction) (p : ValueId) : Prop :=
  p ∈ reach s.merged.phiArgs (List.range s.merged.values.size) s.merged.phiRoots

def pruned (s : Construction) : Func := s.merged.dropDeadPhis

section

variable (s : Construction)

theorem finish_func : s.finish.func = s.collapse.pruned.recountUses := rfl

theorem value_pruned (v : ValueId) : s.pruned.value v = s.func.value v := rfl

theorem args_pruned (v : ValueId) : s.pruned.args v = (s.func.args v).map s.resolve := args_substitute s v

theorem block_merged (b : BlockId) : ∃ values, s.merged.block b =
    { s.func.block b with values, control := (s.func.block b).control.map s.resolve } := by
  rw [merged, insertAfterLeading, block_modifyBlock, block_substitute]
  split
  · exact ⟨_, rfl⟩
  · exact ⟨_, rfl⟩

theorem block_pruned (b : BlockId) : s.pruned.block b = { s.func.block b with
      values := (s.merged.block b).values.filter fun v => (s.func.value v).op != .phi ||
        (reach s.merged.phiArgs (List.range s.merged.values.size) s.merged.phiRoots).contains v
      control := (s.func.block b).control.map s.resolve } := by
  obtain ⟨values, hblock⟩ := s.block_merged b
  rw [pruned, Func.block_dropDeadPhis, hblock]
  rfl

theorem sameGraph_pruned : s.func.SameGraph s.pruned := by
  refine ⟨rfl, ?_, fun b => ?_, fun b => ?_, fun b => ?_⟩
  · change (s.merged.blocks.map _).size = _
    rw [Array.size_map]
    change ((s.substitute.modifyBlock _ _).blocks).size = _
    rw [blocks_size_modifyBlock]
    exact Array.size_map ..
  · rw [block_pruned]
  · rw [block_pruned]
  · rw [block_pruned]

theorem control_merged (b : BlockId) : (s.merged.block b).control = (s.pruned.block b).control := by
  obtain ⟨values, hblock⟩ := s.block_merged b
  rw [hblock, block_pruned]

end

/-- How a block of the finished function is laid out: phis, inputs, constants, and the rest. -/
structure Layout (s : Construction) (b : BlockId) (ps lead back : List ValueId) : Prop where
  values : (s.pruned.block b).values = ps ++ lead ++ (if b = s.func.entry then s.consts.map (·.2) else []) ++ back
  body : s.func.body b = lead ++ back
  phi : ∀ p, p ∈ ps ↔ (∃ x, s.IsPhi p x b) ∧ s.forward.lookup p = none ∧ s.Needed p
  phi_nodup : ps.Nodup
  lead : ∀ v ∈ lead, (s.func.value v).op.isLeading ∧ s.func.args v = []
  back : ∀ v ∈ back, (s.func.value v).op.isLeading = false

section

variable (h : Complete t s)

include h

theorem Complete.mem_phis {ps rest : List ValueId} (hsplit : (s.func.block b).values = ps ++ rest)
    (hps : ∀ v ∈ ps, (s.func.value v).op = .phi) (hrest : ∀ v ∈ rest, (s.func.value v).op ≠ .phi) :
    p ∈ ps ↔ ∃ x, s.IsPhi p x b := by
  constructor
  · intro hp
    obtain ⟨hlt, hblock⟩ := h.sound.shape.placed b p (by rw [hsplit]; exact mem_append_left _ hp)
    obtain ⟨x, hx, -⟩ := h.sound.phi_var p hlt (hps p hp)
    exact ⟨x, hlt, hps p hp, hblock, hx⟩
  · rintro ⟨x, hp⟩
    obtain ⟨-, hmem, -⟩ := h.sound.shape.phi p hp.lt hp.op
    rw [hp.block, hsplit] at hmem
    exact (mem_append.mp hmem).resolve_right fun hr => hrest p hr hp.op

/-- The list of a block: the phis that stay, the inputs, the constants in the entry, and what has been lowered. -/
theorem Complete.values_merged (b : BlockId) : ∃ ps lead back, (s.merged.block b).values =
      ps ++ lead ++ (if b = s.func.entry then s.consts.map (·.2) else []) ++ back ∧
    s.func.body b = lead ++ back ∧
    (∀ p, p ∈ ps ↔ (∃ x, s.IsPhi p x b) ∧ s.forward.lookup p = none) ∧ ps.Nodup ∧
    (∀ v ∈ lead, (s.func.value v).op.isLeading ∧ s.func.args v = []) ∧
    ∀ v ∈ back, (s.func.value v).op.isLeading = false := by
  obtain ⟨ps, rest, hsplit, hps, hrest⟩ := h.sound.shape.phis_first b
  have hphi : ∀ p, p ∈ ps ↔ ∃ x, s.IsPhi p x b := fun p => h.mem_phis hsplit hps fun v hv => (hrest v hv).1
  have hunreplaced : ∀ v, (!s.isReplaced v) ↔ s.forward.lookup v = none := by
    intro v
    rw [Bool.not_eq_true', isReplaced, isSome_eq_false_iff, isNone_iff_eq_none]
  have hkeep : rest.filter (!s.isReplaced ·) = rest := by
    rw [filter_eq_self]
    intro v hv
    rw [hunreplaced]
    refine not_isSome_iff_eq_none.mp fun hr => (hrest v hv).1 ?_
    obtain ⟨x, c, hp, -⟩ := h.sound.replaced_known v hr
    exact hp.op
  have hbody : s.func.body b = rest := by
    rw [body, hsplit, filter_append, filter_eq_nil_iff.mpr, nil_append, filter_eq_self]
    · exact fun v hv => bne_iff_ne.mpr (hrest v hv).1
    · intro v hv
      rw [hps v hv]
      decide
  have hnodup : ps.Nodup := by
    have := h.sound.shape.nodup b
    rw [hsplit] at this
    exact (nodup_append.mp this).1
  by_cases hentry : b = s.func.entry
  · subst hentry
    obtain ⟨lead, back, hparts, hlead, hback⟩ := h.rooted.first
    have hnil : ps = [] := by
      rw [eq_nil_iff_forall_not_mem]
      intro p hp
      obtain ⟨x, hx⟩ := (hphi p).mp hp
      obtain ⟨-, -, -, htwo⟩ := h.sound.shape.phi p hx.lt hx.op
      rw [hx.block, h.flow.entry_preds] at htwo
      exact absurd htwo (by decide)
    refine ⟨[], lead, back, ?_, hparts, fun p => ?_, nodup_nil, hlead, hback⟩
    · have hvalues : (s.substitute.block s.func.entry).values = lead ++ back := by
        rw [block_substitute, ← hparts, hbody]
        rw [hsplit, hnil, nil_append, hkeep]
      have htake : (lead ++ back).takeWhile (fun v => (s.substitute.value v).op.isLeading) = lead := by
        change (lead ++ back).takeWhile (fun v => (s.func.value v).op.isLeading) = lead
        rw [takeWhile_append_of_pos fun v hv => (hlead v hv).1]
        cases back with
        | nil => simp
        | cons v back =>
          have hv := hback v mem_cons_self
          rw [takeWhile_cons_of_neg (by rw [hv]; exact Bool.false_ne_true), append_nil]
      change ((s.substitute.modifyBlock s.func.entry _).block s.func.entry).values = _
      rw [block_modifyBlock_self]
      · dsimp only
        rw [hvalues, htake, drop_left, if_pos rfl, nil_append]
      · change _ < (s.func.blocks.map _).size
        rw [Array.size_map]
        exact h.flow.entry_lt
    · rw [← hnil, hphi]
      exact ⟨fun hx => absurd ((hphi p).mpr hx) (by rw [hnil]; exact not_mem_nil), And.left⟩
  · refine ⟨ps.filter (!s.isReplaced ·), [], rest, ?_, ?_, fun p => ?_, hnodup.filter _,
      forall_mem_nil _, fun v hv => ?_⟩
    · have hne : s.substitute.entry ≠ b := Ne.symm hentry
      rw [merged, insertAfterLeading, block_modifyBlock_other _ _ hne, block_substitute,
        if_neg hentry, append_nil, append_nil]
      rw [hsplit, filter_append, hkeep]
    · rw [hbody]
      rfl
    · rw [mem_filter, hphi, hunreplaced]
    · rw [← Bool.not_eq_true]
      exact fun hl => hentry ((hrest v hv).2 hl)

theorem Complete.layout (b : BlockId) : ∃ ps lead back, s.Layout b ps lead back := by
  obtain ⟨ps, lead, back, hvalues, hbody, hphi, hnodup, hlead, hback⟩ := h.values_merged b
  have hkeep : ∀ vs : List ValueId, (∀ v ∈ vs, (s.func.value v).op ≠ .phi) →
      vs.filter (fun v => (s.func.value v).op != .phi ||
        (reach s.merged.phiArgs (List.range s.merged.values.size) s.merged.phiRoots).contains v) =
        vs := by
    intro vs hvs
    rw [filter_eq_self]
    intro v hv
    rw [bne_iff_ne.mpr (hvs v hv), Bool.true_or]
  have hbody_op : ∀ v ∈ lead ++ back, (s.func.value v).op ≠ .phi := by
    intro v hv
    rw [← hbody] at hv
    exact (mem_body h.sound.shape hv).2.2
  have hconst_op : ∀ v ∈ (if b = s.func.entry then s.consts.map (·.2) else []), (s.func.value v).op ≠ .phi := by
    intro v hv
    split at hv
    · obtain ⟨⟨key, c⟩, hc, rfl⟩ := mem_map.mp hv
      rw [(h.rooted.consts key c hc).2.1]
      decide
    · cases hv
  refine ⟨ps.filter fun v => (reach s.merged.phiArgs (List.range s.merged.values.size)
    s.merged.phiRoots).contains v, lead, back, ?_, hbody, fun p => ?_, hnodup.filter _, hlead, hback⟩
  · rw [block_pruned]
    dsimp only
    rw [hvalues, filter_append, filter_append, filter_append,
      hkeep lead fun v hv => hbody_op v (mem_append_left _ hv), hkeep _ hconst_op,
      hkeep back fun v hv => hbody_op v (mem_append_right _ hv)]
    congr 3
    refine filter_congr fun p hp => ?_
    obtain ⟨⟨x, hx⟩, -⟩ := (hphi p).mp hp
    rw [hx.op]
    rfl
  · rw [mem_filter, hphi, contains_iff_mem, and_assoc]
    rfl

theorem Complete.resolve_lt (hv : v < s.func.values.size) : s.resolve v < s.func.values.size :=
  (h.sound.type_resolve hv).1

theorem Complete.control_lt (hc : (s.func.block b).control = some c) :
    b < s.func.blocks.size ∧ c < s.func.values.size := by
  have hb := lt_of_control hc
  obtain ⟨es, hfin⟩ := h.finished b hb
  refine ⟨hb, ?_⟩
  cases hk : (s.func.block b).kind with
  | plain =>
    rw [hfin.closed.plain hk] at hc
    cases hc
  | branch =>
    obtain ⟨c', hc', hav, -⟩ := hfin.closed.branch hk
    rw [hc'] at hc
    rw [← some.inj hc]
    exact hav.1
  | ret =>
    obtain ⟨c', hc', hlt, -⟩ := hfin.closed.ret hk
    rw [hc'] at hc
    rw [← some.inj hc]
    exact hlt

theorem Complete.mem_args_pruned (ha : a ∈ s.pruned.args v) : a < s.func.values.size ∧ s.forward.lookup a = none := by
  rw [args_pruned] at ha
  obtain ⟨a', ha', rfl⟩ := mem_map.mp ha
  refine ⟨h.resolve_lt ?_, h.sound.lookup_resolve a'⟩
  by_cases hv : v < s.func.values.size
  · exact h.sound.shape.args_lt v hv a' ha'
  · rw [args_eq_nil _ (not_lt.mp hv)] at ha'
    cases ha'

theorem Complete.mem_control_pruned (hc : (s.pruned.block b).control = some c) :
    b < s.func.blocks.size ∧ c < s.func.values.size ∧ s.forward.lookup c = none := by
  rw [block_pruned] at hc
  obtain ⟨c', hc', rfl⟩ := map_eq_some_iff.mp hc
  obtain ⟨hb, hlt⟩ := h.control_lt hc'
  exact ⟨hb, h.resolve_lt hlt, h.sound.lookup_resolve c'⟩

omit h in
theorem mem_phiRoots : p ∈ s.merged.phiRoots ↔ (s.func.value p).op = .phi ∧
    ∃ b, b < s.func.blocks.size ∧ ((s.pruned.block b).control = some p ∨
      ∃ r, p ∈ s.pruned.args r ∧ ((s.pruned.block b).control = some r ∨
        r ∈ (s.merged.block b).values ∧ (s.func.value r).op ≠ .phi)) := by
  have hsize : s.merged.blocks.size = s.func.blocks.size := by
    change ((s.substitute.modifyBlock _ _).blocks).size = _
    rw [blocks_size_modifyBlock]
    exact Array.size_map ..
  have hread : ∀ r, p ∈ s.merged.phiArgs r ↔ p ∈ s.pruned.args r ∧ (s.func.value p).op = .phi := by
    intro r
    rw [phiArgs, mem_filter, beq_iff_eq]
    rfl
  have hop : ∀ r, (s.merged.value r).op = (s.func.value r).op := fun _ => rfl
  simp only [phiRoots, mem_flatMap, blockIds, mem_range, hsize, mem_append,
    mem_filter, mem_toList, control_merged, hread, hop, bne_iff_ne, beq_iff_eq]
  constructor
  · rintro ⟨b, hb, ⟨r, hr, hpr, hphi⟩ | ⟨hc, hphi⟩⟩
    · exact ⟨hphi, b, hb, .inr ⟨r, hpr, hr.symm⟩⟩
    · exact ⟨hphi, b, hb, .inl hc⟩
  · rintro ⟨hphi, b, hb, hc | ⟨r, hpr, hr⟩⟩
    · exact ⟨b, hb, .inr ⟨hc, hphi⟩⟩
    · exact ⟨b, hb, .inl ⟨r, hr.symm, hpr, hphi⟩⟩

theorem Complete.needed_iff : s.Needed p ↔ ∃ r ∈ s.merged.phiRoots, Leads s.merged.phiArgs r p := by
  have hargs : ∀ v a, a ∈ s.merged.phiArgs v → a ∈ List.range s.merged.values.size := fun v a ha =>
    mem_range.mpr (h.mem_args_pruned (mem_filter.mp ha).1).1
  refine mem_reach_iff (fun r hr => ?_) fun v _ a ha => hargs v a ha
  obtain ⟨-, b, -, hc | ⟨v, hv, -⟩⟩ := mem_phiRoots.mp hr
  · exact mem_range.mpr (h.mem_control_pruned hc).2.1
  · exact mem_range.mpr (h.mem_args_pruned hv).1

theorem Complete.phi_placed (hv : v < s.func.values.size) (hself : s.forward.lookup v = none)
    (hop : (s.func.value v).op = .phi) (hneeded : s.Needed v) :
    v ∈ (s.pruned.block (s.func.value v).block).values := by
  obtain ⟨ps, lead, back, hl⟩ := h.layout (s.func.value v).block
  obtain ⟨x, hx, -⟩ := h.sound.phi_var v hv hop
  rw [hl.values]
  have hmem := (hl.phi v).mpr ⟨⟨x, hv, hop, rfl, hx⟩, hself, hneeded⟩
  simp [hmem]

theorem Complete.control_placed (hc : (s.pruned.block b).control = some c)
    (hop : (s.func.value c).op = .phi) : c ∈ (s.pruned.block (s.func.value c).block).values := by
  obtain ⟨hb, hlt, hself⟩ := h.mem_control_pruned hc
  exact h.phi_placed hlt hself hop (h.needed_iff.mpr ⟨c, mem_phiRoots.mpr ⟨hop, b, hb, .inl hc⟩, .refl⟩)

theorem Complete.operand_placed {r : ValueId} (ha : a ∈ s.pruned.args r) (hop : (s.func.value a).op = .phi)
    (hr : (s.pruned.block b).control = some r ∨ r ∈ (s.pruned.block b).values) :
    a ∈ (s.pruned.block (s.func.value a).block).values := by
  obtain ⟨hlt, hself⟩ := h.mem_args_pruned ha
  refine h.phi_placed hlt hself hop (h.needed_iff.mpr ?_)
  have hroot : b < s.func.blocks.size → ((s.pruned.block b).control = some r ∨
      r ∈ (s.merged.block b).values ∧ (s.func.value r).op ≠ .phi) →
      ∃ q ∈ s.merged.phiRoots, Leads s.merged.phiArgs q a := fun hb hr =>
    ⟨a, mem_phiRoots.mpr ⟨hop, b, hb, .inr ⟨r, ha, hr⟩⟩, .refl⟩
  rcases hr with hc | hr
  · exact hroot (h.mem_control_pruned hc).1 (.inl hc)
  · have hb := (sameGraph_pruned s).size ▸ lt_of_mem_values hr
    rw [block_pruned] at hr
    obtain ⟨hmem, hkept⟩ := mem_filter.mp hr
    by_cases hphi : (s.func.value r).op = .phi
    · rw [hphi] at hkept
      obtain ⟨q, hq, hqr⟩ := h.needed_iff.mp (contains_iff_mem.mp hkept)
      exact ⟨q, hq, hqr.tail (mem_filter.mpr ⟨ha, beq_iff_eq.mpr hop⟩)⟩
    · exact hroot hb (.inr ⟨hmem, hphi⟩)

end

end Construction

end SsaCodegen
