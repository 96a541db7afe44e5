import SsaCodegen.Proofs.CriticalEdges

/-! Splitting critical edges is exact, and a function that passes the checks still passes them. -/

namespace SsaCodegen.Func

open List DomTree

variable {f g : Func} {p c b : BlockId} {i j : Nat}

/-! The checks of a function with an empty block on one of its edges. -/

namespace Splits

variable (h : Splits f g p c i j)

include h

theorem checkValues (hb : b ≠ f.blocks.size) (leading : Bool) (vs : List ValueId) :
    g.checkValues b leading vs = f.checkValues b leading vs := by
  induction vs generalizing leading with
  | nil => rfl
  | cons v vs ih =>
    rw [Func.checkValues, Func.checkValues]
    simp only [h.value, h.preds_length hb, ih]

theorem checkCfg (hf : f.Balanced) (hcheck : f.checkCfg = .ok ()) : g.checkCfg = .ok () := by
  refine checkCfg_eq_ok.mpr fun b hb => ?_
  by_cases hn : b = f.blocks.size
  · obtain ⟨name, hnew⟩ := h.new
    refine (h.balanced hf).checkBlock ?_ ?_ ?_ <;> rw [hn, hnew] <;> rfl
  · obtain ⟨hkind, hfits, -, -, hvalues⟩ := checkBlock_eq_ok (checkCfg_eq_ok.mp hcheck b (h.old_lt hb hn))
    refine (h.balanced hf).checkBlock ?_ ?_ ?_
    · rw [h.succs_length hn, h.kind, hkind]
    · rw [controlFits] at hfits ⊢
      simpa only [h.kind, h.control, h.value] using hfits
    · rw [h.block_values, h.checkValues hn]
      exact hvalues

theorem positions : g.positions = f.positions := by
  rw [Func.positions, blockIds, h.size, range_succ, foldl_append, h.values_eq]
  simp only [h.block_values, foldl_cons, f.block_eq_default le_rfl]
  rfl

/-- What is read in a block is read where it was, but for what comes over the edge: that is read in the new
block. -/
theorem blockReads {e : ValueId × Place} (he : e ∈ g.blockReads b) : e ∈ f.blockReads b ∨
    e.2 = ⟨f.blocks.size, none⟩ ∧ (e.1, ⟨p, none⟩) ∈ f.blockReads b := by
  have hcontrol : g.controlReads b = f.controlReads b := by
    simp only [controlReads, h.control, h.kind, funext h.args]
  simp only [Func.blockReads, h.block_values, hcontrol, mem_append, mem_flatMap, Prod.exists] at he ⊢
  rcases he with ⟨v, k, hv, he⟩ | he
  · have hb := (lt_of_mem_values (mem_of_getElem? (mem_zipIdx_iff_getElem?.mp hv))).ne
    rw [valueReads, h.value, h.args] at he
    by_cases hop : (f.value v).op = .phi
    · rw [if_pos hop] at he
      obtain ⟨⟨a, l⟩, hal, rfl⟩ := mem_map.mp he
      have hf : (a, ⟨(f.block b).preds.getD l 0, none⟩) ∈ f.valueReads b v k := by
        rw [valueReads, if_pos hop]
        exact mem_map.mpr ⟨(a, l), hal, rfl⟩
      dsimp only
      rw [h.preds_old hb]
      by_cases hsplit : b = c ∧ j = l
      · obtain ⟨rfl, rfl⟩ := hsplit
        rw [getD_eq_getElem?_getD, h.into] at hf
        rw [if_pos rfl, getD_eq_getElem?_getD, getElem?_set_self (List.getElem?_eq_some_iff.mp h.into).1]
        exact .inr ⟨rfl, .inl ⟨v, k, hv, hf⟩⟩
      · have hsame : (if b = c then (f.block b).preds.set j f.blocks.size else (f.block b).preds).getD l 0 =
            (f.block b).preds.getD l 0 := by
          split
          · next hbc => simp only [getD_eq_getElem?_getD, getElem?_set_ne fun hjl => hsplit ⟨hbc, hjl⟩]
          · rfl
        rw [hsame]
        exact .inl (.inl ⟨v, k, hv, hf⟩)
    · rw [if_neg hop] at he
      refine .inl (.inl ⟨v, k, hv, ?_⟩)
      rw [valueReads, if_neg hop]
      exact he
  · exact .inl (.inr he)

theorem entry_lt (hreach : ∀ b < f.blocks.size, f.Reachable b) : f.entry < f.blocks.size := by
  by_cases hp : p = f.entry
  · exact hp ▸ h.source_lt
  · exact (hreach p h.source_lt).entry_lt hp

theorem checkDominance (hf : f.Balanced) (hreach : ∀ b < f.blocks.size, f.Reachable b)
    (hcheck : f.checkDominance (compute f) = .ok ()) : g.checkDominance (compute g) = .ok () := by
  have hentry := h.entry_lt hreach
  have hg := (h.balanced hf).linked
  rw [hf.linked.checkDominance_eq_ok] at hcheck
  rw [hg.checkDominance_eq_ok]
  intro b a place _ hread
  have hold : ∀ e ∈ f.blockReads b, f.Reachable b := by
    refine fun e he => hreach b (not_le.mp fun hge => ?_)
    rw [Func.blockReads, controlReads, f.block_eq_default hge] at he
    cases he
  rw [h.positions]
  rcases h.blockReads hread with hread | ⟨hplace, hread⟩
  · obtain ⟨⟨d, k⟩, hpos, hav⟩ := (Option.any_eq_true ..).mp (hcheck b a place (hold _ hread) hread)
    refine (Option.any_eq_true ..).mpr ⟨⟨d, k⟩, hpos, ?_⟩
    rw [availableAt] at hav ⊢
    split at hav
    · next hd => rwa [if_pos hd]
    · next hd =>
      obtain ⟨hrd, hrb, hdom⟩ := (dominates_compute_iff hf.linked).mp hav
      rw [if_neg hd, dominates_compute_iff hg]
      refine ⟨h.reachable hrd, h.reachable hrb, h.dominates hf hentry (Nat.ne_of_lt ?_) hdom⟩
      by_cases he : place.block = f.entry
      · exact he ▸ hentry
      · exact hf.linked.lt hrb he
  · -- what was available at the end of `p` is available in the block after it
    obtain ⟨⟨d, k⟩, hpos, hav⟩ := (Option.any_eq_true ..).mp (hcheck b a ⟨p, none⟩ (hold _ hread) hread)
    refine (Option.any_eq_true ..).mpr ⟨⟨d, k⟩, hpos, ?_⟩
    obtain rfl : place = ⟨f.blocks.size, none⟩ := hplace
    have hdom : f.Reachable d ∧ f.Dominates d p := by
      rw [availableAt] at hav
      split at hav
      · next hd =>
        obtain rfl : d = p := hd
        exact ⟨hreach d h.source_lt, Dominates.refl f d⟩
      · exact ((dominates_compute_iff hf.linked).mp hav).imp id And.right
    rw [availableAt]
    split
    · rfl
    · rw [dominates_compute_iff hg]
      exact ⟨h.reachable hdom.1, (h.reachable (hreach p h.source_lt)).tail h.new_mem_succs.1,
        h.dominates_new hf hentry hdom.2⟩

theorem checkUseCounts (hcheck : f.checkUseCounts = .ok ()) : g.checkUseCounts = .ok () := by
  have hrefs : g.blockIds.flatMap g.blockRefs = f.blockIds.flatMap f.blockRefs := by
    have hblock : g.blockRefs = f.blockRefs := by
      funext b
      rw [blockRefs, blockRefs, h.block_values, h.control, funext h.args]
    rw [hblock, blockIds, h.size, range_succ, flatMap_append, flatMap_singleton, blockRefs, f.block_eq_default le_rfl]
    exact append_nil _
  rw [checkUseCounts_eq_ok] at hcheck ⊢
  rw [h.values_eq, hrefs]
  simpa only [h.value] using hcheck

theorem verify (hf : f.Balanced) (hreach : ∀ b < f.blocks.size, f.Reachable b) (hcheck : f.verify = .ok ()) :
    g.verify = .ok () := by
  obtain ⟨u, hcfg, hcheck⟩ := except_bind_eq_ok.mp hcheck
  obtain ⟨u', hdom, huses⟩ := except_bind_eq_ok.mp hcheck
  rw [Func.verify, h.checkCfg hf hcfg, h.checkUseCounts huses]
  exact except_bind_eq_ok.mpr ⟨(), rfl, except_bind_eq_ok.mpr ⟨(), h.checkDominance hf hreach hdom, rfl⟩⟩

end Splits

instance (f : Func) (b c : BlockId) : Decidable (f.Critical b c) := inferInstanceAs (Decidable (_ ∧ _))

def edges (f : Func) : List (BlockId × BlockId) := f.blockIds.flatMap fun b => (f.block b).succs.map (b, ·)

/-- The critical edges are those out of blocks with a choice whose targets are crowded. -/
theorem countP_choices (f : Func) : f.choices.countP f.crowded = f.edges.countP fun e => f.Critical e.1 e.2 := by
  rw [choices, edges, countP_flatMap, countP_flatMap]
  congr 1
  refine map_congr_left fun b _ => ?_
  simp only [Function.comp_apply]
  split
  · next hlen =>
    symm
    rw [countP_nil, countP_eq_zero]
    intro e he
    obtain ⟨c, -, rfl⟩ := mem_map.mp he
    exact fun hcrit => not_lt.mpr (of_decide_eq_true hcrit).1 hlen
  · next hlen =>
    have hsuccs : (List.range (f.block b).succs.length).map (fun k => (f.block b).succs.getD k 0) =
        (f.block b).succs := by
      refine ext_getElem (by simp) fun k hk hk' => ?_
      simp [getD_eq_getElem?_getD, getElem?_eq_getElem hk']
    conv_rhs => rw [← hsuccs]
    rw [countP_map, map_map, countP_map]
    refine countP_congr fun k _ => ?_
    simp [crowded, Critical, not_lt.mp hlen]

theorem criticalEdgeCount_eq (hf : f.Balanced) :
    f.criticalEdgeCount = f.edges.countP fun e => f.Critical e.1 e.2 := by
  obtain ⟨hs, -⟩ := splitting_splitCriticalEdges hf (fun _ => True) (fun _ _ _ _ _ _ _ _ _ => trivial) trivial
  rw [← countP_choices]
  exact Nat.add_left_cancel (f.split_eq.2.symm.trans hs.size)

theorem criticalEdgeCount_split (hf : f.Balanced) : f.splitCriticalEdges.criticalEdgeCount = 0 := by
  obtain ⟨hs, hg, -⟩ := splitting_splitCriticalEdges hf (fun _ => True) (fun _ _ _ _ _ _ _ _ _ => trivial) trivial
  rw [criticalEdgeCount_eq hg, countP_eq_zero]
  intro e he hcrit
  obtain ⟨b, -, hb⟩ := mem_flatMap.mp he
  obtain ⟨c, hc, rfl⟩ := mem_map.mp hb
  exact hs.not_critical hf hc (of_decide_eq_true hcrit)

/-- Nothing of `f` is different in `g` but where the edges of its blocks lead. -/
structure Reroutes (f g : Func) : Prop where
  frame : g = { f with blocks := g.blocks }
  size : f.blocks.size ≤ g.blocks.size
  inside : ∀ b < f.blocks.size, g.block b =
    { f.block b with succs := (g.block b).succs, preds := (g.block b).preds }

theorem Reroutes.step {g' : Func} (h : f.Reroutes g) (hs : Splits g g' p c i j) : f.Reroutes g' where
  frame := by
    rw [hs.frame, h.frame]
  size := h.size.trans (hs.size ▸ Nat.le_succ _)
  inside b hb := by
    rw [hs.old b (hb.trans_le h.size).ne, h.inside b hb]

/-- Splitting puts an empty block on each critical edge and on no other, as many as it tells. The values, their
operands and what the blocks hold stay, edges keep their places at both ends, each on its way through its own
block, and no critical edge is left. A function all of whose blocks can be reached passes the checks after it
if it passed them before. -/
theorem splitCriticalEdges_is_transparent (hf : f.Balanced) :
    (∀ b c, c ∈ (f.splitCriticalEdges.block b).succs → ¬f.splitCriticalEdges.Critical b c) ∧
    f.splitCriticalEdges.criticalEdgeCount = 0 ∧
    f.criticalEdgeCount = f.edges.countP (fun e => f.Critical e.1 e.2) ∧
    f.splitCriticalEdges.Balanced ∧ f.Reroutes f.splitCriticalEdges ∧
    (∀ m, f.blocks.size ≤ m → m < f.splitCriticalEdges.blocks.size → ∃ p c name,
      f.splitCriticalEdges.block m = ⟨.plain, [], none, [p], [c], name⟩) ∧
    (∀ b, b < f.blocks.size → (f.splitCriticalEdges.block b).succs.length = (f.block b).succs.length ∧
      (f.splitCriticalEdges.block b).preds.length = (f.block b).preds.length) ∧
    (∀ p i c, (f.block p).succs[i]? = some c → ∃ j, f.Edge p i c j) ∧
    (∀ c j p, (f.block c).preds[j]? = some p → ∃ i, f.Edge p i c j) ∧
    (∀ p i c j, f.Edge p i c j → if f.Critical p c then ∃ m, f.Passes f.splitCriticalEdges p i c j m
      else (f.splitCriticalEdges.block p).succs[i]? = some c ∧ (f.splitCriticalEdges.block c).preds[j]? = some p) ∧
    ((∀ b < f.blocks.size, f.Reachable b) → f.verify = .ok () → f.splitCriticalEdges.verify = .ok ()) := by
  obtain ⟨hs, hg, hverify⟩ := splitting_splitCriticalEdges hf
    (fun g => (∀ b < f.blocks.size, f.Reachable b) → f.verify = .ok () →
      (∀ b < g.blocks.size, g.Reachable b) ∧ g.verify = .ok ())
    (fun _ _ _ _ _ _ hsp hg h hreach hcheck => ⟨hsp.all_reachable (h hreach hcheck).1,
      hsp.verify hg (h hreach hcheck).1 (h hreach hcheck).2⟩) fun hreach hcheck => ⟨hreach, hcheck⟩
  have hframe := (splitting_splitCriticalEdges hf f.Reroutes (fun _ _ _ _ _ _ hsp _ h => h.step hsp)
    ⟨rfl, le_rfl, fun _ _ => rfl⟩).2.2
  refine ⟨fun b c => hs.not_critical hf, criticalEdgeCount_split hf, criticalEdgeCount_eq hf, hg, hframe, hs.added,
    hs.lengths, fun p i c => hf.exists_edge_out, fun c j p => hf.exists_edge_into, fun p i c j he => ?_,
    fun hreach hcheck => (hverify hreach hcheck).2⟩
  have hlt := (List.getElem?_eq_some_iff.mp he.out).1
  split
  · next hcrit => exact hs.split p i c j he (mem_choices.mpr ⟨he.source_lt, hcrit.1, hlt⟩) hcrit.2
  · next hcrit =>
    exact hs.whole p i c j he fun hd => hcrit ⟨(mem_choices.mp hd.1).2.1, hd.2⟩

theorem balanced_iff : f.Balanced ↔
    (∀ b < f.blocks.size, ∀ c ∈ (f.block b).succs, (f.block c).preds.count b = (f.block b).succs.count c) ∧
      ∀ c < f.blocks.size, ∀ b ∈ (f.block c).preds, (f.block c).preds.count b = (f.block b).succs.count c := by
  refine ⟨fun h => ⟨fun b _ c _ => h.count b c, fun c _ b _ => h.count b c⟩, fun ⟨hsuccs, hpreds⟩ => ⟨fun b c => ?_⟩⟩
  by_cases hc : c ∈ (f.block b).succs
  · exact hsuccs b (lt_of_mem_succs hc) c hc
  · by_cases hb : b ∈ (f.block c).preds
    · exact hpreds c (lt_of_mem_preds hb) b hb
    · rw [count_eq_zero.mpr hc, count_eq_zero.mpr hb]

instance (f : Func) : Decidable f.Balanced := decidable_of_iff _ balanced_iff.symm

/-- Both edges out of the entry lead to a loop of one block. -/
def spin : Func :=
  { Func.new "" [] TypeId.void with
    values := #[
      ⟨.initMem, TypeId.mem, ⟨0, 0⟩, .none, 1, 0, none⟩,
      ⟨.const, TypeId.bool, ⟨0, 0⟩, .int 1, 3, 0, none⟩,
      ⟨.phi, TypeId.bool, ⟨0, 3⟩, .none, 2, 1, none⟩,
      ⟨.ret, TypeId.void, ⟨3, 1⟩, .none, 1, 2, none⟩]
    operands := #[1, 1, 2, 0]
    blocks := #[
      ⟨.branch, [0, 1], some 1, [], [1, 1], ""⟩,
      ⟨.branch, [2], some 2, [0, 0, 1], [1, 2], ""⟩,
      ⟨.ret, [], some 3, [1], [], ""⟩] }

/-- The second of two parallel edges keeps the second place at its target. -/
theorem spin_split_transparent : spin.Balanced ∧ spin.criticalEdgeCount = 3 ∧
    spin.splitCriticalEdges.args 2 = spin.args 2 ∧ (∃ m, spin.Passes spin.splitCriticalEdges 0 1 1 1 m) ∧
    spin.splitCriticalEdges.verify = .ok () := by
  have hf : spin.Balanced := by decide
  obtain ⟨-, -, hcount, -, hsame, -, -, -, -, hedges, hverify⟩ := splitCriticalEdges_is_transparent hf
  have hreach : ∀ b < spin.blocks.size, spin.Reachable b := fun b hb =>
    mem_reversePostorder_iff.mp ((by decide : ∀ b < spin.blocks.size, b ∈ spin.reversePostorder) b hb)
  have hedge := hedges 0 1 1 1 ⟨rfl, rfl, rfl⟩
  rw [if_pos (by decide)] at hedge
  exact ⟨hf, hcount, by rw [hsame.frame]; rfl, hedge, hverify hreach (by decide +kernel)⟩

end SsaCodegen.Func
