import Mathlib.Data.List.TakeWhile
import Mathlib.Order.Bounds.Defs
import SsaCodegen.Proofs.DominatorTree

/-! Dominance frontiers. A walk that leaves a block which dominates the way so far stays under its dominance
until it enters the frontier. -/

namespace SsaCodegen

open List DomTree

namespace Func

variable {f : Func} {a b z : BlockId}

/-- `a` dominates an edge into `b`, but does not strictly dominate `b`. -/
structure OnFrontier (f : Func) (a b : BlockId) : Prop where
  reachable : f.Reachable a
  pred : ∃ p ∈ (f.block b).preds, f.Reachable p ∧ f.Dominates a p
  outside : ¬f.StrictlyDominates a b

theorem ne_entry_of_mem_preds (hentry : (f.block f.entry).preds = []) (hz : z ∈ (f.block b).preds) : b ≠ f.entry := by
  rintro rfl
  rw [hentry] at hz
  cases hz

theorem OnFrontier.target_reachable (hf : f.Linked) (h : f.OnFrontier a b) : f.Reachable b := by
  obtain ⟨p, hp, hreach, -⟩ := h.pred
  exact hreach.tail ((hf.edge p b).mpr hp)

end Func

namespace DomTree

open Func

variable {f : Func} {t : DomTree} {rank : BlockId → Nat} {a b d p : BlockId}

theorem Ranked.mem_takeWhile_ancestors (ht : t.Ranked rank) (fuel : Nat) (hd : t.Above d b) :
    a ∈ (t.ancestorsWithin fuel b).takeWhile (some d != some ·) ↔ a ∈ t.ancestorsWithin fuel b ∧ ¬t.Above a d := by
  induction fuel generalizing b with
  | zero => simp [ancestorsWithin]
  | succ fuel ih =>
    by_cases hb : b = d
    · subst hb
      rw [ancestorsWithin, takeWhile_cons_of_neg (by simp)]
      refine iff_of_false not_mem_nil fun h => h.2 ?_
      have hmem : a ∈ t.ancestorsWithin (fuel + 1) b := h.1
      exact above_of_mem_ancestorsWithin hmem
    · obtain ⟨e, he, hde⟩ := hd.cases_up.resolve_left (Ne.symm hb)
      have hnot : ¬t.Above b d := fun h => hb (h.eq_of_rank_le ht (hd.rank_le ht))
      rw [ancestorsWithin, he, takeWhile_cons_of_pos (by simpa using Ne.symm hb), mem_cons,
        mem_cons, ih hde, or_and_right]
      refine or_congr ⟨fun h => ⟨h, ?_⟩, And.left⟩ Iff.rfl
      rw [h]
      exact hnot

section

variable (hf : f.Linked) (hentry : (f.block f.entry).preds = [])

include hf

theorem mem_runners_compute (hp : p ∈ (f.block b).preds) (hreach : f.Reachable p) (hne : b ≠ f.entry) :
    a ∈ (compute f).runners b p ↔ f.Dominates a p ∧ ¬f.StrictlyDominates a b := by
  have ht := solved_compute hf
  obtain ⟨d, hd, hdne, hidom⟩ := exists_idom?_compute hf (hreach.tail ((hf.edge p b).mpr hp)) hne
  have hdp : f.Dominates d p := hf.dominates_pred ((hidom d).mp (.refl f d)).1 hdne hp
  have hdreach := ht.stage.reachable (ht.stage.ranked.parent b d hd).1
  rw [runners, hd, ancestors, ht.stage.ranked.mem_takeWhile_ancestors _ ((ht.above_iff hf hreach).mpr hdp),
    ← ancestors, mem_ancestors_compute_iff hf hreach, ht.above_iff hf hdreach, hidom, StrictlyDominates,
    and_comm (a := ¬a = b)]

include hentry

/-- A block with one predecessor is on no frontier: what dominates the predecessor dominates the block. -/
theorem two_le_of_onFrontier (h : f.OnFrontier a b) : 2 ≤ (f.block b).preds.length := by
  have hb := h.target_reachable hf
  obtain ⟨-, ⟨p, hp, -, hdom⟩, hnot⟩ := h
  have hne := ne_entry_of_mem_preds hentry hp
  by_contra hlt
  have hone : ∀ q ∈ (f.block b).preds, q = p := by
    intro q hq
    obtain ⟨i, hi, rfl⟩ := mem_iff_getElem.mp hq
    obtain ⟨j, hj, rfl⟩ := mem_iff_getElem.mp hp
    obtain rfl : i = j := by omega
    rfl
  have hab : f.Dominates a b := hf.dominates_of_preds hne fun q hq => hone q hq ▸ hdom
  obtain ⟨q, hq, -, hqnot⟩ := hf.exists_pred_not_dominated hb hne
  rw [hone q hq] at hqnot
  exact hnot ⟨fun heq => hqnot (heq ▸ hdom), hab⟩

theorem mem_frontiers_compute : b ∈ ((compute f).frontiers f).getD a [] ↔ f.OnFrontier a b := by
  have hget : ((compute f).frontiers f).getD a [] =
      if a < f.blocks.size then (compute f).order.filter ((compute f).inFrontier f a) else [] := by
    rw [frontiers, Array.getD_eq_getD_getElem?, getElem?_toArray, getElem?_map, blockIds]
    split
    · next ha => rw [getElem?_range ha, Option.map_some, Option.getD_some]
    · next ha => rw [getElem?_eq_none (by simpa using ha), Option.map_none, Option.getD_none]
  rw [hget]
  constructor
  · intro hb
    split at hb
    · obtain ⟨-, hin⟩ := mem_filter.mp hb
      rw [inFrontier, Bool.and_eq_true, any_eq_true] at hin
      obtain ⟨-, p, hp, hrun⟩ := hin
      rw [Bool.and_eq_true, isReachable_compute_iff hf, contains_iff_mem] at hrun
      obtain ⟨hdom, hnot⟩ := (mem_runners_compute hf hp hrun.1 (ne_entry_of_mem_preds hentry hp)).mp hrun.2
      obtain ⟨rest, htrail⟩ := exists_trail hrun.1
      exact ⟨htrail.reachable a (hdom rest htrail), ⟨p, hp, hrun.1, hdom⟩, hnot⟩
    · cases hb
  · intro h
    have hb := h.target_reachable hf
    have htwo := two_le_of_onFrontier hf hentry h
    obtain ⟨hreach, ⟨p, hp, hpreach, hdom⟩, hnot⟩ := h
    have hne := ne_entry_of_mem_preds hentry hp
    have ha : a < f.blocks.size := by
      by_cases hae : a = f.entry
      · rw [hae]
        exact hb.entry_lt hne
      · exact hf.lt hreach hae
    rw [if_pos ha, mem_filter, (solved_compute hf).stage.order, mem_reversePostorder_iff, inFrontier,
      Bool.and_eq_true, any_eq_true]
    refine ⟨hb, decide_eq_true htwo, p, hp, ?_⟩
    rw [Bool.and_eq_true, isReachable_compute_iff hf, contains_iff_mem]
    exact ⟨hpreach, (mem_runners_compute hf hp hpreach hne).mpr ⟨hdom, hnot⟩⟩

omit hentry in
theorem nodup_frontiers_compute (a : BlockId) : (((compute f).frontiers f).getD a []).Nodup := by
  rw [frontiers, Array.getD_eq_getD_getElem?, getElem?_toArray, getElem?_map]
  cases f.blockIds[a]? with
  | none => exact nodup_nil
  | some b =>
    rw [Option.map_some, Option.getD_some, (solved_compute hf).stage.order]
    exact (reversePostorder_nodup f).filter _

/-- The worklist finds the least set with the frontiers of the given blocks and of its own. -/
theorem isLeast_iteratedFrontier (blocks : List BlockId) :
    IsLeast {S : Set BlockId | ∀ a, a ∈ blocks ∨ a ∈ S → ∀ b, f.OnFrontier a b → b ∈ S}
      {b | b ∈ iteratedFrontier ((compute f).frontiers f) blocks} := by
  have hsize : ((compute f).frontiers f).size = f.blocks.size := by
    rw [frontiers, size_toArray, length_map, blockIds, length_range]
  have hlt : ∀ a, ∀ b ∈ ((compute f).frontiers f).getD a [], b ∈ List.range f.blocks.size := by
    intro a b hb
    have h := (mem_frontiers_compute hf hentry).mp hb
    obtain ⟨p, hp, -⟩ := h.pred
    exact mem_range.mpr (lt_of_mem_preds hp)
  have hiff : ∀ b, b ∈ iteratedFrontier ((compute f).frontiers f) blocks ↔
      ∃ s ∈ blocks.flatMap fun b => ((compute f).frontiers f).getD b [],
        Leads (fun b => ((compute f).frontiers f).getD b []) s b := by
    intro b
    rw [iteratedFrontier, hsize]
    refine mem_reach_iff (fun b hb => ?_) fun a _ b hb => hlt a b hb
    obtain ⟨a, -, hb⟩ := mem_flatMap.mp hb
    exact hlt a b hb
  constructor
  · intro a ha b hb
    have hmem := (mem_frontiers_compute hf hentry).mpr hb
    refine (hiff b).mpr ?_
    rcases ha with ha | ha
    · exact ⟨b, mem_flatMap.mpr ⟨a, ha, hmem⟩, .refl⟩
    · obtain ⟨s, hs, hsa⟩ := (hiff a).mp ha
      exact ⟨s, hs, hsa.tail hmem⟩
  · intro S hS b hb
    obtain ⟨s, hs, hsb⟩ := (hiff b).mp hb
    obtain ⟨a, ha, hs⟩ := mem_flatMap.mp hs
    induction hsb with
    | refl => exact hS a (.inl ha) s ((mem_frontiers_compute hf hentry).mp hs)
    | tail _ hcd ih =>
      obtain hc := ih (((hiff _).mpr ⟨s, mem_flatMap.mpr ⟨a, ha, hs⟩, ‹_›⟩))
      exact hS _ (.inr hc) _ ((mem_frontiers_compute hf hentry).mp hcd)

end

/-- Frontiers are exact on any graph whose edges are listed at both ends and whose entry nothing leads to: the
frontier of a block lists, each once, the blocks with a reachable predecessor that the block dominates and which
it does not strictly dominate; and the iterated frontier of some blocks is the least set that holds the frontiers
of these and of its own members. -/
theorem frontiers_are_exact (f : Func) (hf : f.Linked) (hentry : (f.block f.entry).preds = []) :
    (∀ a b, b ∈ ((compute f).frontiers f).getD a [] ↔ f.OnFrontier a b) ∧
    (∀ a, (((compute f).frontiers f).getD a []).Nodup) ∧
    ∀ blocks : List BlockId, IsLeast {S : Set BlockId | ∀ a, a ∈ blocks ∨ a ∈ S → ∀ b, f.OnFrontier a b → b ∈ S}
        {b | b ∈ iteratedFrontier ((compute f).frontiers f) blocks} :=
  ⟨fun _ _ => mem_frontiers_compute hf hentry, nodup_frontiers_compute hf, isLeast_iteratedFrontier hf hentry⟩

/-- The blocks of a loop with two ways in are on each other's frontiers. -/
theorem twoWaysIn_frontiers : twoWaysIn.Linked ∧ (twoWaysIn.block twoWaysIn.entry).preds = [] ∧
    twoWaysIn.OnFrontier 1 2 ∧ ¬twoWaysIn.OnFrontier 1 3 ∧ ¬twoWaysIn.OnFrontier 4 3 ∧
    IsLeast {S : Set BlockId | ∀ a, a ∈ [2] ∨ a ∈ S → ∀ b, twoWaysIn.OnFrontier a b → b ∈ S} {b | b ∈ [2, 1]} := by
  have hlinked : twoWaysIn.Linked := by decide
  have hentry : (twoWaysIn.block twoWaysIn.entry).preds = [] := rfl
  obtain ⟨hmem, -, hleast⟩ := frontiers_are_exact twoWaysIn hlinked hentry
  have hloop : iteratedFrontier ((compute twoWaysIn).frontiers twoWaysIn) [2] = [2, 1] := by decide +kernel
  have h := hleast [2]
  rw [hloop] at h
  exact ⟨hlinked, hentry, (hmem 1 2).mp (by decide +kernel), fun h => absurd ((hmem 1 3).mpr h) (by decide +kernel),
    fun h => absurd ((hmem 4 3).mpr h) (by decide +kernel), h⟩

end DomTree

namespace Func

variable {f : Func} {b c d y z : BlockId}

def Joins (f : Func) (blocks : List BlockId) (b : BlockId) : Prop :=
  b ∈ iteratedFrontier ((compute f).frontiers f) blocks

theorem Joins.congr {g : Func} (hg : f.SameGraph g) {blocks : List BlockId} (h : f.Joins blocks b) :
    g.Joins blocks b := by
  have hin : (compute f).inFrontier g = (compute f).inFrontier f := by
    funext a c
    rw [inFrontier, inFrontier, hg.preds]
  rw [Joins, hg.compute, frontiers, blockIds, hg.size, hin]
  exact h

/-- Where a dominated edge does not lead into the iterated frontier, dominance goes on. -/
theorem Flow.dominates_of_not_joins (hf : f.Flow) {blocks : List BlockId} (hc : c ∈ blocks ∨ f.Joins blocks c)
    (hlt : c < f.blocks.size) (hz : z ∈ (f.block y).preds) (hdom : f.Dominates c z)
    (hy : ¬f.Joins blocks y) : f.StrictlyDominates c y := by
  by_contra hnot
  exact hy ((isLeast_iteratedFrontier hf.linked hf.entry_preds blocks).1 c hc y
    ⟨hf.reachable c hlt, ⟨z, hz, hf.reachable z (hf.pred_lt y z hz), hdom⟩, hnot⟩)

def LastIn (S : BlockId → Prop) (bs : List BlockId) (d : BlockId) : Prop :=
  ∃ pre post, bs = pre ++ d :: post ∧ S d ∧ ∀ y ∈ pre, ¬S y

variable {S : BlockId → Prop} {rest rest' : List BlockId}

theorem lastIn_cons : LastIn S (b :: rest) d ↔ S b ∧ d = b ∨ ¬S b ∧ LastIn S rest d := by
  constructor
  · rintro ⟨pre, post, hsplit, hd, hpre⟩
    cases pre with
    | nil =>
      obtain ⟨rfl, -⟩ := List.cons.inj hsplit
      exact .inl ⟨hd, rfl⟩
    | cons y pre =>
      obtain ⟨rfl, hrest⟩ := List.cons.inj hsplit
      exact .inr ⟨hpre b mem_cons_self, pre, post, hrest, hd, fun y hy => hpre y (mem_cons_of_mem b hy)⟩
  · rintro (⟨hb, rfl⟩ | ⟨hb, pre, post, rfl, hd, hpre⟩)
    · exact ⟨[], rest, rfl, hb, forall_mem_nil _⟩
    · exact ⟨b :: pre, post, rfl, hd, forall_mem_cons.mpr ⟨hb, hpre⟩⟩

theorem exists_lastIn (h : ∃ c ∈ rest, S c) : ∃ d, LastIn S rest d := by
  induction rest with
  | nil =>
    obtain ⟨c, hc, -⟩ := h
    cases hc
  | cons b rest ih =>
    by_cases hb : S b
    · exact ⟨b, lastIn_cons.mpr (.inl ⟨hb, rfl⟩)⟩
    · obtain ⟨c, hc, hS⟩ := h
      have hrest := (mem_cons.mp hc).resolve_left fun heq => hb (heq ▸ hS)
      obtain ⟨d, hd⟩ := ih ⟨c, hrest, hS⟩
      exact ⟨d, lastIn_cons.mpr (.inr ⟨hb, hd⟩)⟩

section

variable {blocks : List BlockId} (hf : f.Flow)

include hf

/-- Outside of the iterated frontier the last block in question dominates strictly. -/
theorem Flow.dominates_of_lastIn (htrail : Trail f (b :: rest)) (hb : ¬f.Joins blocks b)
    (hd : LastIn (fun c => c ∈ blocks ∨ f.Joins blocks c) rest d) : f.StrictlyDominates d b := by
  induction rest generalizing b with
  | nil =>
    obtain ⟨pre, post, hsplit, -⟩ := hd
    exact absurd hsplit (by simp)
  | cons z rest ih =>
    have hz := htrail.head_pred hf
    rcases lastIn_cons.mp hd with ⟨hS, rfl⟩ | ⟨hS, hd'⟩
    · exact hf.dominates_of_not_joins hS (hf.pred_lt b d hz) hz (.refl f d) hb
    · obtain ⟨-, hdz⟩ := ih htrail.tail.1 (fun hj => hS (.inr hj)) hd'
      obtain ⟨pre, post, rfl, hSd, -⟩ := hd'
      have hlt := htrail.lt hf d (mem_cons_of_mem _ (mem_cons_of_mem _ (mem_append_right _ mem_cons_self)))
      exact hf.dominates_of_not_joins hSd hlt hz hdz hb

/-- Outside of the iterated frontier all walks have the same last block in question. -/
theorem Flow.lastIn_unique {d' : BlockId} (htrail : Trail f (b :: rest)) (htrail' : Trail f (b :: rest'))
    (hb : ¬f.Joins blocks b) (hd : LastIn (fun c => c ∈ blocks ∨ f.Joins blocks c) rest d)
    (hd' : LastIn (fun c => c ∈ blocks ∨ f.Joins blocks c) rest' d') : d = d' := by
  -- of two dominators one dominates the other, and a walk to the former need not pass the latter
  have hone : ∀ rest rest' d d', Trail f (b :: rest) → Trail f (b :: rest') →
      LastIn (fun c => c ∈ blocks ∨ f.Joins blocks c) rest d →
      LastIn (fun c => c ∈ blocks ∨ f.Joins blocks c) rest' d' → (compute f).Above d d' →
      d = d' := by
    intro rest rest' d d' htrail htrail' hd hd' habove
    by_contra hne
    obtain ⟨hd'ne, hd'b⟩ := hf.dominates_of_lastIn htrail' hb hd'
    obtain ⟨pre', post', rfl, hS', -⟩ := hd'
    obtain ⟨pre, post, rfl, -, hpre⟩ := hd
    have hd'lt := htrail'.lt hf d' (mem_cons_of_mem _ (mem_append_right _ mem_cons_self))
    have hdom := ((solved_compute hf.linked).above_iff hf.linked (hf.reachable d' hd'lt)).mp habove
    have hnot : ¬f.Dominates d' d := fun hd'd => hne (hdom.antisymm (hf.reachable d' hd'lt) hd'd)
    rw [Dominates] at hnot
    push Not at hnot
    obtain ⟨r, hr, hd'r⟩ := hnot
    have hmem := hd'b (pre ++ d :: r) (Trail.splice (show Trail f ((b :: pre) ++ d :: post) from htrail) hr)
    rcases mem_cons.mp hmem with heq | hmem
    · exact hd'ne heq
    · rcases mem_append.mp hmem with hmem | hmem
      · exact hpre d' hmem hS'
      · exact hd'r hmem
  obtain ⟨-, hdb⟩ := hf.dominates_of_lastIn htrail hb hd
  obtain ⟨-, hd'b⟩ := hf.dominates_of_lastIn htrail' hb hd'
  have hlt := htrail.lt hf b mem_cons_self
  have ht := solved_compute hf.linked
  have habove := fun x => ht.above_iff (a := x) hf.linked (hf.reachable b hlt)
  rcases ((habove d).mpr hdb).total ((habove d').mpr hd'b) with habove | habove
  · exact hone _ _ d d' htrail htrail' hd hd' habove
  · exact (hone _ _ d' d htrail' htrail hd' hd habove).symm

end

end Func

end SsaCodegen
