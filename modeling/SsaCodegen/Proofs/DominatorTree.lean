import Mathlib.Data.Set.Card
import SsaCodegen.Proofs.Dominators

/-! What the dominator tree says, on any graph whose edges are listed at both ends: ancestors are the
dominators, and depths count the strict ones. -/

namespace SsaCodegen

open List

namespace Func

variable {f : Func} {a b c d : BlockId}

def StrictlyDominates (f : Func) (a b : BlockId) : Prop := a ≠ b ∧ f.Dominates a b

/-- `d` is the strict dominator of `b` that all the others dominate. -/
structure Closest (f : Func) (b d : BlockId) : Prop where
  strict : f.StrictlyDominates d b
  least : ∀ a, f.StrictlyDominates a b → f.Dominates a d

theorem Closest.unique (hb : f.Reachable b) (hd : f.Closest b d) (hc : f.Closest b c) : d = c := by
  -- both dominate each other, and `d` is reachable since it lies on a walk to `b`
  have hdc := hc.least d hd.strict
  have hcd := hd.least c hc.strict
  obtain ⟨rest, htrail⟩ := exists_trail hb
  have hreach := htrail.reachable c (hc.strict.2 rest htrail)
  exact hdc.antisymm hreach hcd

/-- The strict dominators of a block are its closest one and the strict dominators of that. -/
theorem Closest.setOf_strictlyDominates (hb : f.Reachable b) (h : f.Closest b d) :
    {a | f.StrictlyDominates a b} = insert d {a | f.StrictlyDominates a d} := by
  ext a
  constructor
  · intro ha
    by_cases had : a = d
    · exact .inl had
    · exact .inr ⟨had, h.least a ha⟩
  · intro ha
    rcases ha with rfl | ⟨hne, had⟩
    · exact h.strict
    · refine ⟨fun hab => h.strict.1 ?_, had.trans h.strict.2⟩
      exact h.strict.2.antisymm hb (hab ▸ had)

theorem not_strictlyDominates_entry (f : Func) (a : BlockId) : ¬f.StrictlyDominates a f.entry :=
  fun h => h.1 h.2.eq_entry

end Func

namespace DomTree

open Func

variable {f : Func} {t : DomTree} {a b c d : BlockId}

section

variable (hf : f.Linked) (ht : Solved f t)

include hf ht

theorem Solved.update (hc : f.Reachable c) (hne : c ≠ f.entry) : DomTree.update f t c = t := by
  obtain ⟨e, he, hfixed⟩ := ht.fixed c hc hne
  obtain ⟨q, hq, hreach, -⟩ := hf.exists_pred_rank_lt hc hne
  have hin := ht.stage.passed q hreach (rank_lt hreach)
  rcases ht.stage.ranked.parentOf? with ⟨-, hnone⟩ | ⟨d, hd, -, habove⟩
  · exact absurd hin (hnone q hq)
  · have hed := (habove e).mpr fun q hq hq' => hfixed q hq (ht.stage.reachable hq')
    have hde := ht.stage.common c e he d ((habove d).mp (.refl d))
    have heq := hed.eq_of_rank_le ht.stage.ranked (hde.rank_le ht.stage.ranked)
    have hupdate : DomTree.update f t c = t.setParent c d := by
      rw [DomTree.update, hd]
      rfl
    rw [hupdate]
    exact setParent_eq_self (heq ▸ he)

theorem Solved.round : (DomTree.round f t).idoms = t.idoms := by
  have hfold : ∀ cs : List BlockId, (∀ c ∈ cs, f.Reachable c ∧ c ≠ f.entry) → cs.foldl (DomTree.update f) t = t := by
    intro cs
    induction cs with
    | nil => exact fun _ => rfl
    | cons c cs ih =>
      intro hcs
      obtain ⟨hc, hne⟩ := hcs c mem_cons_self
      rw [foldl_cons, ht.update hf hc hne]
      exact ih fun x hx => hcs x (mem_cons_of_mem c hx)
  rw [DomTree.round, ht.stage.order, hfold]
  intro c hc
  obtain ⟨tail, hr⟩ := f.reversePostorder_eq_cons
  have hnodup := f.reversePostorder_nodup
  rw [hr] at hnodup hc
  refine ⟨mem_reversePostorder_iff.mp (hr ▸ mem_cons_of_mem _ hc), fun heq => ?_⟩
  exact (nodup_cons.mp hnodup).1 (heq ▸ hc)

end

def deepen (t : DomTree) (ds : Array Nat) (b : BlockId) : Array Nat :=
  match t.idom? b with
  | none => ds
  | some d => ds.setIfInBounds b (ds.getD d 0 + 1)

theorem depths_eq_foldl (t : DomTree) : t.depths = t.order.tail.foldl t.deepen (Array.replicate t.idoms.size 0) := rfl

theorem size_deepen (t : DomTree) (ds : Array Nat) (b : BlockId) : (t.deepen ds b).size = ds.size := by
  rw [deepen]
  split
  · rfl
  · rw [Array.size_setIfInBounds]

theorem getD_deepen_of_ne {ds : Array Nat} (h : c ≠ b) : (t.deepen ds b).getD c 0 = ds.getD c 0 := by
  rw [deepen]
  split
  · rfl
  · exact getD_setIfInBounds_ne h

theorem size_foldl_deepen (t : DomTree) : ∀ (cs : List BlockId) (ds : Array Nat),
    (cs.foldl t.deepen ds).size = ds.size := by
  intro cs
  induction cs with
  | nil => exact fun _ => rfl
  | cons b cs ih =>
    intro ds
    rw [foldl_cons, ih, size_deepen]

theorem getD_foldl_deepen : ∀ {cs : List BlockId} {ds : Array Nat}, c ∉ cs →
    (cs.foldl t.deepen ds).getD c 0 = ds.getD c 0 := by
  intro cs
  induction cs with
  | nil => exact fun _ => rfl
  | cons b cs ih =>
    intro ds hc
    have hb : c ≠ b := fun heq => hc (heq ▸ mem_cons_self)
    rw [foldl_cons, ih fun hmem => hc (mem_cons_of_mem b hmem), getD_deepen_of_ne hb]

section

variable {i : Nat} (ht : Stage f i t)

include ht

theorem Stage.depth_entry : t.depth f.entry = 0 := by
  obtain ⟨tail, hr⟩ := f.reversePostorder_eq_cons
  have hnodup := f.reversePostorder_nodup
  rw [hr] at hnodup
  rw [depth, depths_eq_foldl, ht.order, hr, tail_cons, getD_foldl_deepen (nodup_cons.mp hnodup).1, getD_replicate]

/-- A block is one deeper than its parent: at its turn the depth of the parent is there, and neither
of them is touched later. -/
theorem Stage.depth_parent (hd : t.idom? b = some d) : t.depth b = t.depth d + 1 := by
  obtain ⟨tail, hr⟩ := f.reversePostorder_eq_cons
  have hmem := mem_reversePostorder_iff.mpr (ht.inside b d hd)
  rw [hr] at hmem
  have htail := (mem_cons.mp hmem).resolve_left (ht.ne_entry hd)
  obtain ⟨pre, post, hsplit⟩ := append_of_mem htail
  have horder : f.reversePostorder = (f.entry :: pre) ++ b :: post := by rw [hr, hsplit]; rfl
  -- neither of the two comes after the turn of `b`
  have hlater : ∀ c, f.rank c ≤ f.rank b → c ∉ post := by
    intro c hle hc
    obtain ⟨mid, post', hpost⟩ := append_of_mem hc
    have hsplit' : f.reversePostorder = (f.entry :: pre ++ b :: mid) ++ c :: post' := by
      rw [horder, hpost]
      simp
    have hc := rank_of_split hsplit'
    have hb := rank_of_split horder
    simp only [length_append, length_cons] at hb hc
    omega
  have hlt := (ht.ranked.parent b d hd).2
  have hne : d ≠ b := fun heq => lt_irrefl _ (heq ▸ hlt)
  have hsize := lt_of_idom? hd
  let ds := pre.foldl t.deepen (Array.replicate t.idoms.size 0)
  have hdepths : t.depths = post.foldl t.deepen (t.deepen ds b) := by
    rw [depths_eq_foldl, ht.order, hr, tail_cons, hsplit, foldl_append, foldl_cons]
  have hb : t.depth b = ds.getD d 0 + 1 := by
    have hbound : b < ds.size := by rwa [size_foldl_deepen, Array.size_replicate]
    rw [depth, hdepths, getD_foldl_deepen (hlater b le_rfl), deepen, hd, getD_setIfInBounds hbound, if_pos rfl]
  have hd' : t.depth d = ds.getD d 0 := by
    rw [depth, hdepths, getD_foldl_deepen (hlater d hlt.le), getD_deepen_of_ne hne]
  rw [hb, hd']

end

section

variable (hf : f.Linked)

include hf

theorem closest_of_idom? (hd : (compute f).idom? b = some d) : f.Reachable b ∧ f.Closest b d := by
  have ht := (solved_compute hf).stage
  have hb := ht.inside b d hd
  obtain ⟨d', hd', hne, hdom⟩ := exists_idom?_compute hf hb (ht.ne_entry hd)
  obtain rfl : d' = d := Option.some.inj (hd'.symm.trans hd)
  refine ⟨hb, ⟨hne, ((hdom d').mp (Dominates.refl f d')).1⟩, fun a ha => ?_⟩
  exact (hdom a).mpr ⟨ha.2, ha.1⟩

theorem idom?_compute_eq_some_iff : (compute f).idom? b = some d ↔ f.Reachable b ∧ f.Closest b d := by
  refine ⟨closest_of_idom? hf, fun ⟨hb, hclosest⟩ => ?_⟩
  have hne : b ≠ f.entry := fun heq => not_strictlyDominates_entry f d (heq ▸ hclosest.strict)
  obtain ⟨d', hd', -⟩ := exists_idom?_compute hf hb hne
  rw [hd', (closest_of_idom? hf hd').2.unique hb hclosest]

theorem idom?_compute_eq_none_iff : (compute f).idom? b = none ↔ b = f.entry ∨ ¬f.Reachable b := by
  rw [← not_iff_not, ← ne_eq, Option.ne_none_iff_exists']
  constructor
  · rintro ⟨d, hd⟩ hb
    rcases hb with heq | hb
    · exact (solved_compute hf).stage.ne_entry hd heq
    · exact hb ((solved_compute hf).stage.inside b d hd)
  · intro h
    rw [not_or, not_not] at h
    obtain ⟨d, hd, -⟩ := exists_idom?_compute hf h.2 h.1
    exact ⟨d, hd⟩

theorem depth_compute (hb : f.Reachable b) : ((compute f).depth b : ℕ∞) = {a | f.StrictlyDominates a b}.encard := by
  have ht := (solved_compute hf).stage
  -- upwards along the parents, which rank lower and lower
  induction hr : f.rank b using Nat.strongRecOn generalizing b with
  | ind n ih =>
    by_cases hne : b = f.entry
    · have hempty : {a | f.StrictlyDominates a b} = ∅ :=
        Set.eq_empty_of_forall_notMem fun a ha => not_strictlyDominates_entry f a (hne ▸ ha)
      rw [hempty, Set.encard_empty, hne, ht.depth_entry, Nat.cast_zero]
    · obtain ⟨d, hd, -⟩ := exists_idom?_compute hf hb hne
      have hclosest := (closest_of_idom? hf hd).2
      obtain ⟨hin, hlt⟩ := ht.ranked.parent b d hd
      have hnot : d ∉ {a | f.StrictlyDominates a d} := fun h => h.1 rfl
      calc ((compute f).depth b : ℕ∞)
          = (compute f).depth d + 1 := by rw [ht.depth_parent hd, Nat.cast_add, Nat.cast_one]
        _ = {a | f.StrictlyDominates a d}.encard + 1 := by
          rw [ih (f.rank d) (by omega) (ht.reachable hin) rfl]
        _ = (insert d {a | f.StrictlyDominates a d}).encard := (Set.encard_insert_of_notMem hnot).symm
        _ = {a | f.StrictlyDominates a b}.encard := by rw [hclosest.setOf_strictlyDominates hb]

end

/-- The tree that is computed is final and tells dominance: a block dominates another one if both can be
reached and every walk to the latter passes through the former; the parent of a block is its closest
strict dominator, which is missing for the entry and for blocks that cannot be reached; and the depth
of a block is the number of its strict dominators. -/
theorem compute_tells_dominance (f : Func) (hf : f.Linked) : (round f (compute f)).idoms = (compute f).idoms ∧
    (∀ a b, (compute f).dominates a b = true ↔
      f.Reachable a ∧ f.Reachable b ∧ ∀ rest, Trail f (b :: rest) → a ∈ b :: rest) ∧
    (∀ b d, (compute f).idom? b = some d ↔ f.Reachable b ∧ f.Closest b d) ∧
    (∀ b d c, f.Reachable b → f.Closest b d → f.Closest b c → d = c) ∧
    (∀ b, (compute f).idom? b = none ↔ b = f.entry ∨ ¬f.Reachable b) ∧
    ∀ b, f.Reachable b → ((compute f).depth b : ℕ∞) = {a | f.StrictlyDominates a b}.encard :=
  ⟨(solved_compute hf).round hf, fun _ _ => dominates_compute_iff hf,
    fun _ _ => idom?_compute_eq_some_iff hf, fun _ _ _ hb hd hc => hd.unique hb hc,
    fun _ => idom?_compute_eq_none_iff hf, fun _ hb => depth_compute hf hb⟩

/-- A loop with two ways in, behind it an exit, and a block that leads there but cannot be reached. -/
def twoWaysIn : Func :=
  { Func.new "" [] TypeId.void with
    blocks := #[
      ⟨.branch, [], none, [], [1, 2], ""⟩,
      ⟨.branch, [], none, [0, 2], [2, 3], ""⟩,
      ⟨.plain, [], none, [0, 1], [1], ""⟩,
      ⟨.ret, [], none, [1, 4], [], ""⟩,
      ⟨.plain, [], none, [], [3], ""⟩] }

/-- Of the two blocks of the loop one is passed on every walk to the exit. -/
theorem twoWaysIn_tells_dominance : twoWaysIn.Linked ∧ twoWaysIn.Closest 3 1 ∧
    twoWaysIn.Closest 1 0 ∧ twoWaysIn.Closest 2 0 ∧ ¬twoWaysIn.Reachable 4 ∧
    {a | twoWaysIn.StrictlyDominates a 3}.encard = 2 := by
  have hlinked : twoWaysIn.Linked := by decide
  obtain ⟨-, -, hsome, -, hnone, hdepth⟩ := compute_tells_dominance twoWaysIn hlinked
  have h3 := (hsome 3 1).mp (by decide +kernel)
  refine ⟨hlinked, h3.2, ((hsome 1 0).mp (by decide +kernel)).2, ((hsome 2 0).mp (by decide +kernel)).2, ?_, ?_⟩
  · exact ((hnone 4).mp (by decide +kernel)).resolve_left (by decide)
  · have hthree : (compute twoWaysIn).depth 3 = 2 := by decide +kernel
    rw [← hdepth 3 h3.1, hthree]
    rfl

end DomTree

end SsaCodegen
