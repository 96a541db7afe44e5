import Mathlib.Data.Finset.Card
import Mathlib.Data.Finset.Prod
import SsaCodegen.Proofs.Ancestors
import SsaCodegen.Proofs.Order

/-! The dominator tree. Parents only move up, so the passes come to an end, and then the ancestors of a block
are its dominators. -/

namespace SsaCodegen

open List DomTree

namespace Func

def rank (f : Func) (b : BlockId) : Nat := f.reversePostorder.idxOf b

variable {f : Func} {a b c : BlockId}

theorem rank_lt (hb : f.Reachable b) : f.rank b < f.reversePostorder.length :=
  idxOf_lt_length_iff.mpr (mem_reversePostorder_iff.mpr hb)

theorem rank_inj (hb : f.Reachable b) (h : f.rank b = f.rank c) : b = c :=
  (idxOf_inj (mem_reversePostorder_iff.mpr hb)).mp h

theorem reachable_of_rank_lt (h : f.rank b < f.rank c) : f.Reachable b :=
  mem_reversePostorder_iff.mp (idxOf_lt_length_iff.mp (h.trans_le idxOf_le_length))

theorem rank_of_split {pre post : List BlockId} (h : f.reversePostorder = pre ++ b :: post) :
    f.rank b = pre.length := by
  rw [rank, h, idxOf_append_of_notMem (not_mem_of_split f.reversePostorder_nodup h), idxOf_cons_self, Nat.add_zero]

theorem reversePostorder_eq_cons (f : Func) : ∃ tail, f.reversePostorder = f.entry :: tail :=
  head?_eq_some_iff.mp f.reversePostorder_head

theorem exists_earlier_trail : ∀ (n : Nat) {b : BlockId} {pre post : List BlockId}, pre.length = n →
    f.reversePostorder = pre ++ b :: post → ∃ rest, Trail f (b :: rest) ∧ ∀ x ∈ rest, x ∈ pre := by
  intro n
  induction n using Nat.strongRecOn with
  | ind n ih =>
    intro b pre post hn h
    by_cases hb : b = f.entry
    · rw [hb]
      exact ⟨[], .start, forall_mem_nil _⟩
    · obtain ⟨p, hp, hedge⟩ := exists_earlier_pred h hb
      obtain ⟨front, back, rfl⟩ := append_of_mem hp
      rw [append_assoc, cons_append] at h
      obtain ⟨rest, htrail, hrest⟩ := ih front.length (by simp at hn; omega) rfl h
      refine ⟨p :: rest, .step htrail hedge, fun x hx => ?_⟩
      rcases mem_cons.mp hx with rfl | hx
      · exact hp
      · exact mem_append_left _ (hrest x hx)

/-- The order of the blocks, whatever the graph. The walk ends: more fuel than there are blocks changes
nothing, and the search with a stack lists the same blocks. The postorder has every block that can be reached,
once, and the entry last. In the reverse order every other block follows a predecessor and all its strict
dominators, and a successor that does not come later leads back to the block. -/
theorem postorder_orders (f : Func) : (∀ fuel, f.blocks.size < fuel →
      f.walk fuel f.entry ⟨[], []⟩ = f.walk (f.blocks.size + 1) f.entry ⟨[], []⟩) ∧
    f.reversePostorder = (f.walk (f.blocks.size + 1) f.entry ⟨[], []⟩).left ∧
    (∀ b, b ∈ f.postorder ↔ f.Reachable b) ∧ f.postorder.Nodup ∧ f.postorder.getLast? = some f.entry ∧
    ∀ pre b post, f.postorder.reverse = pre ++ b :: post →
      (b ≠ f.entry → ∃ p ∈ pre, b ∈ (f.block p).succs) ∧ (∀ a, a ≠ b → f.Dominates a b → a ∈ pre) ∧
      ∀ c ∈ (f.block b).succs, c ∉ post → Leads (fun b => (f.block b).succs) c b := by
  refine ⟨fun _ => walk_of_lt, congrArg Walk.left f.explore_eq_walk, fun b => ?_, ?_, ?_, fun pre b post h => ?_⟩
  · rw [postorder, mem_reverse]
    exact mem_reversePostorder_iff
  · exact nodup_reverse.mpr f.reversePostorder_nodup
  · rw [postorder, getLast?_reverse]
    exact f.reversePostorder_head
  · rw [postorder, reverse_reverse] at h
    refine ⟨exists_earlier_pred h, fun a hne hdom => ?_, fun c hc => leads_back h hc⟩
    obtain ⟨rest, htrail, hrest⟩ := exists_earlier_trail pre.length rfl h
    exact hrest a ((mem_cons.mp (hdom rest htrail)).resolve_left hne)

section

variable (hf : f.Linked)

include hf

theorem Linked.rank_le (hb : f.Reachable b) : f.rank b ≤ f.blocks.size := by
  obtain ⟨tail, hr⟩ := f.reversePostorder_eq_cons
  have hnodup := f.reversePostorder_nodup
  rw [hr] at hnodup
  have hsub : tail ⊆ List.range f.blocks.size := by
    intro c hc
    have hne : c ≠ f.entry := fun heq => (nodup_cons.mp hnodup).1 (heq ▸ hc)
    have hreach := mem_reversePostorder_iff.mp (hr ▸ mem_cons_of_mem _ hc)
    exact mem_range.mpr (hf.lt hreach hne)
  have hle := (nodup_cons.mp hnodup).2.length_le_of_subset hsub
  rw [length_range] at hle
  have hlt := rank_lt hb
  rw [hr, length_cons] at hlt
  omega

theorem Linked.exists_pred_rank_lt (hb : f.Reachable b) (hne : b ≠ f.entry) :
    ∃ q ∈ (f.block b).preds, f.Reachable q ∧ f.rank q < f.rank b := by
  obtain ⟨pre, post, hsplit⟩ := append_of_mem (mem_reversePostorder_iff.mpr hb)
  obtain ⟨q, hq, hedge⟩ := exists_earlier_pred hsplit hne
  have hlt : f.rank q < f.rank b := by
    rw [rank_of_split hsplit, rank, hsplit, idxOf_append_of_mem hq]
    exact idxOf_lt_length_iff.mpr hq
  exact ⟨q, (hf.edge q b).mp hedge, reachable_of_rank_lt hlt, hlt⟩

theorem Linked.dominates_pred {q : BlockId} (h : f.Dominates a b) (hne : a ≠ b)
    (hq : q ∈ (f.block b).preds) : f.Dominates a q := by
  intro rest htrail
  exact (mem_cons.mp (h _ (.step htrail ((hf.edge q b).mpr hq)))).resolve_left hne

omit hf in
theorem Dominates.eq_entry (h : f.Dominates a f.entry) : a = f.entry :=
  mem_singleton.mp (h [] .start)

end

end Func

namespace DomTree

variable {e : BlockId} {t' : DomTree}

open Func

/-- The tree when the blocks that rank below `i` have been visited in the current pass. -/
structure Stage (f : Func) (i : Nat) (t : DomTree) : Prop where
  entry : t.entry = f.entry
  order : t.order = f.reversePostorder
  size : t.idoms.size = f.blocks.size
  ranked : t.Ranked f.rank
  within : ∀ b d, t.idom? b = some d → ∀ a, f.Dominates a b → a = b ∨ f.Dominates a d
  common : ∀ b d, t.idom? b = some d → ∀ a, (∀ q ∈ (f.block b).preds, t.isReachable q → t.Above a q) → t.Above a d
  inside : ∀ b d, t.idom? b = some d → f.Reachable b
  passed : ∀ b, f.Reachable b → f.rank b < i → t.isReachable b = true
  early : ∀ b d, t.idom? b = some d → ∀ c, f.Reachable c → f.rank c < f.rank b → t.isReachable c = true
  ahead : ∀ b d, t.idom? b = some d → ∀ q ∈ (f.block b).preds, f.rank q < f.rank b →
    f.rank b < i ∨ i ≤ f.rank d → t.Above d q

variable {f : Func} {t : DomTree} {a b c d q : BlockId} {i : Nat}

theorem lt_of_idom? (h : t.idom? b = some d) : b < t.idoms.size := by
  by_contra hge
  rw [idom?, getD_of_size_le (not_lt.mp hge)] at h
  cases h

section

variable (ht : Stage f i t)

include ht

theorem Stage.reachable (hb : t.isReachable b) : f.Reachable b := by
  rcases isReachable_iff.mp hb with rfl | ⟨d, hd⟩
  · rw [ht.entry]
  · exact ht.inside b d hd

theorem Stage.ne_entry (hd : t.idom? b = some d) : b ≠ f.entry := by
  rintro rfl
  rw [← ht.entry, ht.ranked.root] at hd
  cases hd

theorem Stage.above_of_dominates (hb : t.isReachable b) (h : f.Dominates a b) : t.Above a b := by
  induction hr : f.rank b using Nat.strongRecOn generalizing b with
  | ind n ih =>
    rcases isReachable_iff.mp hb with rfl | ⟨d, hd⟩
    · rw [ht.entry] at h ⊢
      rw [h.eq_entry]
      exact .refl _
    · rcases ht.within b d hd a h with rfl | had
      · exact .refl _
      · obtain ⟨hin, hlt⟩ := ht.ranked.parent b d hd
        exact .up hd (ih _ (by omega) hin had rfl)

theorem Stage.dominates_above (hd : t.Above d b) (h : f.Dominates a b) : f.Dominates a d ∨ f.rank d < f.rank a := by
  induction hd with
  | refl => exact .inl h
  | @up x y hy hup ih =>
    rcases ht.within x y hy a h with rfl | hay
    · have hle := hup.rank_le ht.ranked
      have hlt := (ht.ranked.parent _ _ hy).2
      omega
    · exact ih hay

end

def setParent (t : DomTree) (c d : BlockId) : DomTree :=
  { t with idoms := t.idoms.setIfInBounds c (some d) }

/-- `d` is the parent that `c` gets at its turn. -/
structure Turn (f : Func) (i : Nat) (t : DomTree) (c d : BlockId) : Prop where
  stage : Stage f i t
  lt : c < f.blocks.size
  reachable : f.Reachable c
  ne_entry : c ≠ f.entry
  rank : f.rank c = i
  parent : t.isReachable d = true
  above : ∀ a, t.Above a d ↔ ∀ q ∈ (f.block c).preds, t.isReachable q → t.Above a q

section

variable (hf : f.Linked) (h : Turn f i t c d)

include h

theorem Turn.idom? (b : BlockId) : (t.setParent c d).idom? b = if b = c then some d else t.idom? b :=
  getD_setIfInBounds (h.stage.size.symm ▸ h.lt)

theorem Turn.idom?_of_ne (hb : b ≠ c) : (t.setParent c d).idom? b = t.idom? b := by
  rw [h.idom?, if_neg hb]

theorem Turn.idom?_cases (he : (t.setParent c d).idom? b = some e) : b = c ∧ d = e ∨ b ≠ c ∧ t.idom? b = some e := by
  rw [h.idom?] at he
  split at he
  · exact .inl ⟨‹_›, Option.some.inj he⟩
  · exact .inr ⟨‹_›, he⟩

theorem Turn.isReachable_iff : (t.setParent c d).isReachable b ↔ b = c ∨ t.isReachable b := by
  rw [DomTree.isReachable_iff, DomTree.isReachable_iff]
  change b = t.entry ∨ _ ↔ _
  rw [h.idom?]
  by_cases hb : b = c
  · simp [hb]
  · simp [hb]

theorem Turn.inside (he : (t.setParent c d).idom? b = some e) : f.Reachable b := by
  rcases h.idom?_cases he with ⟨rfl, -⟩ | ⟨-, he⟩
  · exact h.reachable
  · exact h.stage.inside b e he

include hf in
theorem Turn.rank_lt : f.rank d < f.rank c := by
  obtain ⟨q, hq, hreach, hlt⟩ := hf.exists_pred_rank_lt h.reachable h.ne_entry
  have hin := h.stage.passed q hreach (by rw [← h.rank]; exact hlt)
  have hle := ((h.above d).mp (.refl d) q hq hin).rank_le h.stage.ranked
  omega

theorem Turn.above_old (he : t.idom? c = some e) : t.Above d e :=
  h.stage.common c e he d ((h.above d).mp (.refl d))

theorem Turn.above_of_above (hab : (t.setParent c d).Above a b) (hb : t.isReachable b) : t.Above a b := by
  induction hab with
  | refl => exact .refl _
  | @up b y hy hup ih =>
    rcases h.idom?_cases hy with ⟨rfl, rfl⟩ | ⟨-, hy⟩
    · rcases DomTree.isReachable_iff.mp hb with hentry | ⟨e, he⟩
      · exact absurd (hentry.trans h.stage.entry) h.ne_entry
      · exact .up he ((ih h.parent).trans (h.above_old he))
    · exact .up hy (ih (h.stage.ranked.parent b y hy).1)

theorem Turn.above_iff_of_rank_lt (hb : f.rank b < f.rank c) : (t.setParent c d).Above a b ↔ t.Above a b := by
  constructor
  · intro hab
    induction hab with
    | refl => exact .refl _
    | @up b y hy _ ih =>
      have hne : b ≠ c := fun heq => absurd (heq ▸ hb) (lt_irrefl _)
      rw [h.idom?_of_ne hne] at hy
      have hlt := (h.stage.ranked.parent b y hy).2
      exact .up hy (ih (by omega))
  · intro hab
    induction hab with
    | refl => exact .refl _
    | @up b y hy _ ih =>
      have hne : b ≠ c := fun heq => absurd (heq ▸ hb) (lt_irrefl _)
      have hlt := (h.stage.ranked.parent b y hy).2
      exact .up ((h.idom?_of_ne hne).trans hy) (ih (by omega))

include hf

theorem Turn.above_setParent (hab : t.Above a b)
    (hkeep : t.Above c b → f.rank c ≤ f.rank a ∨ t.Above a d) : (t.setParent c d).Above a b := by
  induction hab with
  | refl => exact .refl _
  | @up b y hy hup ih =>
    by_cases hbc : b = c
    · subst hbc
      have hle := hup.rank_le h.stage.ranked
      have hlt := (h.stage.ranked.parent b y hy).2
      rcases hkeep (.refl b) with hge | had
      · omega
      · exact .up (by rw [h.idom?, if_pos rfl]) ((h.above_iff_of_rank_lt (h.rank_lt hf)).mpr had)
    · exact .up ((h.idom?_of_ne hbc).trans hy) (ih fun hcy => hkeep (.up hy hcy))

theorem Turn.ranked : (t.setParent c d).Ranked f.rank := by
  refine ⟨?_, fun b e he => ?_, fun b e he => ?_⟩
  · change (t.setParent c d).idom? t.entry = none
    rw [h.idom?_of_ne (by rw [h.stage.entry]; exact Ne.symm h.ne_entry)]
    exact h.stage.ranked.root
  · rcases h.idom?_cases he with ⟨rfl, rfl⟩ | ⟨-, he⟩
    · exact ⟨h.isReachable_iff.mpr (.inr h.parent), h.rank_lt hf⟩
    · obtain ⟨hin, hlt⟩ := h.stage.ranked.parent b e he
      exact ⟨h.isReachable_iff.mpr (.inr hin), hlt⟩
  · change _ ≤ (t.idoms.setIfInBounds c (some d)).size
    rw [Array.size_setIfInBounds, h.stage.size]
    exact hf.rank_le (h.inside he)

theorem Turn.within (hab : f.Dominates a c) (hne : a ≠ c) : f.Dominates a d := by
  have hpreds : ∀ q ∈ (f.block c).preds, t.isReachable q → t.Above a q := fun q hq hin =>
    h.stage.above_of_dominates hin (hf.dominates_pred hab hne hq)
  have hle := ((h.above a).mpr hpreds).rank_le h.stage.ranked
  obtain ⟨q, hq, hreach, hlt⟩ := hf.exists_pred_rank_lt h.reachable h.ne_entry
  have hin := h.stage.passed q hreach (by rw [← h.rank]; exact hlt)
  rcases h.stage.dominates_above ((h.above d).mp (.refl d) q hq hin) (hf.dominates_pred hab hne hq) with
    hdom | hgt
  · exact hdom
  · omega

/-- Another block keeps its parent, and still everything above all its predecessors is above that
parent. The update can only take away what is strictly between `c` and `d`. If it takes something from
the parent of `b`, then `c` is above that parent, which the current pass has not changed, and so `c` is
above an earlier predecessor of `b`, from which it is taken as well. -/
theorem Turn.common (he : t.idom? b = some e) (hall : ∀ q ∈ (f.block b).preds, (t.setParent c d).isReachable q →
      (t.setParent c d).Above a q) : (t.setParent c d).Above a e := by
  have hold := h.stage.common b e he a fun q hq hin =>
    h.above_of_above (hall q hq (h.isReachable_iff.mpr (.inr hin))) hin
  refine h.above_setParent hf hold fun hce => ?_
  obtain ⟨q, hq, hreach, hqb⟩ := hf.exists_pred_rank_lt (h.stage.inside b e he) (h.stage.ne_entry he)
  have hin := h.stage.early b e he q hreach hqb
  have hceRank := hce.rank_le h.stage.ranked
  have heq := h.stage.ahead b e he q hq hqb (.inr (by rw [← h.rank]; exact hceRank))
  have hcq := h.above_setParent hf (hce.trans heq) fun _ => .inl le_rfl
  rcases (hall q hq (h.isReachable_iff.mpr (.inr hin))).total hcq with hac | hca
  · rcases hac.cases_up with rfl | ⟨y, hy, hay⟩
    · exact .inl le_rfl
    · obtain ⟨-, rfl⟩ := (h.idom?_cases hy).resolve_right fun hne => hne.1 rfl
      exact .inr ((h.above_iff_of_rank_lt (h.rank_lt hf)).mp hay)
  · exact .inl (hca.rank_le (h.ranked hf))

theorem Turn.stage_setParent : Stage f (i + 1) (t.setParent c d) where
  entry := h.stage.entry
  order := h.stage.order
  size := by
    change (t.idoms.setIfInBounds c (some d)).size = _
    rw [Array.size_setIfInBounds, h.stage.size]
  ranked := h.ranked hf
  within b e he a hdom := by
    rcases h.idom?_cases he with ⟨rfl, rfl⟩ | ⟨-, he⟩
    · by_cases hab : a = b
      · exact .inl hab
      · exact .inr (h.within hf hdom hab)
    · exact h.stage.within b e he a hdom
  common b e he a hall := by
    rcases h.idom?_cases he with ⟨rfl, rfl⟩ | ⟨-, he⟩
    · refine (h.above_iff_of_rank_lt (h.rank_lt hf)).mpr ((h.above a).mpr fun q hq hin => ?_)
      exact h.above_of_above (hall q hq (h.isReachable_iff.mpr (.inr hin))) hin
    · exact h.common hf he hall
  inside _ _ := h.inside
  passed b hb hlt := by
    rw [h.isReachable_iff]
    by_cases hbc : f.rank b = f.rank c
    · exact .inl (rank_inj hb hbc)
    · have hrank := h.rank
      exact .inr (h.stage.passed b hb (by omega))
  early b e he x hx hlt := by
    rw [h.isReachable_iff]
    rcases h.idom?_cases he with ⟨rfl, -⟩ | ⟨-, he⟩
    · exact .inr (h.stage.passed x hx (h.rank ▸ hlt))
    · exact .inr (h.stage.early b e he x hx hlt)
  ahead b e he q hq hlt hi := by
    have hrank := h.rank
    rcases h.idom?_cases he with ⟨rfl, rfl⟩ | ⟨hb, he⟩
    · have hin := h.stage.passed q (reachable_of_rank_lt hlt) (by omega)
      exact (h.above_iff_of_rank_lt hlt).mpr ((h.above d).mp (.refl d) q hq hin)
    · have hbi : f.rank b ≠ i := fun heq => hb (rank_inj (h.stage.inside b e he) (heq.trans hrank.symm))
      rcases hi with hi | hi
      · have hold := h.stage.ahead b e he q hq hlt (.inl (by omega))
        exact (h.above_iff_of_rank_lt (by omega)).mpr hold
      · have hold := h.stage.ahead b e he q hq hlt (.inr (by omega))
        exact h.above_setParent hf hold fun _ => .inl (by omega)

end

def pairs (f : Func) (t : DomTree) : Finset (BlockId × BlockId) :=
  ((Finset.range f.blocks.size) ×ˢ (Finset.range (f.blocks.size + 1))).filter fun x =>
    t.isReachable x.1 → x.2 ∈ t.ancestors x.1

theorem Ranked.mem_pairs {rank : BlockId → Nat} (ht : t.Ranked rank) : (b, a) ∈ pairs f t ↔
    b < f.blocks.size ∧ a < f.blocks.size + 1 ∧ (t.isReachable b → t.Above a b) := by
  rw [pairs, Finset.mem_filter, Finset.mem_product, Finset.mem_range, Finset.mem_range, and_assoc, ht.mem_ancestors]

theorem card_pairs_le (f : Func) (t : DomTree) : (pairs f t).card ≤ f.blocks.size * (f.blocks.size + 1) := by
  refine (Finset.card_filter_le _ _).trans ?_
  rw [Finset.card_product, Finset.card_range, Finset.card_range]

section

variable (hf : f.Linked)

include hf

theorem Turn.lt_of_reachable (h : Turn f i t c d) (hb : f.Reachable b) : b < f.blocks.size := by
  by_cases hne : b = f.entry
  · rw [hne]
    exact h.reachable.entry_lt h.ne_entry
  · exact hf.lt hb hne

theorem Turn.card_pairs_lt (h : Turn f i t c d) (hnew : t.idom? c ≠ some d) :
    (pairs f (t.setParent c d)).card < (pairs f t).card := by
  have hsub : pairs f (t.setParent c d) ⊆ pairs f t := by
    rintro ⟨b, a⟩ hmem
    rw [(h.ranked hf).mem_pairs] at hmem
    rw [h.stage.ranked.mem_pairs]
    exact ⟨hmem.1, hmem.2.1, fun hin => h.above_of_above (hmem.2.2 (h.isReachable_iff.mpr (.inr hin))) hin⟩
  have hin := h.isReachable_iff.mpr (.inl rfl)
  refine Finset.card_lt_card (Finset.ssubset_iff_of_subset hsub |>.mpr ?_)
  cases he : t.idom? c with
  | none =>
    -- the block was not in the tree, and had a block as ancestor that does not exist
    refine ⟨(c, f.blocks.size), ?_, ?_⟩
    · rw [h.stage.ranked.mem_pairs]
      refine ⟨h.lt, Nat.lt_succ_self _, fun hc => ?_⟩
      rcases DomTree.isReachable_iff.mp hc with hc | ⟨e, hc⟩
      · exact absurd (hc.trans h.stage.entry) h.ne_entry
      · exact absurd (he.symm.trans hc) nofun
    · rw [(h.ranked hf).mem_pairs]
      rintro ⟨-, -, habove⟩
      have hreach := (habove hin).isReachable (h.ranked hf) hin
      exact lt_irrefl _ (h.lt_of_reachable hf ((h.stage_setParent hf).reachable hreach))
  | some e =>
    have hlt := h.lt_of_reachable hf (h.stage.reachable (h.stage.ranked.parent c e he).1)
    refine ⟨(c, e), ?_, ?_⟩
    · rw [h.stage.ranked.mem_pairs]
      exact ⟨h.lt, Nat.lt_succ_of_lt hlt, fun _ => .up he (.refl e)⟩
    · rw [(h.ranked hf).mem_pairs]
      rintro ⟨-, -, habove⟩
      have hrank := (h.stage.ranked.parent c e he).2
      rcases (habove hin).cases_up with rfl | ⟨y, hy, hey⟩
      · exact lt_irrefl _ hrank
      · obtain ⟨-, rfl⟩ := (h.idom?_cases hy).resolve_right fun hne => hne.1 rfl
        have hed := (h.above_iff_of_rank_lt (h.rank_lt hf)).mp hey
        have heq := hed.eq_of_rank_le h.stage.ranked ((h.above_old he).rank_le h.stage.ranked)
        exact hnew (by rw [he, heq])

omit hf in
theorem setParent_eq_self (hd : t.idom? c = some d) : t.setParent c d = t := by
  have hget : t.idoms[c]? = some (some d) := by
    rw [idom?, Array.getD_eq_getD_getElem?] at hd
    cases hc : t.idoms[c]? with
    | none =>
      rw [hc] at hd
      cases hd
    | some e =>
      rw [hc] at hd
      rw [← hd]
      rfl
  have hset : t.idoms.setIfInBounds c (some d) = t.idoms := by
    refine Array.ext_getElem? fun k => ?_
    rw [Array.getElem?_setIfInBounds]
    split
    · next hk => rw [← hk, hget, if_pos (lt_of_idom? hd)]
    · rfl
  rw [setParent, hset]

theorem Stage.update (ht : Stage f i t) (hc : f.Reachable c) (hne : c ≠ f.entry)
    (hrank : f.rank c = i) : Stage f (i + 1) (DomTree.update f t c) ∧
      (DomTree.update f t c = t ∧ (∃ d, t.idom? c = some d ∧ ∀ q ∈ (f.block c).preds, t.isReachable q → t.Above d q) ∨
        (pairs f (DomTree.update f t c)).card < (pairs f t).card) := by
  obtain ⟨q, hq, hreach, hlt⟩ := hf.exists_pred_rank_lt hc hne
  have hin := ht.passed q hreach (by rw [← hrank]; exact hlt)
  rcases ht.ranked.parentOf? with ⟨-, hnone⟩ | ⟨d, hd, hparent, habove⟩
  · exact absurd hin (hnone q hq)
  have h : Turn f i t c d := ⟨ht, hf.lt hc hne, hc, hne, hrank, hparent, habove⟩
  have hupdate : DomTree.update f t c = t.setParent c d := by
    rw [DomTree.update, hd]
    rfl
  rw [hupdate]
  refine ⟨h.stage_setParent hf, ?_⟩
  by_cases hsame : t.idom? c = some d
  · exact .inl ⟨setParent_eq_self hsame, d, hsame, (habove d).mp (.refl d)⟩
  · exact .inr (h.card_pairs_lt hf hsame)

/-- A pass leaves fewer pairs, or it changes nothing, and then every parent is above the predecessors. -/
theorem Stage.pass {post : List BlockId} : ∀ {pre : List BlockId} {t : DomTree}, Stage f pre.length t →
    f.reversePostorder = pre ++ post → pre ≠ [] →
    Stage f f.reversePostorder.length (post.foldl (DomTree.update f) t) ∧
      (post.foldl (DomTree.update f) t = t ∧ (∀ c ∈ post, ∃ d, t.idom? c = some d ∧
          ∀ q ∈ (f.block c).preds, t.isReachable q → t.Above d q) ∨
        (pairs f (post.foldl (DomTree.update f) t)).card < (pairs f t).card) := by
  induction post with
  | nil =>
    intro pre t ht hsplit _
    rw [hsplit, append_nil]
    exact ⟨ht, .inl ⟨rfl, forall_mem_nil _⟩⟩
  | cons c post ih =>
    intro pre t ht hsplit hpre
    have hmem := mem_iff_append.mpr ⟨_, _, hsplit⟩
    have hne : c ≠ f.entry := by
      rintro rfl
      obtain ⟨x, pre, rfl⟩ := exists_cons_of_ne_nil hpre
      have hhead := f.reversePostorder_head
      rw [hsplit] at hhead
      obtain rfl : x = f.entry := Option.some.inj hhead
      exact not_mem_of_split f.reversePostorder_nodup hsplit mem_cons_self
    obtain ⟨hstage, hturn⟩ := ht.update hf (mem_reversePostorder_iff.mp hmem) hne (rank_of_split hsplit)
    have hlen : (pre ++ [c]).length = pre.length + 1 := by simp
    rw [← hlen] at hstage
    obtain ⟨hend, hrest⟩ := ih hstage (by rw [hsplit, append_assoc]; rfl) (by simp)
    refine ⟨hend, ?_⟩
    rw [foldl_cons]
    rcases hturn with ⟨hsame, hfixed⟩ | hless
    · rw [hsame] at hrest ⊢
      exact hrest.imp (And.imp_right fun hall => forall_mem_cons.mpr ⟨hfixed, hall⟩) id
    · refine .inr ?_
      rcases hrest with ⟨heq, -⟩ | hrest
      · rw [heq]
        exact hless
      · omega

end

theorem Above.congr (h : t'.idoms = t.idoms) (hab : t.Above a b) : t'.Above a b := by
  induction hab with
  | refl => exact .refl _
  | up hd _ ih => exact .up (by rw [idom?, h]; exact hd) ih

theorem Stage.congr (ht : Stage f i t) (he : t'.entry = t.entry) (ho : t'.order = t.order)
    (h : t'.idoms = t.idoms) : Stage f i t' := by
  have hidom : ∀ b, t'.idom? b = t.idom? b := fun b => by rw [idom?, h]; rfl
  have hreach : ∀ b, t'.isReachable b = t.isReachable b := fun b => by
    rw [isReachable, isReachable, he, hidom]
  have habove : ∀ a b, t'.Above a b ↔ t.Above a b := fun a b => ⟨.congr h.symm, .congr h⟩
  refine ⟨he.trans ht.entry, ho.trans ht.order, by rw [h]; exact ht.size, ⟨?_, ?_, ?_⟩, ?_, ?_, ?_, ?_, ?_, ?_⟩
  all_goals simp only [hidom, hreach, habove, he, h]
  · exact ht.ranked.root
  · exact ht.ranked.parent
  · exact ht.ranked.bound
  · exact ht.within
  · exact ht.common
  · exact ht.inside
  · exact ht.passed
  · exact ht.early
  · exact ht.ahead

theorem pairs_congr (ht : Stage f i t) (ht' : Stage f i t') (h : t'.idoms = t.idoms) : pairs f t' = pairs f t := by
  ext ⟨b, a⟩
  have hreach : t'.isReachable b = t.isReachable b := by
    rw [isReachable, isReachable, ht.entry, ht'.entry, idom?, h]
    rfl
  rw [ht.ranked.mem_pairs, ht'.ranked.mem_pairs, hreach]
  exact and_congr_right fun _ => and_congr_right fun _ => imp_congr_right fun _ => ⟨.congr h.symm, .congr h⟩

theorem Stage.again (ht : Stage f f.reversePostorder.length t) : Stage f i t :=
  { ht with
    passed := fun b hb _ => ht.passed b hb (rank_lt hb)
    ahead := fun b d hd q hq hlt _ => ht.ahead b d hd q hq hlt (.inl (rank_lt (ht.inside b d hd))) }

/-- A tree that holds all blocks, and that no pass changes. -/
structure Solved (f : Func) (t : DomTree) : Prop where
  stage : Stage f f.reversePostorder.length t
  fixed : ∀ c, f.Reachable c → c ≠ f.entry → ∃ d, t.idom? c = some d ∧
    ∀ q ∈ (f.block c).preds, f.Reachable q → t.Above d q

section

variable (hf : f.Linked)

include hf

theorem Stage.settle (fuel : Nat) : ∀ {t : DomTree}, Stage f 1 t → (pairs f t).card < fuel →
    Solved f (DomTree.settle f fuel t) := by
  induction fuel with
  | zero => exact fun _ hfuel => absurd hfuel (Nat.not_lt_zero _)
  | succ fuel ih =>
    intro t ht hfuel
    obtain ⟨tail, horder⟩ := f.reversePostorder_eq_cons
    have htail : t.order.tail = tail := by
      rw [ht.order, horder]
      rfl
    obtain ⟨hpass, hresult⟩ :=
      Stage.pass hf (show Stage f [f.entry].length t from ht) horder (cons_ne_nil _ _)
    have hnext : Stage f f.reversePostorder.length (round f t) := by
      refine hpass.congr ?_ ?_ ?_ <;> rw [round, htail]
    have hcard := pairs_congr hpass hnext (by rw [round, htail])
    rw [DomTree.settle]
    split
    · next hsame =>
      have hpairs := pairs_congr ht hnext.again hsame
      rcases hresult with ⟨-, hfixed⟩ | hless
      · refine ⟨hnext, fun c hc hne => ?_⟩
        have hmem := mem_reversePostorder_iff.mpr hc
        rw [horder] at hmem
        have hctail := (mem_append.mp hmem).resolve_left fun h => hne (mem_singleton.mp h)
        obtain ⟨d, hd, habove⟩ := hfixed c hctail
        refine ⟨d, by rw [idom?, hsame]; exact hd, fun q hq hreach => .congr hsame (habove q hq ?_)⟩
        have hin := hnext.passed q hreach (rank_lt hreach)
        rw [isReachable, idom?, hsame, hnext.entry, ← ht.entry] at hin
        exact hin
      · rw [← hcard, hpairs] at hless
        exact absurd hless (lt_irrefl _)
    · next hdiff =>
      refine ih hnext.again ?_
      rcases hresult with ⟨heq, -⟩ | hless
      · exact absurd (by rw [round, htail, heq]) hdiff
      · rw [hcard]
        omega

theorem solved_compute : Solved f (DomTree.compute f) := by
  let t0 : DomTree := ⟨f.entry, f.reversePostorder, Array.replicate f.blocks.size none, 0, {}⟩
  suffices h : Solved f (DomTree.settle f ((f.blocks.size + 1) * (f.blocks.size + 1) + 1) t0) by
    refine ⟨h.stage.congr rfl rfl rfl, fun b hb hne => ?_⟩
    obtain ⟨d, hd, hfixed⟩ := h.fixed b hb hne
    exact ⟨d, hd, fun q hq hr => (hfixed q hq hr).congr (by rfl)⟩
  refine Stage.settle hf _ ?_ ?_
  · have hnone : ∀ b, t0.idom? b = none := fun b => getD_replicate ..
    refine ⟨rfl, rfl, Array.size_replicate, ⟨hnone _, ?_, ?_⟩, ?_, ?_, ?_, fun b hb hlt => ?_, ?_, ?_⟩
    all_goals try simp only [hnone, reduceCtorEq, false_imp_iff, implies_true]
    have hb : f.rank b = f.rank f.entry := by
      have hentry : f.rank f.entry = 0 := by
        obtain ⟨tail, hr⟩ := f.reversePostorder_eq_cons
        rw [rank, hr, idxOf_cons_self]
      omega
    exact isReachable_iff.mpr (.inl (rank_inj ‹_› hb))
  · have hle := card_pairs_le f t0
    have hmul : f.blocks.size * (f.blocks.size + 1) ≤ (f.blocks.size + 1) * (f.blocks.size + 1) :=
      Nat.mul_le_mul_right _ (Nat.le_succ _)
    omega

/-- The ancestors of a block in a solved tree are its dominators. -/
theorem Solved.above_iff (ht : Solved f t) (hb : f.Reachable b) : t.Above a b ↔ f.Dominates a b := by
  constructor
  · intro hab rest htrail
    generalize hbs : b :: rest = bs at htrail
    induction htrail generalizing b rest with
    | start =>
      obtain ⟨rfl, rfl⟩ := List.cons.inj hbs
      rcases hab.cases_up with rfl | ⟨d, hd, -⟩
      · exact mem_cons_self
      · rw [← ht.stage.entry, ht.stage.ranked.root] at hd
        cases hd
    | @step q c rest' trail edge ih =>
      obtain ⟨rfl, rfl⟩ := List.cons.inj hbs
      rcases hab.cases_up with rfl | ⟨d, hd, had⟩
      · exact mem_cons_self
      · obtain ⟨d', hd', habove⟩ := ht.fixed b hb (ht.stage.ne_entry hd)
        obtain rfl := Option.some.inj (hd.symm.trans hd')
        have hreach := trail.reachable q mem_cons_self
        exact mem_cons_of_mem b (ih hreach (had.trans (habove q ((hf.edge q b).mp edge) hreach)) rest' rfl)
  · exact ht.stage.above_of_dominates (ht.stage.passed b hb (rank_lt hb))

theorem isReachable_compute_iff : (compute f).isReachable b ↔ f.Reachable b :=
  ⟨(solved_compute hf).stage.reachable, fun hb => (solved_compute hf).stage.passed b hb (rank_lt hb)⟩

theorem mem_ancestors_compute_iff (hb : f.Reachable b) : a ∈ (compute f).ancestors b ↔ f.Dominates a b :=
  (solved_compute hf).stage.ranked.mem_ancestors.trans ((solved_compute hf).above_iff hf hb)

theorem dominates_compute_iff : (compute f).dominates a b ↔ f.Reachable a ∧ f.Reachable b ∧ f.Dominates a b := by
  have ht := solved_compute hf
  have hlisted : (compute f).Listed := by
    obtain ⟨tail, hr⟩ := f.reversePostorder_eq_cons
    refine ⟨?_, ht.stage.order ▸ f.reversePostorder_nodup, fun b d hd => ?_⟩
    · rw [ht.stage.order, ht.stage.entry, hr, tail_cons]
    · rw [ht.stage.order]
      exact mem_reversePostorder_iff.mpr (ht.stage.inside b d hd)
  rw [hlisted.dominates_iff ht.stage.ranked rfl, isReachable_compute_iff hf, isReachable_compute_iff hf]
  exact and_congr_right fun _ => and_congr_right fun hb => ht.above_iff hf hb

theorem exists_idom?_compute (hb : f.Reachable b) (hne : b ≠ f.entry) :
    ∃ d, (compute f).idom? b = some d ∧ d ≠ b ∧ ∀ a, f.Dominates a d ↔ f.Dominates a b ∧ a ≠ b := by
  have ht := solved_compute hf
  obtain ⟨d, hd, -⟩ := ht.fixed b hb hne
  obtain ⟨hin, hrank⟩ := ht.stage.ranked.parent b d hd
  have hdb := (ht.above_iff hf hb).mp (.up hd (.refl d))
  have hdne : d ≠ b := fun heq => lt_irrefl _ (heq ▸ hrank)
  refine ⟨d, hd, hdne, fun a => ⟨fun ha => ⟨ha.trans hdb, ?_⟩, fun ⟨ha, hab⟩ => ?_⟩⟩
  · rintro rfl
    exact hdne (hdb.antisymm hb ha)
  · exact (ht.stage.within b d hd a ha).resolve_left hab

end

end DomTree

namespace Func

variable {f g : Func}

theorem SameGraph.settle (hg : f.SameGraph g) : ∀ (fuel : Nat) (t : DomTree),
    DomTree.settle g fuel t = DomTree.settle f fuel t
  | 0, _ => rfl
  | fuel + 1, t => by
    have hupdate : DomTree.update g = DomTree.update f := by
      funext t b
      rw [DomTree.update, DomTree.update, parentOf?, parentOf?, hg.preds]
    have hround : DomTree.round g = DomTree.round f := by
      funext t
      rw [DomTree.round, DomTree.round, hupdate]
    rw [DomTree.settle, DomTree.settle, hround, hg.settle fuel]

theorem SameGraph.compute (hg : f.SameGraph g) : DomTree.compute g = DomTree.compute f := by
  rw [DomTree.compute, DomTree.compute, hg.size, hg.entry, hg.reversePostorder, hg.settle]

end Func

end SsaCodegen
