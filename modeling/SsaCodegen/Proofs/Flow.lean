import SsaCodegen.Proofs.Function
import SsaCodegen.Proofs.Reach
import SsaCodegen.Ssa.Check

/-! The control flow graph of a function, walks in it, and dominance: a block dominates another one if every walk
from the entry to the latter passes through it. -/

namespace SsaCodegen

open List

theorem not_mem_of_split {α : Type} {l pre post : List α} {x : α} (hl : l.Nodup) (h : l = pre ++ x :: post) :
    x ∉ pre := by
  rw [h] at hl
  exact fun hmem => (nodup_append.mp hl).2.2 x hmem x mem_cons_self rfl

namespace Func

variable {f g : Func} {b c : BlockId} {v : ValueId}

/-- Edges that are listed at both ends, as many of them as the kind of a block calls for, and an
entry that leads to all blocks and that nothing leads to. -/
structure Flow (f : Func) : Prop where
  entry_lt : f.entry < f.blocks.size
  entry_preds : (f.block f.entry).preds = []
  succ_lt : ∀ b c, c ∈ (f.block b).succs → c < f.blocks.size
  pred_lt : ∀ b c, c ∈ (f.block b).preds → c < f.blocks.size
  count : ∀ b c, (f.block c).preds.count b = (f.block b).succs.count c
  succs_nodup : ∀ b, (f.block b).succs.Nodup
  kind : ∀ b, b < f.blocks.size → (f.block b).succs.length = successorsOf (f.block b).kind
  reachable : ∀ b, b < f.blocks.size → Leads (fun b => (f.block b).succs) f.entry b

abbrev Reachable (f : Func) (b : BlockId) : Prop := Leads (fun b => (f.block b).succs) f.entry b

/-- Every edge is listed at both its ends. -/
structure Linked (f : Func) : Prop where
  edge : ∀ b c, c ∈ (f.block b).succs ↔ b ∈ (f.block c).preds

/-- Every edge is listed equally often at both its ends. -/
structure Balanced (f : Func) : Prop where
  count : ∀ b c, (f.block c).preds.count b = (f.block b).succs.count c

theorem lt_of_mem_succs (h : c ∈ (f.block b).succs) : b < f.blocks.size := by
  by_contra hge
  rw [block_eq_default f (not_lt.mp hge)] at h
  cases h

theorem lt_of_mem_preds (h : b ∈ (f.block c).preds) : c < f.blocks.size := by
  by_contra hge
  rw [block_eq_default f (not_lt.mp hge)] at h
  cases h

theorem lt_of_mem_values (h : v ∈ (f.block b).values) : b < f.blocks.size := by
  by_contra hge
  rw [block_eq_default f (not_lt.mp hge)] at h
  cases h

theorem lt_of_control (h : (f.block b).control = some v) : b < f.blocks.size := by
  by_contra hge
  rw [block_eq_default f (not_lt.mp hge)] at h
  cases h

theorem lt_of_kind {k : BlockKind} (h : (f.block b).kind = k) (hk : k ≠ .plain) : b < f.blocks.size := by
  by_contra hge
  rw [block_eq_default f (not_lt.mp hge)] at h
  exact hk h.symm

theorem linked_iff : f.Linked ↔ (∀ b < f.blocks.size, ∀ c ∈ (f.block b).succs, b ∈ (f.block c).preds) ∧
      ∀ c < f.blocks.size, ∀ b ∈ (f.block c).preds, c ∈ (f.block b).succs := by
  constructor
  · exact fun h => ⟨fun b _ c hc => (h.edge b c).mp hc, fun c _ b hb => (h.edge b c).mpr hb⟩
  · exact fun ⟨hsuccs, hpreds⟩ => ⟨fun b c =>
      ⟨fun hc => hsuccs b (lt_of_mem_succs hc) c hc, fun hb => hpreds c (lt_of_mem_preds hb) b hb⟩⟩

instance (f : Func) : Decidable f.Linked := decidable_of_iff _ linked_iff.symm

theorem Linked.lt (hf : f.Linked) (hb : f.Reachable b) (hne : b ≠ f.entry) : b < f.blocks.size := by
  rcases Relation.ReflTransGen.cases_tail hb with heq | ⟨c, _, hc⟩
  · exact absurd heq hne
  · exact lt_of_mem_preds ((hf.edge c b).mp hc)

theorem Reachable.entry_lt (hb : f.Reachable b) (hne : b ≠ f.entry) : f.entry < f.blocks.size := by
  rcases Relation.ReflTransGen.cases_head hb with heq | ⟨c, hc, _⟩
  · exact absurd heq.symm hne
  · exact lt_of_mem_succs hc

theorem Balanced.linked (h : f.Balanced) : f.Linked := by
  refine ⟨fun b c => ?_⟩
  rw [← count_pos_iff, ← count_pos_iff, h.count]

theorem Balanced.succ_lt (h : f.Balanced) (hc : c ∈ (f.block b).succs) :
    c < f.blocks.size := lt_of_mem_preds ((h.linked.edge b c).mp hc)

theorem Flow.balanced (h : f.Flow) : f.Balanced := ⟨h.count⟩

theorem Flow.linked (h : f.Flow) : f.Linked := h.balanced.linked

theorem Flow.edge (h : f.Flow) : c ∈ (f.block b).succs ↔ b ∈ (f.block c).preds :=
  h.linked.edge b c

theorem Flow.lt (h : f.Flow) (hb : f.Reachable b) : b < f.blocks.size := by
  by_cases hne : b = f.entry
  · rw [hne]
    exact h.entry_lt
  · exact h.linked.lt hb hne

theorem Flow.preds_nodup (h : f.Flow) (b : BlockId) : (f.block b).preds.Nodup := by
  rw [nodup_iff_count_le_one]
  intro p
  rw [h.count]
  exact nodup_iff_count_le_one.mp (h.succs_nodup p) b

theorem Flow.predIndex?_eq_some (h : f.Flow) {q : BlockId} {k : Nat} :
    f.predIndex? b q = some k ↔ (f.block b).preds[k]? = some q := idxOf?_eq_some_iff (h.preds_nodup b)

/-- The same blocks with the same edges. -/
structure SameGraph (f g : Func) : Prop where
  entry : g.entry = f.entry
  size : g.blocks.size = f.blocks.size
  kind : ∀ b, (g.block b).kind = (f.block b).kind
  preds : ∀ b, (g.block b).preds = (f.block b).preds
  succs : ∀ b, (g.block b).succs = (f.block b).succs

theorem SameGraph.refl (f : Func) : f.SameGraph f :=
  ⟨rfl, rfl, fun _ => rfl, fun _ => rfl, fun _ => rfl⟩

theorem SameGraph.symm (h : f.SameGraph g) : g.SameGraph f :=
  ⟨h.entry.symm, h.size.symm, fun b => (h.kind b).symm, fun b => (h.preds b).symm, fun b => (h.succs b).symm⟩

theorem SameGraph.trans {h : Func} (hfg : f.SameGraph g) (hgh : g.SameGraph h) : f.SameGraph h :=
  ⟨hgh.entry.trans hfg.entry, hgh.size.trans hfg.size, fun b => (hgh.kind b).trans (hfg.kind b),
    fun b => (hgh.preds b).trans (hfg.preds b), fun b => (hgh.succs b).trans (hfg.succs b)⟩

theorem SameGraph.modifyBlock (f : Func) (b : BlockId) (g : Block → Block)
    (hk : ∀ k, (g k).kind = k.kind) (hp : ∀ k, (g k).preds = k.preds)
    (hs : ∀ k, (g k).succs = k.succs) : f.SameGraph (f.modifyBlock b g) := by
  refine ⟨rfl, blocks_size_modifyBlock f b g, ?_, ?_, ?_⟩ <;>
  · intro c
    rw [block_modifyBlock]
    split
    · first | exact hk _ | exact hp _ | exact hs _
    · rfl

theorem Flow.congr (h : f.Flow) (hg : f.SameGraph g) : g.Flow where
  entry_lt := by
    rw [hg.entry, hg.size]
    exact h.entry_lt
  entry_preds := by
    rw [hg.entry, hg.preds]
    exact h.entry_preds
  succ_lt b c hc := by
    rw [hg.succs] at hc
    rw [hg.size]
    exact h.succ_lt b c hc
  pred_lt b c hc := by
    rw [hg.preds] at hc
    rw [hg.size]
    exact h.pred_lt b c hc
  count b c := by
    rw [hg.preds, hg.succs]
    exact h.count b c
  succs_nodup b := by
    rw [hg.succs]
    exact h.succs_nodup b
  kind b hb := by
    rw [hg.size] at hb
    rw [hg.succs, hg.kind]
    exact h.kind b hb
  reachable b hb := by
    rw [hg.size] at hb
    rw [hg.entry, funext hg.succs]
    exact h.reachable b hb

end Func

namespace Func

variable {f : Func}

theorem blocks_size_addEdge (f : Func) (a b : BlockId) : (f.addEdge a b).blocks.size = f.blocks.size := by
  rw [addEdge, blocks_size_modifyBlock, blocks_size_modifyBlock]

theorem block_addEdge (f : Func) (a b c : BlockId) (hc : c < f.blocks.size) :
    (f.addEdge a b).block c = { f.block c with
      succs := (f.block c).succs ++ if a = c then [b] else []
      preds := (f.block c).preds ++ if b = c then [a] else [] } := by
  rw [addEdge, block_modifyBlock, block_modifyBlock]
  by_cases ha : a = c <;> by_cases hb : b = c <;> simp [ha, hb, hc]

theorem block_addEdges : ∀ (edges : List (BlockId × BlockId)) (f : Func) (c : BlockId), c < f.blocks.size →
    (edges.foldl (fun g e => g.addEdge e.1 e.2) f).block c = { f.block c with
      succs := (f.block c).succs ++ (edges.filter (·.1 == c)).map (·.2)
      preds := (f.block c).preds ++ (edges.filter (·.2 == c)).map (·.1) } := by
  intro edges
  induction edges with
  | nil =>
    simp
  | cons e edges ih =>
    intro f c hc
    rw [foldl_cons, ih _ _ (by rw [blocks_size_addEdge]; exact hc), block_addEdge f _ _ _ hc]
    obtain ⟨a, b⟩ := e
    by_cases ha : a = c <;> by_cases hb : b = c <;> simp [ha, hb]

theorem blocks_size_addEdges : ∀ (edges : List (BlockId × BlockId)) (f : Func),
    (edges.foldl (fun g e => g.addEdge e.1 e.2) f).blocks.size = f.blocks.size := by
  intro edges
  induction edges with
  | nil => exact fun _ => rfl
  | cons e edges ih =>
    intro f
    rw [foldl_cons, ih, blocks_size_addEdge]

theorem entry_addEdges : ∀ (edges : List (BlockId × BlockId)) (f : Func),
    (edges.foldl (fun g e => g.addEdge e.1 e.2) f).entry = f.entry := by
  intro edges
  induction edges with
  | nil => exact fun _ => rfl
  | cons e edges ih =>
    intro f
    rw [foldl_cons, ih]
    rfl

end Func

/-- A walk from the entry along the edges, the last block first. -/
inductive Trail (f : Func) : List BlockId → Prop
  | start : Trail f [f.entry]
  | step {b c : BlockId} {rest : List BlockId} (trail : Trail f (b :: rest))
      (edge : c ∈ (f.block b).succs) : Trail f (c :: b :: rest)

namespace Trail

variable {f : Func} {b c : BlockId} {rest pre bs : List BlockId}

theorem congr {g : Func} (hg : f.SameGraph g) (h : Trail f bs) : Trail g bs := by
  induction h with
  | start =>
    rw [← hg.entry]
    exact .start
  | step _ edge ih =>
    rw [← hg.succs] at edge
    exact .step ih edge

theorem reachable (h : Trail f (b :: rest)) : ∀ c ∈ b :: rest, f.Reachable c := by
  generalize hbs : b :: rest = bs at h
  induction h generalizing b rest with
  | start =>
    intro c hc
    rw [mem_singleton.mp hc]
  | step _ edge ih =>
    exact forall_mem_cons.mpr ⟨(ih rfl _ mem_cons_self).tail edge, ih rfl⟩

theorem tail (h : Trail f (c :: b :: rest)) : Trail f (b :: rest) ∧ c ∈ (f.block b).succs := by
  cases h with
  | step trail edge => exact ⟨trail, edge⟩

theorem of_append : ∀ {pre : List BlockId}, Trail f (pre ++ b :: rest) → Trail f (b :: rest) := by
  intro pre
  induction pre with
  | nil => exact fun h => h
  | cons c pre ih =>
    intro h
    cases pre with
    | nil => exact h.tail.1
    | cons d pre => exact ih h.tail.1

theorem splice {rest' : List BlockId} : ∀ {pre : List BlockId}, Trail f (pre ++ b :: rest) →
    Trail f (b :: rest') → Trail f (pre ++ b :: rest') := by
  intro pre
  induction pre with
  | nil => exact fun _ h' => h'
  | cons c pre ih =>
    intro h h'
    cases pre with
    | nil => exact .step h' h.tail.2
    | cons d pre => exact .step (ih h.tail.1 h') h.tail.2

theorem entry_mem (h : Trail f bs) : f.entry ∈ bs := by
  induction h with
  | start => exact mem_cons_self
  | step _ _ ih => exact mem_cons_of_mem _ ih

theorem lt (hf : f.Flow) (h : Trail f bs) : ∀ b ∈ bs, b < f.blocks.size := by
  induction h with
  | start =>
    intro b hb
    rw [mem_singleton.mp hb]
    exact hf.entry_lt
  | step _ edge ih =>
    intro d hd
    rcases mem_cons.mp hd with rfl | hd
    · exact hf.succ_lt _ d edge
    · exact ih d hd

theorem head_pred (hf : f.Flow) (h : Trail f (c :: b :: rest)) : b ∈ (f.block c).preds :=
  hf.edge.mp h.tail.2

end Trail

namespace Func

variable {f : Func} {a b c : BlockId}

theorem exists_trail (hb : f.Reachable b) : ∃ rest, Trail f (b :: rest) := by
  induction hb with
  | refl => exact ⟨[], .start⟩
  | tail _ hcd ih =>
    obtain ⟨rest, hrest⟩ := ih
    exact ⟨_, .step hrest hcd⟩

theorem Flow.exists_trail (hf : f.Flow) (hb : b < f.blocks.size) : ∃ rest, Trail f (b :: rest) :=
  Func.exists_trail (hf.reachable b hb)

theorem exists_first_trail (hb : f.Reachable b) : ∃ rest, Trail f (b :: rest) ∧ b ∉ rest := by
  obtain ⟨rest, hrest⟩ := exists_trail hb
  -- the first visit is the last one in the list
  obtain ⟨early, late, hsplit, hfirst⟩ := eq_append_cons_of_mem (mem_reverse.mpr (mem_cons_self))
  have hback : b :: rest = late.reverse ++ b :: early.reverse := by
    rw [← reverse_reverse (b :: rest), hsplit]
    simp
  rw [hback] at hrest
  exact ⟨early.reverse, hrest.of_append, fun hmem => hfirst (mem_reverse.mp hmem)⟩

def Dominates (f : Func) (a b : BlockId) : Prop := ∀ rest, Trail f (b :: rest) → a ∈ b :: rest

theorem Dominates.refl (f : Func) (b : BlockId) : f.Dominates b b := fun _ _ => mem_cons_self

theorem dominates_entry (f : Func) (b : BlockId) : f.Dominates f.entry b := fun _ h => h.entry_mem

theorem Dominates.trans (hab : f.Dominates a b) (hbc : f.Dominates b c) : f.Dominates a c := by
  intro rest h
  obtain ⟨pre, post, hsplit⟩ := append_of_mem (hbc rest h)
  rw [hsplit] at h ⊢
  exact mem_append_right pre (hab post h.of_append)

theorem Dominates.antisymm (hb : f.Reachable b) (hab : f.Dominates a b) (hba : f.Dominates b a) : a = b := by
  obtain ⟨rest, hrest, hfirst⟩ := exists_first_trail hb
  rcases mem_cons.mp (hab rest hrest) with hab | hmem
  · exact hab
  · obtain ⟨pre, post, rfl⟩ := append_of_mem hmem
    have hb' := hba post (@Trail.of_append f a post (b :: pre) hrest)
    exact absurd (mem_append_right pre hb') hfirst

section

variable (hf : f.Linked)

include hf

theorem Linked.exists_pred_not_dominated (hb : f.Reachable b) (hne : b ≠ f.entry) :
    ∃ p ∈ (f.block b).preds, f.Reachable p ∧ ¬f.Dominates b p := by
  obtain ⟨rest, hrest, hfirst⟩ := exists_first_trail hb
  cases rest with
  | nil =>
    cases hrest with
    | start => exact absurd rfl hne
  | cons p rest =>
    obtain ⟨htrail, hedge⟩ := hrest.tail
    exact ⟨p, (hf.edge p b).mp hedge, htrail.reachable p mem_cons_self, fun hdom => hfirst (hdom rest htrail)⟩

theorem Linked.dominates_of_preds (hne : b ≠ f.entry) (h : ∀ p ∈ (f.block b).preds, f.Dominates a p) :
    f.Dominates a b := by
  intro rest hrest
  cases rest with
  | nil =>
    cases hrest with
    | start => exact absurd rfl hne
  | cons p rest =>
    obtain ⟨htrail, hedge⟩ := hrest.tail
    exact mem_cons_of_mem b (h p ((hf.edge p b).mp hedge) rest htrail)

end

end Func

end SsaCodegen
