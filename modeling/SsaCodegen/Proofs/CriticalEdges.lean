import SsaCodegen.Ssa.CriticalEdges
import SsaCodegen.Proofs.Allocation.Prepared

/-! Splitting critical edges. A block put on an edge changes no walk but for the visits to it. -/

namespace SsaCodegen

open List Option

variable {l : List Nat} {n x k : Nat}

/-! Occurrences of an element in a list. -/

theorem count_set_add {i c : Nat} (hi : l[i]? = some c) (x : Nat) :
    (l.set i n).count x + (if c = x then 1 else 0) = l.count x + (if n = x then 1 else 0) := by
  obtain ⟨hlt, rfl⟩ := List.getElem?_eq_some_iff.mp hi
  rw [count_set hlt]
  split_ifs with hc <;> grind

theorem count_take_lt {j : Nat} (hj : l[j]? = some x) : (l.take j).count x < l.count x := by
  obtain ⟨hlt, hx⟩ := List.getElem?_eq_some_iff.mp hj
  have hsplit : l = l.take j ++ x :: l.drop (j + 1) := by
    rw [← hx, cons_getElem_drop_succ, take_append_drop]
  have hcount := congrArg (List.count x) hsplit
  rw [count_append, count_cons_self] at hcount
  omega

theorem count_take_lt_of_lt {j : Nat} (hj : l[j]? = some x) (hk : j < k) :
    (l.take j).count x < (l.take k).count x := by
  have hlt := count_take_lt (by rwa [getElem?_take_of_lt hk])
  rwa [take_take, Nat.min_eq_left hk.le] at hlt

theorem eq_of_count_take {j : Nat} (hj : l[j]? = some x) (hk : l[k]? = some x)
    (h : (l.take j).count x = (l.take k).count x) : j = k := by
  rcases lt_trichotomy j k with hlt | heq | hlt
  · exact absurd h (count_take_lt_of_lt hj hlt).ne
  · exact heq
  · exact absurd h (count_take_lt_of_lt hk hlt).ne'

theorem exists_count_take (h : n < l.count x) : ∃ j, l[j]? = some x ∧ (l.take j).count x = n := by
  induction l generalizing n with
  | nil => cases h
  | cons y l ih =>
    by_cases hy : y = x
    · subst hy
      cases n with
      | zero => exact ⟨0, rfl, rfl⟩
      | succ n =>
        rw [count_cons_self] at h
        obtain ⟨j, hj, hn⟩ := ih (Nat.lt_of_succ_lt_succ h)
        exact ⟨j + 1, hj, by rw [take_succ_cons, count_cons_self, hn]⟩
    · rw [count_cons_of_ne hy] at h
      obtain ⟨j, hj, hn⟩ := ih h
      exact ⟨j + 1, hj, by rw [take_succ_cons, count_cons_of_ne hy, hn]⟩

namespace Func

variable {f g : Func} {p c p' c' b : BlockId} {i j i' j' : Nat}

/-- The edge that leaves `p` as its `i`-th comes to `c` as its `j`-th. Edges between the same two blocks are
listed in one order at both ends. -/
structure Edge (f : Func) (p : BlockId) (i : Nat) (c : BlockId) (j : Nat) : Prop where
  out : (f.block p).succs[i]? = some c
  into : (f.block c).preds[j]? = some p
  order : ((f.block p).succs.take i).count c = ((f.block c).preds.take j).count p

section

variable (h : f.Edge p i c j)

include h

theorem Edge.source_lt : p < f.blocks.size := lt_of_mem_succs (mem_of_getElem? h.out)

theorem Edge.target_lt : c < f.blocks.size := lt_of_mem_preds (mem_of_getElem? h.into)

theorem Edge.target_unique (h' : f.Edge p i c' j') : c = c' ∧ j = j' := by
  obtain rfl := some.inj (h.out.symm.trans h'.out)
  exact ⟨rfl, eq_of_count_take h.into h'.into (h.order.symm.trans h'.order)⟩

theorem Edge.source_unique (h' : f.Edge p' i' c j) : p = p' ∧ i = i' := by
  obtain rfl := some.inj (h.into.symm.trans h'.into)
  exact ⟨rfl, eq_of_count_take h.out h'.out (h.order.trans h'.order.symm)⟩

end

theorem Balanced.exists_edge_out (hf : f.Balanced) (hi : (f.block p).succs[i]? = some c) : ∃ j, f.Edge p i c j := by
  have hlt := count_take_lt hi
  rw [← hf.count] at hlt
  obtain ⟨j, hj, hcount⟩ := exists_count_take hlt
  exact ⟨j, hi, hj, hcount.symm⟩

theorem Balanced.exists_edge_into (hf : f.Balanced) (hj : (f.block c).preds[j]? = some p) : ∃ i, f.Edge p i c j := by
  have hlt := count_take_lt hj
  rw [hf.count] at hlt
  obtain ⟨i, hi, hcount⟩ := exists_count_take hlt
  exact ⟨i, hi, hj, hcount⟩

/-- `g` is `f` with an empty block on the edge that leaves `p` as its `i`-th and comes to `c` as its
`j`-th. -/
structure Splits (f g : Func) (p c : BlockId) (i j : Nat) : Prop where
  out : (f.block p).succs[i]? = some c
  into : (f.block c).preds[j]? = some p
  frame : g = { f with blocks := g.blocks }
  size : g.blocks.size = f.blocks.size + 1
  old : ∀ b, b ≠ f.blocks.size → g.block b = { f.block b with
      succs := if b = p then (f.block b).succs.set i f.blocks.size else (f.block b).succs
      preds := if b = c then (f.block b).preds.set j f.blocks.size else (f.block b).preds }
  new : ∃ name, g.block f.blocks.size = ⟨.plain, [], none, [p], [c], name⟩

namespace Splits

variable {b d a : BlockId}

variable (h : Splits f g p c i j)

include h

theorem value (v : ValueId) : g.value v = f.value v := by
  rw [h.frame]
  rfl

theorem args (v : ValueId) : g.args v = f.args v := by
  rw [h.frame]
  rfl

theorem values_eq : g.values = f.values := by
  rw [h.frame]

theorem entry : g.entry = f.entry := by
  rw [h.frame]

theorem locals : g.locals = f.locals := by
  rw [h.frame]

theorem inside (b : BlockId) : (g.block b).values = (f.block b).values ∧
    (g.block b).control = (f.block b).control ∧ (g.block b).kind = (f.block b).kind := by
  by_cases hb : b = f.blocks.size
  · obtain ⟨name, hnew⟩ := h.new
    rw [hb, hnew, f.block_eq_default le_rfl]
    exact ⟨rfl, rfl, rfl⟩
  · rw [h.old b hb]
    exact ⟨rfl, rfl, rfl⟩

theorem block_values (b : BlockId) : (g.block b).values = (f.block b).values := (h.inside b).1

theorem control (b : BlockId) : (g.block b).control = (f.block b).control := (h.inside b).2.1

theorem kind (b : BlockId) : (g.block b).kind = (f.block b).kind := (h.inside b).2.2

section

variable (hb : b ≠ f.blocks.size)

include hb

theorem succs_old : (g.block b).succs =
    if b = p then (f.block b).succs.set i f.blocks.size else (f.block b).succs := by
  rw [h.old b hb]

theorem preds_old : (g.block b).preds =
    if b = c then (f.block b).preds.set j f.blocks.size else (f.block b).preds := by
  rw [h.old b hb]

theorem succs_length : (g.block b).succs.length = (f.block b).succs.length := by
  rw [h.succs_old hb]
  split
  · exact length_set
  · rfl

theorem preds_length : (g.block b).preds.length = (f.block b).preds.length := by
  rw [h.preds_old hb]
  split
  · exact length_set
  · rfl

theorem apart (hp : b ≠ p) (hc : b ≠ c) : g.block b = f.block b := by
  rw [h.old b hb, if_neg hp, if_neg hc]

end

theorem source_lt : p < f.blocks.size := lt_of_mem_succs (mem_of_getElem? h.out)

theorem target_lt : c < f.blocks.size := lt_of_mem_preds (mem_of_getElem? h.into)

theorem old_lt {b : BlockId} (hb : b < g.blocks.size) (hn : b ≠ f.blocks.size) : b < f.blocks.size :=
  (Nat.le_of_lt_succ (hb.trans_eq h.size)).lt_of_ne hn

omit h in
/-- How often a block is listed at one end of the edges, where `e` is the end of the edge that is split and
`d` its other end. -/
theorem count_end {l l' : List BlockId} {e n x : BlockId} {k : Nat} (hne : e ≠ n)
    (hnew : b = n → l = [] ∧ l' = [d]) (hold : b ≠ n → l' = if b = e then l.set k n else l)
    (hk : b = e → l[k]? = some d) : l'.count x + (if b = e ∧ d = x then 1 else 0) =
      l.count x + (if b = e ∧ n = x then 1 else 0) + (if b = n ∧ d = x then 1 else 0) := by
  by_cases hb : b = n
  · obtain ⟨rfl, rfl⟩ := hnew hb
    simp [hb, hne.symm, count_singleton]
  · rw [hold hb]
    by_cases hbe : b = e
    · simp only [hbe, hne, if_true, true_and, false_and, if_false, Nat.add_zero]
      exact count_set_add (hk hbe) x
    · simp [hb, hbe]

theorem count_succs (b d : BlockId) : (g.block b).succs.count d + (if b = p ∧ c = d then 1 else 0) =
    (f.block b).succs.count d + (if b = p ∧ f.blocks.size = d then 1 else 0) +
      (if b = f.blocks.size ∧ c = d then 1 else 0) := by
  refine count_end h.source_lt.ne (fun hb => ?_) h.succs_old fun hb => hb ▸ h.out
  obtain ⟨name, hnew⟩ := h.new
  rw [hb, hnew, f.block_eq_default le_rfl]
  exact ⟨rfl, rfl⟩

theorem count_preds (b d : BlockId) : (g.block d).preds.count b + (if d = c ∧ p = b then 1 else 0) =
    (f.block d).preds.count b + (if d = c ∧ f.blocks.size = b then 1 else 0) +
      (if d = f.blocks.size ∧ p = b then 1 else 0) := by
  refine count_end h.target_lt.ne (fun hd => ?_) h.preds_old fun hd => hd ▸ h.into
  obtain ⟨name, hnew⟩ := h.new
  rw [hd, hnew, f.block_eq_default le_rfl]
  exact ⟨rfl, rfl⟩

theorem balanced (hf : f.Balanced) : g.Balanced := by
  refine ⟨fun b d => ?_⟩
  have hsuccs := h.count_succs b d
  have hpreds := h.count_preds b d
  rw [hf.count] at hpreds
  grind

theorem mem_succs (hd : d ∈ (g.block b).succs) :
    (b = f.blocks.size ∧ d = c) ∨ (b = p ∧ d = f.blocks.size) ∨ d ∈ (f.block b).succs := by
  have hcount := h.count_succs b d
  split_ifs at hcount with h1 h2 h3 <;> grind

theorem mem_succs_of (hd : d ∈ (f.block b).succs) : (b = p ∧ c = d) ∨ d ∈ (g.block b).succs := by
  have hcount := h.count_succs b d
  by_cases hsplit : b = p ∧ c = d
  · exact .inl hsplit
  · rw [if_neg hsplit] at hcount
    rw [← count_pos_iff] at hd
    exact .inr (count_pos_iff.mp (by omega))

theorem new_mem_succs : f.blocks.size ∈ (g.block p).succs ∧ c ∈ (g.block f.blocks.size).succs := by
  obtain ⟨name, hnew⟩ := h.new
  rw [hnew, h.succs_old h.source_lt.ne, if_pos rfl]
  exact ⟨mem_iff_getElem?.mpr ⟨i, getElem?_set_self (List.getElem?_eq_some_iff.mp h.out).1⟩, mem_singleton_self c⟩

theorem reachable (hb : f.Reachable b) : g.Reachable b := by
  rw [Reachable, h.entry]
  induction hb with
  | refl => exact .refl
  | @tail b d _ hedge ih =>
    rcases h.mem_succs_of hedge with ⟨rfl, rfl⟩ | hedge
    · exact (ih.tail h.new_mem_succs.1).tail h.new_mem_succs.2
    · exact ih.tail hedge

theorem all_reachable (hreach : ∀ b < f.blocks.size, f.Reachable b) (b : BlockId) (hb : b < g.blocks.size) :
    g.Reachable b := by
  by_cases hn : b = f.blocks.size
  · exact hn ▸ (h.reachable (hreach p h.source_lt)).tail h.new_mem_succs.1
  · exact h.reachable (hreach b (h.old_lt hb hn))

theorem succs_nodup (hf : f.Flow) (b : BlockId) : (g.block b).succs.Nodup := by
  by_cases hb : b = f.blocks.size
  · obtain ⟨name, hnew⟩ := h.new
    rw [hb, hnew]
    exact nodup_singleton c
  · rw [h.succs_old hb]
    split
    · exact (hf.succs_nodup b).set fun hmem => lt_irrefl _ (hf.succ_lt b _ hmem)
    · exact hf.succs_nodup b

theorem flow (hf : f.Flow) : g.Flow where
  entry_lt := by
    rw [h.entry, h.size]
    exact Nat.lt_succ_of_lt hf.entry_lt
  entry_preds := by
    rw [h.entry, h.preds_old hf.entry_lt.ne, if_neg]
    · exact hf.entry_preds
    · rintro rfl
      have := mem_of_getElem? h.into
      rw [hf.entry_preds] at this
      cases this
  succ_lt _ _ := (h.balanced hf.balanced).succ_lt
  pred_lt d b hb := lt_of_mem_succs (((h.balanced hf.balanced).linked.edge b d).mpr hb)
  count := (h.balanced hf.balanced).count
  succs_nodup := h.succs_nodup hf
  kind b hb := by
    by_cases hn : b = f.blocks.size
    · obtain ⟨name, hnew⟩ := h.new
      rw [hn, hnew]
      rfl
    · rw [h.succs_length hn, h.kind]
      exact hf.kind b (h.old_lt hb hn)
  reachable := h.all_reachable hf.reachable

section

variable (hf : f.Balanced) (hentry : f.entry < f.blocks.size)

include hf hentry

/-- A walk without its visits to the new block is a walk. Before such a visit the walk was at `p`. -/
theorem trail {bs : List BlockId} (ht : Trail g bs) : ∃ b rest, bs = b :: rest ∧
    (b ≠ f.blocks.size → Trail f (b :: rest.filter (· ≠ f.blocks.size))) ∧
    (b = f.blocks.size → ∃ rest', rest = p :: rest' ∧ Trail f (p :: rest'.filter (· ≠ f.blocks.size))) := by
  induction ht with
  | start =>
    rw [h.entry]
    exact ⟨_, _, rfl, fun _ => .start, fun heq => absurd heq hentry.ne⟩
  | @step b d rest _ hedge ih =>
    obtain ⟨b', rest', heq, hold, hnew⟩ := ih
    obtain ⟨rfl, rfl⟩ := List.cons.inj heq
    refine ⟨d, b :: rest, rfl, fun hd => ?_, fun hd => ?_⟩
    · rcases h.mem_succs hedge with ⟨rfl, rfl⟩ | ⟨-, rfl⟩ | hedge
      · obtain ⟨rest', rfl, htrail⟩ := hnew rfl
        rw [filter_cons_of_neg (by simp), filter_cons_of_pos (by simpa using h.source_lt.ne)]
        exact .step htrail (mem_of_getElem? h.out)
      · exact absurd rfl hd
      · have hb := (lt_of_mem_succs hedge).ne
        rw [filter_cons_of_pos (by simpa using hb)]
        exact .step (hold hb) hedge
    · rcases h.mem_succs hedge with ⟨-, rfl⟩ | ⟨rfl, -⟩ | hedge
      · exact absurd hd h.target_lt.ne
      · exact ⟨rest, rfl, hold h.source_lt.ne⟩
      · exact absurd (hd ▸ hf.succ_lt hedge) (lt_irrefl _)

theorem dominates (hb : b ≠ f.blocks.size) (hdom : f.Dominates a b) : g.Dominates a b := by
  intro rest ht
  obtain ⟨b', rest', heq, hold, -⟩ := h.trail hf hentry ht
  obtain ⟨rfl, rfl⟩ := List.cons.inj heq
  exact (mem_cons.mp (hdom _ (hold hb))).elim (fun h => h ▸ mem_cons_self)
    fun h => mem_cons_of_mem _ (mem_of_mem_filter h)

theorem dominates_new (hdom : f.Dominates a p) : g.Dominates a f.blocks.size := by
  intro rest ht
  obtain ⟨b', rest', heq, -, hnew⟩ := h.trail hf hentry ht
  obtain ⟨rfl, rfl⟩ := List.cons.inj heq
  obtain ⟨rest', rfl, htrail⟩ := hnew rfl
  refine mem_cons_of_mem _ ?_
  exact (mem_cons.mp (hdom _ htrail)).elim (fun h => h ▸ mem_cons_self)
    fun h => mem_cons_of_mem _ (mem_of_mem_filter h)

end

theorem sameCode : f.SameCode g where
  entry := h.entry
  params := by rw [h.frame]
  size := congrArg Array.size h.values_eq
  value v := ⟨_, h.value v⟩
  args := h.args
  inside := h.inside

theorem ssaForm (hf : f.SsaForm) : g.SsaForm := by
  have hflow := hf.flow
  have hdom : ∀ b, b < f.blocks.size → ∀ d, f.Dominates d b → g.Dominates d b := fun b hb d =>
    h.dominates hflow.balanced hflow.entry_lt hb.ne
  refine h.sameCode.ssaForm hf (h.flow hflow) ?_ (fun b hb => h.preds_length hb.ne) hdom fun b hb k q hq => ?_
  · rw [h.frame]
    exact ⟨hf.spans.in_pool, hf.spans.apart⟩
  · rw [h.preds_old hb.ne] at hq
    -- the operand for the new block is the one that was for `p`
    by_cases hsplit : b = c ∧ k = j
    · obtain ⟨rfl, rfl⟩ := hsplit
      have hlt := (List.getElem?_eq_some_iff.mp h.into).1
      rw [if_pos rfl, getElem?_set_self hlt, some.injEq] at hq
      subst hq
      exact ⟨p, h.into, fun _ => h.dominates_new hflow.balanced hflow.entry_lt⟩
    · have hq' : (f.block b).preds[k]? = some q := by
        by_cases hb : b = c
        · have hk : j ≠ k := fun hk => hsplit ⟨hb, hk.symm⟩
          simpa [hb, getElem?_set_ne hk] using hq
        · simpa [hb] using hq
      exact ⟨q, hq', hdom q (hflow.pred_lt b q (mem_of_getElem? hq'))⟩

theorem allocatable {types : TypeTable} (hf : f.Allocatable types) : g.Allocatable types :=
  h.sameCode.allocatable (h.ssaForm hf.ssa) hf

end Splits

theorem block_addBlock (f : Func) (kind : BlockKind) (name : String) (b : BlockId) :
    (f.addBlock kind name).2.block b =
      if b = f.blocks.size then ⟨kind, [], none, [], [], name⟩ else f.block b := by
  rw [block, addBlock, block, Array.getD_eq_getD_getElem?, Array.getD_eq_getD_getElem?, Array.getElem?_push]
  split
  · rfl
  · rfl

def splitEdge (f : Func) (e : BlockId × Nat) : Func := (f.splitEdge? e).getD f

/-- An edge is left alone, or it gets a block of its own, which takes the first place of `p` at `c`. -/
theorem splitEdge_cases (hf : f.Balanced) (hi : (f.block p).succs[i]? = some c) :
    ((f.block c).preds.length < 2 ∧ f.splitEdge (p, i) = f) ∨
      2 ≤ (f.block c).preds.length ∧ ∃ j, Splits f (f.splitEdge (p, i)) p c i j ∧
        ∀ k < j, (f.block c).preds[k]? ≠ some p := by
  have hget : (f.block p).succs.getD i 0 = c := by
    rw [getD_eq_getElem?_getD, hi, getD_some]
  by_cases hlen : (f.block c).preds.length < 2
  · exact .inl ⟨hlen, by simp only [splitEdge, splitEdge?, hget, if_pos hlen, getD_none]⟩
  · have hedge := mem_of_getElem? hi
    have hp := lt_of_mem_succs hedge
    have hc := hf.succ_lt hedge
    obtain ⟨j, hj⟩ : ∃ j, (f.block c).preds.idxOf? p = some j := by
      rw [← isSome_iff_exists, isSome_idxOf?]
      exact (hf.linked.edge p c).mp hedge
    obtain ⟨hjlt, hjget, hfirst⟩ := List.idxOf?_eq_some_iff.mp hj
    let name := (f.block p).name ++ "." ++ (f.block c).name
    let linked := ((f.addBlock .plain name).2.modifyBlock p
      fun k => { k with succs := k.succs.set i f.blocks.size }).modifyBlock f.blocks.size
        fun k => { k with preds := [p], succs := [c] }
    have hsize : (f.addBlock .plain name).2.blocks.size = f.blocks.size + 1 := Array.size_push _
    have hblock : ∀ b, linked.block b = if b = f.blocks.size then ⟨.plain, [], none, [p], [c], name⟩
        else { f.block b with
          succs := if b = p then (f.block b).succs.set i f.blocks.size else (f.block b).succs } := by
      intro b
      simp only [linked, block_modifyBlock, blocks_size_modifyBlock, hsize, block_addBlock]
      by_cases hb : b = f.blocks.size
      · subst hb
        simp [hp.ne]
      · by_cases hbp : b = p
        · subst hbp
          simp [hb, Ne.symm hb, Nat.lt_succ_of_lt hp]
        · simp [hb, Ne.symm hb, hbp, Ne.symm hbp]
    have hindex : linked.predIndex? c p = some j := by
      have hpreds : (linked.block c).preds = (f.block c).preds := by
        rw [hblock, if_neg hc.ne]
      rw [predIndex?, hpreds]
      exact hj
    have heq : f.splitEdge (p, i) =
        linked.modifyBlock c fun k => { k with preds := k.preds.set j f.blocks.size } := by
      simp only [splitEdge, splitEdge?, hget, if_neg hlen, getD_some]
      split
      · next hnone => exact absurd (hindex.symm.trans hnone) (some_ne_none j)
      · next k hsome =>
        rw [some.inj (hindex.symm.trans hsome)]
        rfl
    have hlinked : linked.blocks.size = f.blocks.size + 1 := by
      simp only [linked, blocks_size_modifyBlock, hsize]
    refine .inr ⟨not_lt.mp hlen, j, ⟨hi, List.getElem?_eq_some_iff.mpr ⟨hjlt, hjget⟩, by rw [heq]; rfl,
      by rw [heq, blocks_size_modifyBlock, hlinked], fun b hb => ?_, name, ?_⟩, fun k hk hp' => ?_⟩
    · rw [heq, block_modifyBlock, hlinked, hblock, if_neg hb]
      by_cases hbc : b = c
      · subst hbc
        rw [if_pos ⟨rfl, Nat.lt_succ_of_lt hc⟩, if_pos rfl]
      · rw [if_neg fun h => hbc h.1.symm, if_neg hbc]
    · rw [heq, block_modifyBlock_other _ _ hc.ne, hblock, if_pos rfl]
    · obtain ⟨_, hkget⟩ := List.getElem?_eq_some_iff.mp hp'
      exact hfirst k hk hkget

/-- An edge of `f` goes through an empty block of its own, which takes its places at both ends. -/
structure Passes (f g : Func) (p : BlockId) (i : Nat) (c : BlockId) (j : Nat) (m : BlockId) : Prop where
  added : f.blocks.size ≤ m
  out : (g.block p).succs[i]? = some m
  into : (g.block c).preds[j]? = some m
  block : ∃ name, g.block m = ⟨.plain, [], none, [p], [c], name⟩

/-- Whether the target of an edge has several predecessors. -/
def crowded (f : Func) (e : BlockId × Nat) : Bool :=
  2 ≤ (f.block ((f.block e.1).succs.getD e.2 0)).preds.length

theorem Edge.crowded (h : f.Edge p i c j) : f.crowded (p, i) = decide (2 ≤ (f.block c).preds.length) := by
  rw [Func.crowded, getD_eq_getElem?_getD, h.out, getD_some]

/-- What is true when some edges have been dealt with. Those with a crowded target have a block of their own, and
all edges keep their places at both ends. -/
structure Splitting (f : Func) (done : List (BlockId × Nat)) (g : Func) : Prop where
  size : g.blocks.size = f.blocks.size + done.countP f.crowded
  added : ∀ m, f.blocks.size ≤ m → m < g.blocks.size → ∃ p c name, g.block m = ⟨.plain, [], none, [p], [c], name⟩
  lengths : ∀ b, b < f.blocks.size → (g.block b).succs.length = (f.block b).succs.length ∧
    (g.block b).preds.length = (f.block b).preds.length
  whole : ∀ p i c j, f.Edge p i c j → ¬((p, i) ∈ done ∧ 2 ≤ (f.block c).preds.length) →
    (g.block p).succs[i]? = some c ∧ (g.block c).preds[j]? = some p
  split : ∀ p i c j, f.Edge p i c j → (p, i) ∈ done → 2 ≤ (f.block c).preds.length → ∃ m, f.Passes g p i c j m

section

variable {done : List (BlockId × Nat)} (h : Splitting f done g)

include h

theorem Splitting.size_le : f.blocks.size ≤ g.blocks.size := h.size ▸ Nat.le_add_right ..

/-- The first place of `p` at `c` is that of the edge in turn: edges to `c` that come before it at `p` have been
dealt with. -/
theorem Splitting.place (hf : f.Balanced) (he : f.Edge p i c j) (hi : (p, i) ∉ done)
    (hbefore : ∀ k < i, (p, k) ∈ done) (hcrowded : 2 ≤ (f.block c).preds.length)
    (hj' : (g.block c).preds[j']? = some p) (hfirst : ∀ k < j', (g.block c).preds[k]? ≠ some p) : j' = j := by
  have hj := (h.whole p i c j he fun hmem => hi hmem.1).2
  refine (lt_trichotomy j' j).elim (fun hlt => ?_) fun h => h.resolve_right fun hlt => hfirst j hlt hj
  obtain ⟨hlt', -⟩ := List.getElem?_eq_some_iff.mp hj'
  rw [(h.lengths c he.target_lt).2] at hlt'
  obtain ⟨q, hq⟩ : ∃ q, (f.block c).preds[j']? = some q := ⟨_, getElem?_eq_getElem hlt'⟩
  obtain ⟨k, hk⟩ := hf.exists_edge_into hq
  by_cases hdone : (q, k) ∈ done
  · -- a place that was taken is not one of `p`
    obtain ⟨m, hm⟩ := h.split q k c j' hk hdone hcrowded
    obtain rfl := some.inj (hm.into.symm.trans hj')
    exact absurd he.source_lt (not_lt.mpr hm.added)
  · have hsame := (h.whole q k c j' hk fun hmem => hdone hmem.1).2
    obtain rfl := some.inj (hsame.symm.trans hj')
    have hcount := count_take_lt_of_lt hk.into hlt
    rw [← hk.order, ← he.order] at hcount
    refine absurd (hbefore k ?_) hdone
    by_contra hle
    rcases Nat.lt_or_eq_of_le (not_lt.mp hle) with hik | rfl
    · exact Nat.lt_asymm hcount (count_take_lt_of_lt he.out hik)
    · exact lt_irrefl _ hcount

/-- Splitting one more edge: a block is added if it is critical, and else nothing changes. -/
theorem Splitting.step (hf : f.Balanced) (hg : g.Balanced) (hout : (f.block p).succs[i]? = some c)
    (hi : (p, i) ∉ done) (hbefore : ∀ k < i, (p, k) ∈ done) :
    Splitting f (done ++ [(p, i)]) (g.splitEdge (p, i)) ∧
      (g.splitEdge (p, i) = g ∨ ∃ c j, Splits g (g.splitEdge (p, i)) p c i j) := by
  obtain ⟨j, he⟩ := hf.exists_edge_out hout
  have hwhole := h.whole p i c j he fun hmem => hi hmem.1
  have hmem : ∀ q k, (q, k) ∈ done ++ [(p, i)] ↔ (q, k) ∈ done ∨ (q = p ∧ k = i) := by simp
  have hsize := h.size_le
  have hold : ∀ b, b < f.blocks.size → b ≠ g.blocks.size := fun b hb => (hb.trans_le hsize).ne
  rcases splitEdge_cases hg hwhole.1 with ⟨hlen, heq⟩ | ⟨hlen, j', hs, hfirst⟩
  · rw [(h.lengths c he.target_lt).2] at hlen
    have hsame : ∀ q k d l, f.Edge q k d l → 2 ≤ (f.block d).preds.length →
        ((q, k) ∈ done ++ [(p, i)] ↔ (q, k) ∈ done) := by
      intro q k d l hedge htwo
      rw [hmem, or_iff_left]
      rintro ⟨rfl, rfl⟩
      rw [(hedge.target_unique he).1] at htwo
      exact not_lt.mpr htwo hlen
    rw [heq]
    refine ⟨⟨?_, h.added, h.lengths, fun q k d l hedge hnot => h.whole q k d l hedge fun hd => ?_,
      fun q k d l hedge hd htwo => h.split q k d l hedge ((hsame q k d l hedge htwo).mp hd) htwo⟩, .inl rfl⟩
    · rw [countP_append, countP_singleton, he.crowded, decide_eq_false (not_le.mpr hlen), h.size]
      rfl
    · exact hnot ⟨(hsame q k d l hedge hd.2).mpr hd.1, hd.2⟩
  · rw [(h.lengths c he.target_lt).2] at hlen
    obtain rfl := h.place hf he hi hbefore hlen hs.into hfirst
    -- an edge other than the one in turn has other places at both its ends
    have houts : ∀ q k d l, f.Edge q k d l → ¬(q = p ∧ k = i) →
        ((g.splitEdge (p, i)).block q).succs[k]? = (g.block q).succs[k]? := by
      intro q k d l hedge hne
      rw [hs.succs_old (hold q hedge.source_lt)]
      split
      · next hq => rw [getElem?_set_ne fun hk => hne ⟨hq, hk.symm⟩]
      · rfl
    have hintos : ∀ q k d l, f.Edge q k d l → ¬(q = p ∧ k = i) →
        ((g.splitEdge (p, i)).block d).preds[l]? = (g.block d).preds[l]? := by
      intro q k d l hedge hne
      rw [hs.preds_old (hold d hedge.target_lt)]
      split
      · next hd =>
        refine getElem?_set_ne fun hl => hne ?_
        subst hd hl
        exact hedge.source_unique he
      · rfl
    have hkept : ∀ m, f.blocks.size ≤ m → m ≠ g.blocks.size → (g.splitEdge (p, i)).block m = g.block m :=
      fun m hm hn => hs.apart hn (he.source_lt.trans_le hm).ne' (he.target_lt.trans_le hm).ne'
    obtain ⟨name, hnew⟩ := hs.new
    refine ⟨⟨?_, fun m hm hlt => ?_, fun b hb => ?_, fun q k d l hedge hnot => ?_, fun q k d l hedge hd htwo => ?_⟩,
      .inr ⟨c, j', hs⟩⟩
    · rw [hs.size, h.size, countP_append, countP_singleton, he.crowded, decide_eq_true hlen]
      rfl
    · by_cases hn : m = g.blocks.size
      · exact ⟨p, c, name, hn ▸ hnew⟩
      · rw [hkept m hm hn]
        exact h.added m hm (hs.old_lt hlt hn)
    · rw [hs.succs_length (hold b hb), hs.preds_length (hold b hb)]
      exact h.lengths b hb
    · have hne : ¬(q = p ∧ k = i) := by
        rintro ⟨rfl, rfl⟩
        rw [(hedge.target_unique he).1] at hnot
        exact hnot ⟨(hmem q k).mpr (.inr ⟨rfl, rfl⟩), hlen⟩
      rw [houts q k d l hedge hne, hintos q k d l hedge hne]
      exact h.whole q k d l hedge fun hd => hnot ⟨(hmem q k).mpr (.inl hd.1), hd.2⟩
    · by_cases hne : q = p ∧ k = i
      · obtain ⟨rfl, rfl⟩ := hne
        obtain ⟨rfl, rfl⟩ := hedge.target_unique he
        refine ⟨g.blocks.size, hsize, ?_, ?_, name, hnew⟩
        · rw [hs.succs_old (hold q he.source_lt), if_pos rfl,
            getElem?_set_self (List.getElem?_eq_some_iff.mp hs.out).1]
        · rw [hs.preds_old (hold d he.target_lt), if_pos rfl,
            getElem?_set_self (List.getElem?_eq_some_iff.mp hs.into).1]
      · obtain ⟨m, hm⟩ := h.split q k d l hedge (((hmem q k).mp hd).resolve_right hne) htwo
        obtain ⟨name', hblock⟩ := hm.block
        have hlt := lt_of_mem_succs (by rw [hblock]; exact mem_singleton_self d)
        refine ⟨m, hm.added, (houts q k d l hedge hne).trans hm.out, (hintos q k d l hedge hne).trans hm.into,
          name', ?_⟩
        rw [hkept m hm.added hlt.ne]
        exact hblock

end

theorem mem_choices {k : Nat} : (b, k) ∈ f.choices ↔
    b < f.blocks.size ∧ 2 ≤ (f.block b).succs.length ∧ k < (f.block b).succs.length := by
  simp only [choices, mem_flatMap]
  constructor
  · rintro ⟨d, hd, hmem⟩
    split at hmem
    · cases hmem
    · next hlen =>
      obtain ⟨m, hm, heq⟩ := mem_map.mp hmem
      obtain ⟨rfl, rfl⟩ := Prod.mk.inj heq
      exact ⟨mem_range.mp hd, not_lt.mp hlen, mem_range.mp hm⟩
  · rintro ⟨hb, hlen, hk⟩
    refine ⟨b, mem_range.mpr hb, ?_⟩
    rw [if_neg (not_lt.mpr hlen)]
    exact mem_map.mpr ⟨k, mem_range.mpr hk, rfl⟩

theorem pairwise_choices (f : Func) : f.choices.Pairwise fun e e' => e.1 = e'.1 → e.2 < e'.2 := by
  have hfst : ∀ b e, e ∈ (if (f.block b).succs.length < 2 then [] else
      (List.range (f.block b).succs.length).map (b, ·)) → e.1 = b := by
    intro b e he
    split at he
    · cases he
    · obtain ⟨k, -, rfl⟩ := mem_map.mp he
      rfl
  refine pairwise_flatMap.mpr ⟨fun b _ => ?_, nodup_range.imp fun hne e he e' he' heq => ?_⟩
  · dsimp only
    split
    · exact .nil
    · refine pairwise_map.mpr (pairwise_lt_range.imp ?_)
      intro k l hlt _
      exact hlt
  · exact absurd ((hfst _ e he).symm.trans (heq.trans (hfst _ e' he'))) hne

theorem size_of_splitEdge? {e : BlockId × Nat} (h : f.splitEdge? e = some g) : g.blocks.size = f.blocks.size + 1 := by
  rw [splitEdge?] at h
  split at h
  · cases h
  · obtain rfl := some.inj h
    split <;> simp only [blocks_size_modifyBlock, Array.size_push]

/-- The pass counts the blocks that it adds. -/
theorem split_eq (f : Func) : f.splitCriticalEdges = f.choices.foldl splitEdge f ∧
    f.splitCriticalEdges.blocks.size = f.blocks.size + f.criticalEdgeCount := by
  have aux : ∀ (es : List (BlockId × Nat)) (g : Func) (n : Nat),
      let s := es.foldl countSplit (g, n)
      s.1 = es.foldl splitEdge g ∧ s.1.blocks.size + n = g.blocks.size + s.2 := by
    intro es
    induction es with
    | nil => exact fun _ _ => ⟨rfl, rfl⟩
    | cons e es ih =>
      intro g n
      simp only [foldl_cons, splitEdge, countSplit]
      cases h : g.splitEdge? e with
      | none => exact ih g n
      | some g' =>
        obtain ⟨heq, hsize⟩ := ih g' (n + 1)
        refine ⟨heq, ?_⟩
        rw [size_of_splitEdge? h] at hsize
        simp only [map_some, getD_some] at hsize ⊢
        omega
  exact aux f.choices f 0

/-- A property that a new block on an edge keeps holds after all edges have been dealt with. -/
theorem splitting_splitCriticalEdges (hf : f.Balanced) (P : Func → Prop)
    (hstep : ∀ g g' p c i j, Splits g g' p c i j → g.Balanced → P g → P g') (hP : P f) :
    Splitting f f.choices f.splitCriticalEdges ∧ f.splitCriticalEdges.Balanced ∧ P f.splitCriticalEdges := by
  have aux : ∀ (rest done : List (BlockId × Nat)) (g : Func), f.choices = done ++ rest →
      Splitting f done g → g.Balanced → P g →
      Splitting f f.choices (rest.foldl splitEdge g) ∧ (rest.foldl splitEdge g).Balanced ∧
        P (rest.foldl splitEdge g) := by
    intro rest
    induction rest with
    | nil =>
      intro done g hsplit hs hg hP
      rw [append_nil] at hsplit
      rw [hsplit]
      exact ⟨hs, hg, hP⟩
    | cons e rest ih =>
      intro done g hsplit hs hg hP
      obtain ⟨p, i⟩ := e
      have hmem := hsplit ▸ mem_append_right _ mem_cons_self
      obtain ⟨hb, htwo, hk⟩ := mem_choices.mp hmem
      have hord := f.pairwise_choices
      rw [hsplit] at hord
      obtain ⟨-, hlater, hdone⟩ := pairwise_append.mp hord
      have hnot : (p, i) ∉ done := fun hd => lt_irrefl i (hdone _ hd _ mem_cons_self rfl)
      have hbefore : ∀ k < i, (p, k) ∈ done := by
        intro k hki
        have hmem' := mem_choices.mpr ⟨hb, htwo, hki.trans hk⟩
        rw [hsplit, mem_append, mem_cons] at hmem'
        rcases hmem' with hd | heq | hr
        · exact hd
        · exact absurd (Prod.mk.inj heq).2 hki.ne
        · exact absurd ((pairwise_cons.mp hlater).1 _ hr rfl) (Nat.lt_asymm hki)
      obtain ⟨hs', hcases⟩ := hs.step hf hg (getElem?_eq_getElem hk) hnot hbefore
      have hkept : (g.splitEdge (p, i)).Balanced ∧ P (g.splitEdge (p, i)) := by
        rcases hcases with heq | ⟨c, j, hsp⟩
        · rw [heq]
          exact ⟨hg, hP⟩
        · exact ⟨hsp.balanced hg, hstep _ _ _ _ _ _ hsp hg hP⟩
      refine ih (done ++ [(p, i)]) (g.splitEdge (p, i)) ?_ hs' hkept.1 hkept.2
      rw [hsplit, append_assoc]
      rfl
  rw [f.split_eq.1]
  refine aux f.choices [] f rfl ⟨rfl, fun m hm hlt => absurd hlt (not_lt.mpr hm), fun _ _ => ⟨rfl, rfl⟩,
    fun _ _ _ _ he _ => ⟨he.out, he.into⟩, fun _ _ _ _ _ hd => absurd hd not_mem_nil⟩ hf hP

/-- An edge on which nothing can be done for one end alone. -/
def Critical (f : Func) (b c : BlockId) : Prop := 2 ≤ (f.block b).succs.length ∧ 2 ≤ (f.block c).preds.length

theorem Splitting.not_critical (h : Splitting f f.choices g) (hf : f.Balanced) (hc : c ∈ (g.block b).succs) :
    ¬g.Critical b c := by
  rintro ⟨hsuccs, hpreds⟩
  have hb : b < f.blocks.size := by
    by_contra hge
    obtain ⟨p, d, name, hblock⟩ := h.added b (not_lt.mp hge) (lt_of_mem_succs hc)
    rw [hblock] at hsuccs
    exact lt_irrefl 1 hsuccs
  obtain ⟨k, hk⟩ := mem_iff_getElem?.mp hc
  have hlt := (List.getElem?_eq_some_iff.mp hk).1
  rw [(h.lengths b hb).1] at hlt hsuccs
  obtain ⟨j, he⟩ := hf.exists_edge_out (getElem?_eq_getElem hlt)
  by_cases htwo : 2 ≤ (f.block (f.block b).succs[k]).preds.length
  · obtain ⟨m, hm⟩ := h.split b k _ j he (mem_choices.mpr ⟨hb, hsuccs, hlt⟩) htwo
    obtain ⟨name, hblock⟩ := hm.block
    rw [← some.inj (hm.out.symm.trans hk), hblock] at hpreds
    exact lt_irrefl 1 hpreds
  · have hwhole := (h.whole b k _ j he fun hd => htwo hd.2).1
    rw [← some.inj (hwhole.symm.trans hk), (h.lengths _ he.target_lt).2] at hpreds
    exact htwo hpreds

theorem Allocatable.prepared {types : TypeTable} (hf : f.Allocatable types) :
    f.splitCriticalEdges.Prepared types := by
  obtain ⟨hs, -, hg⟩ := splitting_splitCriticalEdges hf.ssa.flow.balanced (Allocatable types)
    (fun _ _ _ _ _ _ hsp _ hg => hsp.allocatable hg) hf
  exact ⟨hg, fun b c hc hlen => not_lt.mp fun htwo => hs.not_critical hf.ssa.flow.balanced hc ⟨hlen, htwo⟩⟩

end Func

end SsaCodegen
