import SsaCodegen.Proofs.Flow
import SsaCodegen.Proofs.Validity
import SsaCodegen.Ssa.Construction

/-! The blocks and edges of the function under construction. -/

namespace SsaCodegen.Ir.Func

open List

variable {f : Func} {types : TypeTable} {b c : BlockId} {j i : Nat}

theorem mem_distinctSuccessors : c ∈ f.distinctSuccessors b ↔ ∃ t, (f.block b).term = some t ∧ c ∈ t.successors := by
  rw [distinctSuccessors]
  split
  · next h => simp [h]
  · next t h =>
    rw [h]
    split
    · next x y hxy =>
      by_cases heq : x = y <;> simp [heq, hxy]
    · simp

theorem distinctSuccessors_nodup (b : BlockId) : (f.distinctSuccessors b).Nodup := by
  rw [distinctSuccessors]
  split
  · exact nodup_nil
  · next t _ =>
    cases t with
    | jump target => exact pairwise_singleton _ _
    | branch cond yes no =>
      dsimp only [Terminator.successors]
      split
      · exact pairwise_singleton _ _
      · next h => simpa using h
    | ret value => exact nodup_nil

variable (hf : f.Valid types)

include hf

theorem Valid.distinctSuccessors_lt (hc : c ∈ f.distinctSuccessors b) : c < f.blocks.size := by
  obtain ⟨t, ht, hmem⟩ := mem_distinctSuccessors.mp hc
  by_cases hb : b < f.blocks.size
  · obtain ⟨t', ht', hlt, -⟩ := hf.term b hb
    obtain rfl : t = t' := Option.some.inj (ht.symm.trans ht')
    exact hlt c hmem
  · have hdef : f.block b = default := by
      simp [block, not_lt.mp hb]
    rw [hdef] at ht
    cases ht

theorem Valid.mem_reachableBlocks : b ∈ f.reachableBlocks ↔ Leads f.distinctSuccessors 0 b := by
  have hiff : b ∈ reach f.distinctSuccessors (List.range f.blocks.size) [0] ↔
      ∃ s ∈ [0], Leads f.distinctSuccessors s b :=
    mem_reach_iff (fun x hx => by
        rw [mem_singleton.mp hx]
        exact mem_range.mpr hf.nonempty)
      (fun x _ y hy => mem_range.mpr (hf.distinctSuccessors_lt hy))
  have hsingle : (∃ s ∈ [0], Leads f.distinctSuccessors s b) ↔ Leads f.distinctSuccessors 0 b := by
    simp
  rw [reachableBlocks, mem_filter, contains_iff_mem, hiff, hsingle]
  refine ⟨And.right, fun h => ⟨mem_range.mpr ?_, h⟩⟩
  cases h with
  | refl => exact hf.nonempty
  | tail _ hstep => exact hf.distinctSuccessors_lt hstep

omit hf in
theorem reachableBlocks_nodup (f : Func) : f.reachableBlocks.Nodup :=
  nodup_range.filter _

omit hf in
theorem reachableBlocks_lt (f : Func) : ∀ b ∈ f.reachableBlocks, b < f.blocks.size :=
  fun _ hb => mem_range.mp (mem_filter.mp hb).1

theorem Valid.reachableBlocks_zero : f.reachableBlocks[0]? = some 0 := by
  have h0 := hf.mem_reachableBlocks.mpr .refl
  obtain ⟨n, hn⟩ := Nat.exists_eq_succ_of_ne_zero hf.nonempty.ne'
  have hfound := (mem_filter.mp h0).2
  rw [reachableBlocks, hn, range_succ_eq_map, filter_cons_of_pos]
  · rfl
  · rw [hn, range_succ_eq_map] at hfound
    exact hfound

def targets (f : Func) (b : BlockId) : List SsaCodegen.BlockId :=
  (f.distinctSuccessors b).filterMap f.reachableBlocks.idxOf?

def edges (f : Func) : List (SsaCodegen.BlockId × SsaCodegen.BlockId) :=
  f.reachableBlocks.zipIdx.flatMap fun (b, i) => (f.targets b).map (i, ·)

def isolated (f : Func) : SsaCodegen.Func :=
  f.reachableBlocks.foldl (fun g b => (g.addBlock (f.kindOf b) (f.block b).name).2)
    (SsaCodegen.Func.new f.name f.params f.result)

omit hf in
theorem skeleton_eq (f : Func) : f.skeleton = f.edges.foldl (fun g e => g.addEdge e.1 e.2) f.isolated := by
  rw [skeleton, edges, foldl_flatMap, isolated]
  congr 1
  funext g e
  rw [foldl_map]
  rfl

omit hf in
theorem foldl_addBlock (bs : List BlockId) (g : SsaCodegen.Func) :
    bs.foldl (fun g b => (g.addBlock (f.kindOf b) (f.block b).name).2) g =
      { g with blocks := g.blocks ++ (bs.map fun b =>
          ⟨f.kindOf b, [], none, [], [], (f.block b).name⟩).toArray } := by
  induction bs generalizing g with
  | nil => simp
  | cons b bs ih =>
    rw [foldl_cons, ih]
    simp [SsaCodegen.Func.addBlock]

omit hf in
theorem skeleton_rest (f : Func) : f.skeleton.values = #[] ∧ f.skeleton.params = f.params := by
  have hedges : ∀ (es : List (SsaCodegen.BlockId × SsaCodegen.BlockId)) (g : SsaCodegen.Func),
      (es.foldl (fun g e => g.addEdge e.1 e.2) g).values = g.values ∧
        (es.foldl (fun g e => g.addEdge e.1 e.2) g).params = g.params := by
    intro es
    induction es with
    | nil => exact fun g => ⟨rfl, rfl⟩
    | cons e es ih => exact fun g => ih (g.addEdge e.1 e.2)
  obtain ⟨hvalues, hparams⟩ := hedges f.edges f.isolated
  rw [skeleton_eq, hvalues, hparams, isolated, foldl_addBlock]
  exact ⟨rfl, rfl⟩

omit hf in
theorem isolated_blocks (f : Func) : f.isolated.blocks = (f.reachableBlocks.map fun b =>
    (⟨f.kindOf b, [], none, [], [], (f.block b).name⟩ : SsaCodegen.Block)).toArray := by
  rw [isolated, foldl_addBlock]
  exact Array.empty_append

omit hf in
theorem filter_zipIdx_flatMap {α : Type} (g : α → List Nat) : ∀ (l : List α) (k i : Nat),
    ((l.zipIdx k).flatMap fun (a, j) => (g a).map (j, ·)).filter (·.1 == k + i) =
      ((l[i]?.map g).getD []).map (k + i, ·) := by
  intro l
  induction l with
  | nil =>
    intro k i
    rfl
  | cons a l ih =>
    intro k i
    rw [zipIdx_cons, flatMap_cons, filter_append]
    cases i with
    | zero =>
      have hrest : ((l.zipIdx (k + 1)).flatMap fun (a, j) => (g a).map (j, ·)).filter (·.1 == k + 0) = [] := by
        rw [filter_eq_nil_iff]
        intro e he
        obtain ⟨⟨b, j⟩, hj, he⟩ := mem_flatMap.mp he
        obtain ⟨c, -, rfl⟩ := mem_map.mp he
        have := le_snd_of_mem_zipIdx hj
        rw [beq_iff_eq]
        omega
      rw [hrest, append_nil, filter_eq_self.mpr]
      · rfl
      · intro e he
        obtain ⟨c, -, rfl⟩ := mem_map.mp he
        exact beq_self_eq_true k
    | succ i =>
      have hfirst : ((g a).map (k, ·)).filter (·.1 == k + (i + 1)) = [] := by
        rw [filter_eq_nil_iff]
        intro e he
        obtain ⟨c, -, rfl⟩ := mem_map.mp he
        rw [beq_iff_eq]
        omega
      rw [hfirst, nil_append, show k + (i + 1) = k + 1 + i by omega]
      exact ih (k + 1) i

omit hf in
theorem filter_edges (f : Func) (i : Nat) : (f.edges.filter (·.1 == i)).map (·.2) =
    (f.reachableBlocks[i]?.map f.targets).getD [] := by
  have h := filter_zipIdx_flatMap f.targets f.reachableBlocks 0 i
  rw [Nat.zero_add] at h
  rw [edges, h, map_map]
  exact map_id _

omit hf in
theorem count_filter_edges (es : List (Nat × Nat)) (b c : Nat) :
    ((es.filter (·.2 == c)).map (·.1)).count b = ((es.filter (·.1 == b)).map (·.2)).count c := by
  induction es with
  | nil => rfl
  | cons e es ih =>
    obtain ⟨x, y⟩ := e
    by_cases hx : x = b <;> by_cases hy : y = c <;> simp [hx, hy, ih]

omit hf in
theorem idxOf?_reachableBlocks (f : Func) : f.reachableBlocks.idxOf? c = some j ↔ f.reachableBlocks[j]? = some c :=
  idxOf?_eq_some_iff f.reachableBlocks_nodup

omit hf in
theorem mem_targets (f : Func) : j ∈ f.targets b ↔ ∃ c ∈ f.distinctSuccessors b, f.reachableBlocks[j]? = some c := by
  rw [targets, mem_filterMap]
  simp only [idxOf?_reachableBlocks]

omit hf in
theorem targets_nodup (f : Func) (b : BlockId) : (f.targets b).Nodup := by
  refine (distinctSuccessors_nodup b).filterMap fun c d j hc hd => ?_
  rw [Option.mem_def, idxOf?_reachableBlocks] at hc hd
  exact Option.some.inj (hc.symm.trans hd)

theorem Valid.targets_length (hb : b ∈ f.reachableBlocks) :
    (f.targets b).length = (f.distinctSuccessors b).length := by
  refine filterMap_length_eq_length.mpr fun c hc => ?_
  have hmem := hf.mem_reachableBlocks.mpr ((hf.mem_reachableBlocks.mp hb).tail hc)
  rw [isSome_idxOf?]
  exact hmem

omit hf in
theorem skeleton_size (f : Func) : f.skeleton.blocks.size = f.reachableBlocks.length := by
  rw [skeleton_eq, SsaCodegen.Func.blocks_size_addEdges, isolated_blocks]
  simp

omit hf in
theorem skeleton_entry (f : Func) : f.skeleton.entry = 0 := by
  rw [skeleton_eq, SsaCodegen.Func.entry_addEdges, isolated, foldl_addBlock]
  rfl

omit hf in
theorem skeleton_block (f : Func) (hi : f.reachableBlocks[i]? = some b) :
    f.skeleton.block i = ⟨f.kindOf b, [], none, (f.edges.filter (·.2 == i)).map (·.1),
      f.targets b, (f.block b).name⟩ := by
  have hlt : i < f.isolated.blocks.size := by
    rw [isolated_blocks]
    simpa using (List.getElem?_eq_some_iff.mp hi).1
  have hiso : f.isolated.block i = ⟨f.kindOf b, [], none, [], [], (f.block b).name⟩ := by
    rw [SsaCodegen.Func.block, Array.getD_eq_getD_getElem?, isolated_blocks]
    simp [hi]
  rw [skeleton_eq, SsaCodegen.Func.block_addEdges _ _ _ hlt, hiso, filter_edges, hi]
  rfl

omit hf in
theorem skeleton_block_default (f : Func) (hi : f.reachableBlocks.length ≤ i) : f.skeleton.block i = default :=
  SsaCodegen.Func.block_eq_default _ (by rw [skeleton_size]; exact hi)

omit hf in
theorem exists_source (f : Func) (hi : i < f.reachableBlocks.length) :
    ∃ b ∈ f.reachableBlocks, f.reachableBlocks[i]? = some b :=
  ⟨_, getElem_mem hi, getElem?_eq_getElem hi⟩

omit hf in
theorem mem_skeleton_succs (f : Func) : j ∈ (f.skeleton.block i).succs ↔
    ∃ b, f.reachableBlocks[i]? = some b ∧ j ∈ f.targets b := by
  by_cases hi : i < f.reachableBlocks.length
  · obtain ⟨b, -, hb⟩ := f.exists_source hi
    simp [skeleton_block f hb, hb]
  · have hnone := List.getElem?_eq_none_iff.mpr (not_lt.mp hi)
    rw [skeleton_block_default f (not_lt.mp hi), hnone]
    simp [default]

omit hf in
theorem skeleton_count (f : Func) (i j : Nat) :
    (f.skeleton.block j).preds.count i = (f.skeleton.block i).succs.count j := by
  have hsuccs : (f.skeleton.block i).succs = (f.edges.filter (·.1 == i)).map (·.2) := by
    rw [filter_edges]
    by_cases hi : i < f.reachableBlocks.length
    · obtain ⟨b, -, hb⟩ := f.exists_source hi
      rw [skeleton_block f hb, hb]
      rfl
    · rw [skeleton_block_default f (not_lt.mp hi), List.getElem?_eq_none_iff.mpr (not_lt.mp hi)]
      rfl
  by_cases hj : j < f.reachableBlocks.length
  · obtain ⟨c, -, hc⟩ := f.exists_source hj
    rw [skeleton_block f hc, hsuccs]
    exact count_filter_edges f.edges i j
  · rw [skeleton_block_default f (not_lt.mp hj)]
    refine (count_eq_zero.mpr fun hmem => hj ?_).symm
    obtain ⟨b, -, hmem⟩ := f.mem_skeleton_succs.mp hmem
    obtain ⟨c, -, hc⟩ := f.mem_targets.mp hmem
    exact (List.getElem?_eq_some_iff.mp hc).1

theorem Valid.skeleton_reachable (hb : Leads f.distinctSuccessors 0 b) :
    ∃ i, f.reachableBlocks[i]? = some b ∧ Leads (fun i => (f.skeleton.block i).succs) 0 i := by
  induction hb with
  | refl => exact ⟨0, hf.reachableBlocks_zero, .refl⟩
  | tail hlead hstep ih =>
    obtain ⟨i, hi, hlead'⟩ := ih
    obtain ⟨j, hj⟩ := getElem?_of_mem (hf.mem_reachableBlocks.mpr (hlead.tail hstep))
    refine ⟨j, hj, hlead'.tail ?_⟩
    exact f.mem_skeleton_succs.mpr ⟨_, hi, f.mem_targets.mpr ⟨_, hstep, hj⟩⟩

theorem Valid.skeleton_flow : f.skeleton.Flow := by
  have hzero := hf.reachableBlocks_zero
  have hsucc_lt : ∀ i j, j ∈ (f.skeleton.block i).succs → j < f.skeleton.blocks.size := by
    intro i j hj
    obtain ⟨b, -, hj⟩ := f.mem_skeleton_succs.mp hj
    obtain ⟨c, -, hc⟩ := f.mem_targets.mp hj
    rw [skeleton_size]
    exact (List.getElem?_eq_some_iff.mp hc).1
  have hedge : ∀ i j, i ∈ (f.skeleton.block j).preds ↔ j ∈ (f.skeleton.block i).succs := by
    intro i j
    rw [← count_pos_iff, ← count_pos_iff, f.skeleton_count]
  refine ⟨?_, ?_, hsucc_lt, ?_, f.skeleton_count, ?_, ?_, ?_⟩
  · rw [skeleton_size, skeleton_entry]
    exact (List.getElem?_eq_some_iff.mp hzero).1
  · rw [skeleton_entry, eq_nil_iff_forall_not_mem]
    intro i hi
    obtain ⟨b, hb, hj⟩ := f.mem_skeleton_succs.mp ((hedge i 0).mp hi)
    obtain ⟨c, hc, hc0⟩ := f.mem_targets.mp hj
    obtain rfl : 0 = c := Option.some.inj (hzero.symm.trans hc0)
    obtain ⟨term, hterm, hmem⟩ := mem_distinctSuccessors.mp hc
    have hpred : b ∈ f.predecessors 0 := by
      rw [predecessors, mem_flatMap]
      refine ⟨b, mem_range.mpr (f.reachableBlocks_lt b (mem_of_getElem? hb)), ?_⟩
      rw [hterm]
      exact mem_map.mpr ⟨0, mem_filter.mpr ⟨hmem, rfl⟩, rfl⟩
    rw [hf.entry] at hpred
    cases hpred
  · intro j i hi
    obtain ⟨b, hb, -⟩ := f.mem_skeleton_succs.mp ((hedge i j).mp hi)
    rw [skeleton_size]
    exact (List.getElem?_eq_some_iff.mp hb).1
  · intro i
    by_cases hi : i < f.reachableBlocks.length
    · obtain ⟨b, -, hb⟩ := f.exists_source hi
      rw [skeleton_block f hb]
      exact f.targets_nodup b
    · rw [skeleton_block_default f (not_lt.mp hi)]
      exact nodup_nil
  · intro i hi
    rw [skeleton_size] at hi
    obtain ⟨b, hmem, hb⟩ := f.exists_source hi
    obtain ⟨term, hterm, -⟩ := hf.term b (f.reachableBlocks_lt b hmem)
    rw [skeleton_block f hb]
    rw [hf.targets_length hmem, distinctSuccessors, kindOf, hterm]
    cases term with
    | jump target => rfl
    | branch cond yes no =>
      dsimp only [Terminator.successors]
      by_cases h : yes = no
      · rw [if_pos h, if_pos h]
        rfl
      · rw [if_neg h, if_neg h]
        rfl
    | ret value => rfl
  · intro i hi
    rw [skeleton_size] at hi
    obtain ⟨b, hmem, hb⟩ := f.exists_source hi
    obtain ⟨j, hj, hlead⟩ := hf.skeleton_reachable (hf.mem_reachableBlocks.mp hmem)
    obtain rfl : i = j := by
      obtain ⟨hi', hbi⟩ := List.getElem?_eq_some_iff.mp hb
      obtain ⟨hj', hbj⟩ := List.getElem?_eq_some_iff.mp hj
      exact f.reachableBlocks_nodup.getElem_inj_iff.mp (hbi.trans hbj.symm)
    rw [skeleton_entry]
    exact hlead

end SsaCodegen.Ir.Func
