import SsaCodegen.Proofs.Construction.Closing
import SsaCodegen.Proofs.Construction.Skeleton
import SsaCodegen.Proofs.Order

/-! Sealing a block: the phis that waited for its predecessors get their operands. -/

namespace SsaCodegen.Construction

open List

section

variable {ir : Ir.Func} {W : List ValueId} {s t : Construction} {x : Var} {b : BlockId} {u : PUnit}

theorem completePhi_spec {p : ValueId} (hs : s.Sound ir (p :: W) []) (hpW : p ∉ W) (hp : s.IsPhi p x b)
    (hb : b ∈ s.sealedBlocks) (hrun : Runs (completePhi ir x b p) s u t) : t.Sound ir W [] ∧ Asks s t := by
  obtain ⟨_, t1, hloop, hmod⟩ := runs_bind.mp (runs_get_bind.mp hrun)
  obtain rfl := runs_modify.mp hmod
  obtain ⟨h1, h2, -, h4⟩ := operands_spec (readVar_spec ir x) hs.openFrame hp mem_cons_self hpW hb hloop
  have hp1 := h2.isPhi hp
  have hpI : p ∉ t1.incomplete.map (·.2.2) := by
    intro h
    obtain ⟨⟨c, y, q⟩, hq, rfl⟩ := mem_map.mp h
    obtain ⟨hc, hq', -⟩ := h1.incomplete c y _ hq
    rw [← hq'.block, hp1.block] at hc
    exact hc (h2.sealed b hb)
  obtain ⟨k1, k2, -⟩ := settlePhi_spec (h1.closeFrame hp1 h4) (forall_mem_nil _) (fun _ q _ _ => Nat.zero_le q) hp1
    ⟨Nat.zero_le p, ⟨x, b, hp1, h4⟩, hpW, hpI⟩ rfl
  exact ⟨k1, h2.trans k2⟩

section

variable (hs : s.Sound ir [] []) (hpreds : ∀ q ∈ (s.func.block b).preds, q ∈ s.filled)

include hs hpreds

theorem sound_seal : Sound ir ((s.incomplete.filter (·.1 == b)).map (·.2.2)) [] { s with
      sealedBlocks := b :: s.sealedBlocks
      incomplete := s.incomplete.filter fun e => !e.1 == b } :=
  { hs with
    known := fun p x c hp => by
      rcases hs.known p x c hp with h | h | h | h
      · cases h
      · cases h
      · by_cases hc : c = b
        · exact .inl (mem_map.mpr ⟨_, mem_filter.mpr ⟨h, beq_iff_eq.mpr hc⟩, rfl⟩)
        · refine .inr (.inr (.inl (mem_filter.mpr ⟨h, ?_⟩)))
          simp [hc]
      · exact .inr (.inr (.inr h))
    sealed_preds := fun c hc q hq => by
      rcases mem_cons.mp hc with rfl | hc
      · exact hpreds q hq
      · exact hs.sealed_preds c hc q hq
    filled_join := fun c hc => (hs.filled_join c hc).imp (mem_cons_of_mem b) id
    entry_sealed := mem_cons_of_mem b hs.entry_sealed
    incomplete := fun c x p h => by
      obtain ⟨h, hcb⟩ := mem_filter.mp h
      obtain ⟨h1, h2, h3⟩ := hs.incomplete c x p h
      refine ⟨fun hc => ?_, h2, h3⟩
      rcases mem_cons.mp hc with rfl | hc
      · simp at hcb
      · exact h1 hc
    incomplete_nodup := (filter_sublist.map _).nodup hs.incomplete_nodup
    waiting := fun p hp => by
      obtain ⟨⟨c, x, q⟩, hq, rfl⟩ := mem_map.mp hp
      obtain ⟨-, h2, h3⟩ := hs.incomplete c x q (mem_filter.mp hq).1
      exact ⟨h2.lt, h3⟩
    frames := forall_mem_nil _ }

theorem sealBlock_spec (hrun : Runs (sealBlock ir b) s u t) : t.Sound ir [] [] ∧ Asks s t ∧ b ∈ t.sealedBlocks := by
  have hbody := runs_get_bind.mp hrun
  rw [partition_eq_filter_filter] at hbody
  obtain ⟨_, s1, hset, hloop⟩ := runs_bind.mp hbody
  obtain rfl := runs_set.mp hset
  have h1 := sound_seal hs hpreds
  have h2 : Asks s { s with
      sealedBlocks := b :: s.sealedBlocks
      incomplete := s.incomplete.filter fun e => !e.1 == b } :=
    { Asks.refl s hs.resolve_resolve with sealed := fun _ h => mem_cons_of_mem b h }
  let I (pre : List (BlockId × Var × ValueId)) (t : Construction) : Prop :=
    ∀ post, s.incomplete.filter (·.1 == b) = pre ++ post →
      t.Sound ir (post.map (·.2.2)) [] ∧ Asks s t ∧ b ∈ t.sealedBlocks
  have hI : I (s.incomplete.filter (·.1 == b)) t := by
    refine runs_forM_invariant I ?_ ?_ hloop
    · rintro pre ⟨c, x, p⟩ rest hsplit t1 t2 hI hstep post hpost
      obtain rfl : rest = post := by
        rw [hpost, append_assoc] at hsplit
        exact (List.cons.inj (append_cancel_left hsplit)).2.symm
      obtain ⟨g1, g2, g3⟩ := hI _ hsplit
      have hmem := mem_iff_append.mpr ⟨_, _, hsplit⟩
      obtain ⟨hinc, hcb⟩ := mem_filter.mp hmem
      obtain rfl : c = b := beq_iff_eq.mp hcb
      obtain ⟨-, hp, -⟩ := hs.incomplete c x p hinc
      have hnd : ((s.incomplete.filter (·.1 == c)).map (·.2.2)).Nodup :=
        (filter_sublist.map _).nodup hs.incomplete_nodup
      rw [hsplit, List.map_append] at hnd
      have hpW := (nodup_cons.mp (nodup_append.mp hnd).2.1).1
      obtain ⟨k1, k2⟩ := completePhi_spec g1 hpW (g2.isPhi hp) g3 hstep
      exact ⟨k1, g2.trans k2, k2.sealed c g3⟩
    · intro post hpost
      rw [nil_append] at hpost
      rw [← hpost]
      exact ⟨h1, h2, mem_cons_self⟩
  exact hI [] (append_nil _).symm

end

theorem sealBlock_idle (hnone : s.incomplete = []) (hrun : Runs (sealBlock ir b) s u t) :
    t = { s with sealedBlocks := b :: s.sealedBlocks } := by
  have hbody := runs_get_bind.mp hrun
  rw [hnone] at hbody
  obtain ⟨_, s1, hset, hloop⟩ := runs_bind.mp hbody
  rw [runs_forM_nil.mp hloop, runs_set.mp hset, hnone]
  rfl

theorem trySeal_spec (hs : s.Sound ir [] []) (hrun : Runs (trySeal ir b) s u t) :
    t.Sound ir [] [] ∧ Asks s t ∧ ((∀ q ∈ (s.func.block b).preds, q ∈ s.filled) → b ∈ t.sealedBlocks) := by
  have hbody := runs_get_bind.mp hrun
  rcases runs_ite.mp hbody with ⟨⟨-, hall⟩, hseal⟩ | ⟨hnot, hret⟩
  · have hpreds : ∀ q ∈ (s.func.block b).preds, q ∈ s.filled := fun q hq =>
      contains_iff_mem.mp (all_eq_true.mp hall q hq)
    obtain ⟨h1, h2, h3⟩ := sealBlock_spec hs hpreds hseal
    exact ⟨h1, h2, fun _ => h3⟩
  · obtain ⟨-, rfl⟩ := runs_pure.mp hret
    refine ⟨hs, Asks.refl t hs.resolve_resolve, fun hpreds => ?_⟩
    by_contra hb
    refine hnot ⟨hb, all_eq_true.mpr fun q hq => ?_⟩
    exact contains_iff_mem.mpr (hpreds q hq)

end

/-! Lowering one block after the other, in reverse postorder. -/

variable {t : Task} {b : BlockId} {s s' : Construction} {es : List Event} {u : Unit}

def sourceNodes (t : Task) (b : BlockId) : List Ir.NodeId :=
  (t.ir.block (t.sources.getD b 0)).nodes

/-- A block that has been lowered, and its script. -/
structure Finished (t : Task) (s : Construction) (b : BlockId) (es : List Event) : Prop
    extends Tracks s b es where
  script : Script t s b es
  closed : Closed t s b es
  recorded : s.Recorded es
  nodes : es.filterMap Event.node? = sourceNodes t b

theorem Finished.extends (h : Finished t s b es) (hext : Extends s s')
    (hbody : s'.func.body b = s.func.body b) (hctl : (s'.func.block b).control = (s.func.block b).control)
    (hends : ∀ x v, s.EndsWith x b v → s'.EndsWith x b v) (hsites : ∀ x, b ∈ s'.sites x → b ∈ s.sites x)
    (hvalues : ∀ n ∈ sourceNodes t b, s'.nodeValues.getD n none = s.nodeValues.getD n none) :
    Finished t s' b es := by
  have hlt : ∀ v, .value v ∈ es → v < s.func.values.size := fun v hv => (h.script.value_lt hv).1
  refine ⟨h.toTracks.congr (hext.assigned? hlt) hends hsites, h.script.extends hext hbody,
    h.closed.extends hext hlt hctl, fun e he n hn => ?_, h.nodes⟩
  rw [hvalues n (by rw [← h.nodes]; exact mem_filterMap.mpr ⟨e, he, hn⟩)]
  exact h.recorded e he n hn

theorem Lowering.lowerBlock (h : Lowering t b s es) (hes : es.filterMap Event.node? = [])
    (hopen : (s.func.block b).control = none) (hvalid : t.ir.Valid t.types)
    (hreach : t.sources.getD b 0 ∈ t.ir.reachableBlocks)
    (hkind : (s.func.block b).kind = t.ir.kindOf (t.sources.getD b 0))
    (hsize : s.nodeValues.size = t.ir.nodes.size) (hrun : Runs (t.lowerBlock b) s u s') :
    ∃ es', Lowering t b s' es' ∧ Finished t s' b es' ∧ Works b s s' ∧ Touches (sourceNodes t b) s s' := by
  have hsource := t.ir.reachableBlocks_lt _ hreach
  obtain ⟨_, s1, hnodes, hterm⟩ := runs_bind.mp hrun
  have hrec : s.Recorded es := by
    intro e he n hn
    have hmem := mem_filterMap.mpr ⟨e, he, hn⟩
    rw [hes] at hmem
    cases hmem
  obtain ⟨es1, h1, hrec1, hns, hworks1, htouch, hctl⟩ := h.lowerNodes hrec hes hsize
    (fun pre n post hsplit => hvalid.node _ hsource pre n post hsplit) hvalid.params
    (fun n hn hkind hty => ⟨_, hreach, n, hn, hty, hkind⟩) hnodes
  obtain ⟨term, hterm_eq, -, hok⟩ := hvalid.term _ hsource
  have hdone : ∀ n ∈ sourceNodes t b, Done es1 n := by
    intro n hn
    rw [sourceNodes, ← hns] at hn
    obtain ⟨e, he, hen⟩ := mem_filterMap.mp hn
    exact ⟨e, he, hen⟩
  have hkind1 : (s1.func.block b).kind = term.kind := by
    rw [hworks1.graph.kind, hkind, Ir.Func.kindOf, hterm_eq]
    cases term <;> rfl
  obtain ⟨es', hend⟩ := h1.lowerTerminator hrec1 (hctl.trans hopen) hdone hterm_eq hok hkind1 hterm
  obtain ⟨vs, rfl⟩ := hend.values
  refine ⟨_, hend.lowering, ⟨hend.lowering.toTracks, hend.lowering.script, hend.closed,
    hrec1.append_values hend.nodeValues vs, ?_⟩, hworks1.trans hend.works, ?_⟩
  · rw [filterMap_append, nodes_values, append_nil]
    exact hns
  · rw [Touches, hend.nodeValues]
    exact htouch

theorem Lowering.fill (h : Lowering t b s es) : Sound t.ir [] [] { s with filled := b :: s.filled } ∧
      Extends s { s with filled := b :: s.filled } := by
  have hknown : ∀ p x c, s.Known p x c → Known { s with filled := b :: s.filled } p x c :=
    fun p x c hk k q hq => ⟨mem_cons_of_mem b (hk k q hq).1, (hk k q hq).2⟩
  have hext : Extends s { s with filled := b :: s.filled } := { Extends.refl s h.sound.resolve_resolve with
      known := fun p x c _ hk => hknown p x c hk
      filled := fun c hc => mem_cons_of_mem b hc }
  refine ⟨{ h.sound with
    replaced_known := fun p hp => ?_
    known := fun p x c hp => ?_
    starts := fun x c v hv => ?_
    sealed_preds := fun c hc q hq => mem_cons_of_mem b (h.sound.sealed_preds c hc q hq)
    filled_join := fun c hc => ?_
    filled_lt := fun c hc => ?_
    users := fun v q hvq => ?_ }, hext⟩
  · obtain ⟨x, c, hphi, hk, hargs⟩ := h.sound.replaced_known p hp
    exact ⟨x, c, hphi, hknown p x c hk, hargs⟩
  · exact (h.sound.known p x c hp).imp id (Or.imp id (Or.imp id (hknown p x c)))
  · exact (h.sound.starts x c v hv).imp id hext.startsWith
  · rcases mem_cons.mp hc with rfl | hc
    · exact h.join
    · exact h.sound.filled_join c hc
  · rcases mem_cons.mp hc with rfl | hc
    · exact h.lt
    · exact h.sound.filled_lt c hc
  · obtain ⟨hv, hq, hF | ⟨x, c, hphi, hk⟩⟩ := h.sound.users v q hvq
    · exact ⟨hv, hq, .inl hF⟩
    · exact ⟨hv, hq, .inr ⟨x, c, hphi, hknown q x c hk⟩⟩

/-- Some blocks have been lowered, and the others hold nothing but what the entry was given. -/
structure Progress (t : Task) (s : Construction) : Prop where
  sound : s.Sound t.ir [] []
  rooted : s.Rooted
  given : s.Given t
  graph : t.ir.skeleton.SameGraph s.func
  nodeValues : s.nodeValues.size = t.ir.nodes.size
  finished : ∀ b ∈ s.filled, ∃ es, Finished t s b es
  entry : s.func.entry ∉ s.filled → ∃ es, Lowering t s.func.entry s es ∧ es.filterMap Event.node? = []
  fresh : ∀ b, b ∉ s.filled → (s.func.block b).control = none ∧
    (b ≠ s.func.entry → s.func.body b = [] ∧ ∀ x, b ∉ s.sites x)
  typed : t.types.Made → s.Typed t

theorem sites_congr (h : s'.assignments = s.assignments) (x : Var) : s'.sites x = s.sites x := by
  rw [sites, h]
  rfl

theorem Progress.asks (h : Progress t s) (hs' : s'.Sound t.ir [] []) (hask : Asks s s') : Progress t s' where
  sound := hs'
  rooted := h.rooted.asks h.sound hask
  given := h.given.extends hask.toExtends
  graph := h.graph.trans hask.graph
  nodeValues := by
    rw [hask.nodeValues_eq]
    exact h.nodeValues
  finished b hb := by
    rw [hask.filled_eq] at hb
    obtain ⟨es, hes⟩ := h.finished b hb
    refine ⟨es, hes.extends hask.toExtends (hask.body_all b) (hask.control_all b)
      (fun x v => hask.ends_all x b v) (fun x hx => ?_) fun n _ => ?_⟩
    · rw [sites_congr hask.assignments_eq] at hx
      exact hx
    · rw [hask.nodeValues_eq]
  entry hb := by
    rw [hask.graph.entry, hask.filled_eq] at hb
    obtain ⟨es, hlow, hes⟩ := h.entry hb
    rw [hask.graph.entry]
    exact ⟨es, hlow.asks hs' hask, hes⟩
  fresh b hb := by
    rw [hask.filled_eq] at hb
    obtain ⟨hctl, hrest⟩ := h.fresh b hb
    rw [hask.control_all, hask.graph.entry, hask.body_all]
    refine ⟨hctl, fun hne => ⟨(hrest hne).1, fun x => ?_⟩⟩
    rw [sites_congr hask.assignments_eq]
    exact (hrest hne).2 x
  typed hmade := (h.typed hmade).asks h.sound hask

theorem Progress.opens (h : Progress t s) (hb : b ∉ s.filled) (hlt : b < s.func.blocks.size)
    (hjoin : b ∈ s.sealedBlocks ∨ 2 ≤ (s.func.block b).preds.length) :
    ∃ es, Lowering t b s es ∧ es.filterMap Event.node? = [] := by
  by_cases hentry : b = s.func.entry
  · rw [hentry] at hb ⊢
    exact h.entry hb
  · obtain ⟨hbody, hsites⟩ := (h.fresh b hb).2 hentry
    refine ⟨[], ⟨⟨h.sound, h.rooted, h.given, hb, hlt, hjoin, h.typed⟩, ⟨?_, fun x _ => hsites x⟩,
      ⟨hbody, ?_, ?_, ?_⟩⟩, rfl⟩
    · exact fun x w hw => absurd hw (by exact nofun)
    · exact fun pre e post hsplit => absurd hsplit (by simp)
    · exact forall_mem_nil _
    · exact forall_mem_nil _

section Visit

variable (hvalid : t.ir.Valid t.types) (hsources : t.sources = t.ir.reachableBlocks.toArray)

include hsources in
theorem Progress.source (h : Progress t s) (hlt : b < s.func.blocks.size) :
    t.ir.reachableBlocks[b]? = some (t.sources.getD b 0) ∧ t.sources.getD b 0 < t.ir.blocks.size ∧
      (s.func.block b).kind = t.ir.kindOf (t.sources.getD b 0) := by
  rw [h.graph.size, Ir.Func.skeleton_size] at hlt
  obtain ⟨k, hmem, hk⟩ := t.ir.exists_source hlt
  have hget : t.sources.getD b 0 = k := by
    rw [hsources, Array.getD_eq_getD_getElem?, getElem?_toArray, hk]
    rfl
  rw [hget, h.graph.kind, Ir.Func.skeleton_block t.ir hk]
  exact ⟨hk, t.ir.reachableBlocks_lt k hmem, rfl⟩

include hvalid hsources in
theorem Progress.nodes_disjoint (h : Progress t s) {c : BlockId} (hb : b < s.func.blocks.size)
    (hc : c < s.func.blocks.size) (hne : c ≠ b) {n : Ir.NodeId} (hn : n ∈ sourceNodes t c) :
    n ∉ sourceNodes t b := by
  obtain ⟨hb1, hb2, -⟩ := h.source hsources hb
  obtain ⟨hc1, hc2, -⟩ := h.source hsources hc
  have hdiff : t.sources.getD c 0 ≠ t.sources.getD b 0 := by
    intro heq
    rw [heq, ← hb1] at hc1
    rw [h.graph.size, Ir.Func.skeleton_size] at hc
    exact hne ((getElem?_inj hc t.ir.reachableBlocks_nodup).mp hc1)
  intro hmem
  rcases Nat.lt_or_gt_of_ne hdiff with hless | hless
  · exact hvalid.disjoint _ _ hless hb2 n hn hmem
  · exact hvalid.disjoint _ _ hless hc2 n hmem hn

include hvalid hsources in
theorem Progress.mark (h : Progress t s) (hlow : Lowering t b s' es) (hfin : Finished t s' b es)
    (hworks : Works b s s') (htouch : Touches (sourceNodes t b) s s')
    (hfirst : b = s.func.entry ∨ s.func.entry ∈ s.filled) :
    Progress t { s' with filled := b :: s'.filled } := by
  obtain ⟨hsound, hext⟩ := hlow.fill
  have hb : b < s.func.blocks.size := by
    rw [← hworks.graph.size]
    exact hlow.lt
  refine ⟨hsound, { hlow.rooted with }, hlow.given.extends hext, h.graph.trans hworks.graph,
    htouch.1.trans h.nodeValues, fun c hc => ?_, fun hentry => ?_, fun c hc => ?_,
    fun hmade => (hlow.typed hmade).congr rfl rfl⟩
  · by_cases hcb : c = b
    · subst hcb
      exact ⟨es, hfin.extends hext rfl rfl (fun _ _ hv => hv) (fun _ hx => hx) fun _ _ => rfl⟩
    · have hmem : c ∈ s.filled := by
        rw [← hworks.filled_eq]
        exact (mem_cons.mp hc).resolve_left hcb
      obtain ⟨es', hes'⟩ := h.finished c hmem
      refine ⟨es', hes'.extends (hworks.toExtends.trans hext) (hworks.body_other c hcb)
        (hworks.control_other c hcb) (fun x v hv => hworks.ends x c v hmem hv)
        (fun x hx => hworks.sites_other c hcb x hx) fun n hn => htouch.2 n ?_⟩
      exact h.nodes_disjoint hvalid hsources hb (h.sound.filled_lt c hmem) hcb hn
  · refine absurd ?_ hentry
    change s'.func.entry ∈ b :: s'.filled
    rw [hworks.graph.entry, hworks.filled_eq]
    exact mem_cons.mpr (hfirst.imp Eq.symm id)
  · have hcb : c ≠ b := by
      rintro rfl
      exact hc mem_cons_self
    have hmem : c ∉ s.filled := by
      rw [← hworks.filled_eq]
      exact fun hmem => hc (mem_cons_of_mem b hmem)
    obtain ⟨hctl, hrest⟩ := h.fresh c hmem
    refine ⟨(hworks.control_other c hcb).trans hctl, fun hne => ?_⟩
    obtain ⟨hbody, hsites⟩ := hrest (by rw [← hworks.graph.entry]; exact hne)
    exact ⟨(hworks.body_other c hcb).trans hbody, fun x hx => hsites x (hworks.sites_other c hcb x hx)⟩

theorem trySeal_all {ir : Ir.Func} {bs : List BlockId} {u : PUnit} (hs : s.Sound ir [] [])
    (hrun : Runs (bs.forM (trySeal ir)) s u s') : s'.Sound ir [] [] ∧ Asks s s' := by
  refine runs_forM_invariant (fun _ s' => s'.Sound ir [] [] ∧ Asks s s') ?_ ⟨hs, Asks.refl s hs.resolve_resolve⟩ hrun
  rintro pre b post - s1 s2 ⟨h1, hask1⟩ hb
  obtain ⟨h2, hask2, -⟩ := trySeal_spec h1 hb
  exact ⟨h2, hask1.trans hask2⟩

def Behind (s : Construction) (b : BlockId) : Prop :=
  b = s.func.entry ∨ s.func.entry ∈ s.filled ∧ ∃ p ∈ s.filled, b ∈ (s.func.block p).succs

include hvalid hsources in
/-- One more block is filled, and sealed when its predecessors are. -/
theorem Progress.visit (h : Progress t s) (hb : b ∉ s.filled) (hlt : b < s.func.blocks.size)
    (hbehind : s.Behind b) (hrun : Runs (t.visit b) s u s') : Progress t s' ∧ s'.filled = b :: s.filled := by
  have hflow := (hvalid.skeleton_flow).congr h.graph
  obtain ⟨_, s1, hseal, hrun1⟩ := runs_bind.mp hrun
  obtain ⟨_, s2, hlower, hrun2⟩ := runs_bind.mp hrun1
  obtain ⟨_, s3, hmod, hrun3⟩ := runs_bind.mp hrun2
  obtain rfl := runs_modify.mp hmod
  have hseals := runs_get_bind.mp hrun3
  obtain ⟨hsound1, hask1, hsealed⟩ := trySeal_spec h.sound hseal
  have h1 := h.asks hsound1 hask1
  have hjoin : b ∈ s1.sealedBlocks ∨ 2 ≤ (s1.func.block b).preds.length := by
    rw [hask1.graph.preds]
    rcases hbehind with rfl | ⟨-, p, hp, hsucc⟩
    · exact .inl (hask1.sealed _ h.sound.entry_sealed)
    · have hpred := hflow.edge.mp hsucc
      match hpreds : (s.func.block b).preds with
      | [] => exact absurd (hpreds ▸ hpred) not_mem_nil
      | [q] =>
        refine .inl (hsealed fun q' hq' => ?_)
        rw [hpreds, mem_singleton] at hpred hq'
        rw [hq', ← hpred]
        exact hp
      | _ :: _ :: _ => exact .inr (Nat.le_add_left 2 _)
  have hb1 : b ∉ s1.filled := by
    rw [hask1.filled_eq]
    exact hb
  have hlt1 : b < s1.func.blocks.size := by
    rw [hask1.graph.size]
    exact hlt
  obtain ⟨es, hlow, hes⟩ := h1.opens hb1 hlt1 hjoin
  obtain ⟨hget, -, hkind⟩ := h1.source hsources hlt1
  obtain ⟨es', hlow', hfin, hworks, htouch⟩ := hlow.lowerBlock hes (h1.fresh b hb1).1 hvalid
    (mem_of_getElem? hget) hkind h1.nodeValues hlower
  have hfirst : b = s1.func.entry ∨ s1.func.entry ∈ s1.filled := by
    rw [hask1.graph.entry, hask1.filled_eq]
    exact hbehind.imp id And.left
  have h2 := h1.mark hvalid hsources hlow' hfin hworks htouch hfirst
  obtain ⟨hsound3, hask3⟩ := trySeal_all h2.sound hseals
  refine ⟨h2.asks hsound3 hask3, ?_⟩
  rw [hask3.filled_eq]
  change b :: s2.filled = _
  rw [hworks.filled_eq, hask1.filled_eq]

include hvalid hsources in
/-- All blocks are filled and sealed in the end. -/
theorem Progress.lowerAll (h : Progress t { s with sealedBlocks := s.func.entry :: s.sealedBlocks })
    (hnone : s.filled = []) (hidle : s.incomplete = []) (hrun : Runs t.lowerAll s u s') :
    Progress t s' ∧ ∀ b, b < s'.func.blocks.size → b ∈ s'.filled ∧ b ∈ s'.sealedBlocks := by
  have hflow := (hvalid.skeleton_flow).congr h.graph
  obtain ⟨_, s1, hseal, hrun1⟩ := runs_bind.mp (runs_get_bind.mp hrun)
  obtain ⟨_, s2, hvisits, hrun2⟩ := runs_bind.mp hrun1
  have hcheck := runs_get_bind.mp hrun2
  obtain rfl := sealBlock_idle hidle hseal
  -- after a part of the order, the blocks of that part are lowered
  let I (pre : List BlockId) (s2 : Construction) : Prop :=
    Progress t s2 ∧ s2.filled = pre.reverse
  have hI : I s.func.reversePostorder s2 := by
    refine runs_forM_invariant I ?_ ⟨h, hnone⟩ hvisits
    rintro pre b post hsplit s3 s4 ⟨h3, hfilled⟩ hstep
    have hgraph := h.graph.symm.trans h3.graph
    have hmem := mem_iff_append.mpr ⟨_, _, hsplit⟩
    have hnew := not_mem_of_split s.func.reversePostorder_nodup hsplit
    have hb : b ∉ s3.filled := by
      rw [hfilled, mem_reverse]
      exact hnew
    have hlt : b < s3.func.blocks.size := by
      rw [hgraph.size]
      exact hflow.mem_reversePostorder.mp hmem
    have hbehind : s3.Behind b := by
      rw [Behind, hgraph.entry, hfilled]
      by_cases hentry : b = s.func.entry
      · exact .inl hentry
      · obtain ⟨p, hp, hsucc⟩ := Func.exists_earlier_pred hsplit hentry
        refine .inr ⟨mem_reverse.mpr ?_, p, mem_reverse.mpr hp, ?_⟩
        · have hhead := s.func.reversePostorder_head
          rw [hsplit] at hhead
          cases pre with
          | nil => cases hp
          | cons c pre =>
            rw [Option.some.inj hhead.symm]
            exact mem_cons_self
        · rw [hgraph.succs]
          exact hsucc
    obtain ⟨h4, hfilled4⟩ := h3.visit hvalid hsources hb hlt hbehind hstep
    refine ⟨h4, ?_⟩
    rw [hfilled4, hfilled, reverse_append]
    rfl
  obtain ⟨h2, hfilled⟩ := hI
  split at hcheck
  · exact (runs_throw.mp hcheck).elim
  · next hall =>
    obtain ⟨-, rfl⟩ := runs_pure.mp hcheck
    refine ⟨h2, fun b hb => ?_⟩
    rw [(h.graph.symm.trans h2.graph).size] at hb
    refine ⟨?_, ?_⟩
    · rw [hfilled, mem_reverse]
      exact hflow.mem_reversePostorder.mpr hb
    · have hin := find?_eq_none.mp hall b (mem_range.mpr hb)
      simpa using hin

end Visit

end SsaCodegen.Construction
