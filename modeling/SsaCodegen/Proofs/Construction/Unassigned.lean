import SsaCodegen.Proofs.Construction.Questions

/-! Construction fails for want of a value exactly where the input may read a local that has none: the
question that fails starts at a load, or at a loop head that has waited for its last predecessor. -/

namespace SsaCodegen

open List Meets Steady

variable {e : CompileError}

namespace Ir.Func

/-- A walk from the entry of an input function, the last block first. -/
inductive Walk (f : Func) : List BlockId → Prop
  | start : Walk f [0]
  | step {b c : BlockId} {rest : List BlockId} (walk : Walk f (b :: rest))
      (edge : c ∈ f.distinctSuccessors b) : Walk f (c :: b :: rest)

def ReadsUnassigned (f : Func) (types : TypeTable) (l : LocalId) : Prop :=
  (f.memoryLocals types).getD l false = false ∧ ∃ b rest ns n ns', f.Walk (b :: rest) ∧
    (f.block b).nodes = ns ++ n :: ns' ∧ (f.node n).kind = .loadLocal l ∧
    f.storeIn l ns = none ∧ ∀ c ∈ rest, f.storeIn l (f.block c).nodes = none

end Ir.Func

namespace Construction

variable {t : Task} {s s' : Construction} {b : BlockId} {ns ns' : List Ir.NodeId} {n : Ir.NodeId}
  {l : Ir.LocalId} {e : CompileError} {x : Var}

section Seal

variable (hflow : t.ir.skeleton.Flow)

include hflow

section

variable (hs : Charted t s) (hb : b < t.ir.skeleton.blocks.size)
  (hpreds : ∀ q ∈ (t.ir.skeleton.block b).preds, q ∈ s.filled)

include hs hb hpreds

theorem completePhi_outcome (hwants : Wants t x b) (phi : ValueId) :
    Meets (completePhi t.ir x b phi) s (fun _ s' => Charted t s' ∧ Widens s s') (Explained t) := by
  refine meets_get_bind ?_
  rw [hs.graph.preds]
  refine bind (askPreds_outcome (fun _ _ => rfl) hs fun q hq s1 hs1 hw1 => ?_) fun _ s1 hs1 => ?_
  · refine readVar_outcome hflow hs1 (hflow.pred_lt b q hq) (hwants.pred hflow hs1 hq ?_)
    rw [hw1.filled]
    exact hpreds q hq
  · obtain ⟨hset, hwset⟩ := hs1.1.settlePhi hb phi
    exact meets_modify ⟨hset, trans hs1.2 hwset⟩

theorem sealBlock_outcome :
    Meets (sealBlock t.ir b) s (fun _ s' => Charted t s' ∧ s'.filled = s.filled) (Explained t) := by
  refine meets_get_bind ?_
  rw [partition_eq_filter_filter]
  have hopen : Charted t { s with
      sealedBlocks := b :: s.sealedBlocks, incomplete := s.incomplete.filter (not ∘ fun e => e.1 == b) } :=
    { hs with
      sealed := forall_mem_cons.mpr ⟨hpreds, hs.sealed⟩
      wanted := fun c x p hp => hs.wanted c x p (mem_of_mem_filter hp) }
  refine (meets_set (Q := fun _ s' => s' = _) rfl).bind fun _ s1 hs1 => ?_
  rw [← hs1] at hopen
  have hfilled : s1.filled = s.filled := by
    rw [hs1]
  refine (meets_forM (fun _ s' => Charted t s' ∧ Widens s1 s') ?_ ⟨hopen, refl s1⟩).mono
    (fun _ s' h => ⟨h.1, h.2.filled.trans hfilled⟩) fun _ he => he
  rintro pre ⟨c, x, phi⟩ post hsplit s2 ⟨hs2, hw2⟩
  have hmem := mem_iff_append.mpr ⟨_, _, hsplit⟩
  obtain ⟨hinc, hc⟩ := mem_filter.mp hmem
  obtain rfl : c = b := beq_iff_eq.mp hc
  refine (completePhi_outcome hflow hs2 hb ?_ (hs.wanted c x phi hinc) phi).mono
    (fun _ s' h => ⟨h.1, trans hw2 h.2⟩) fun _ he => he
  rw [hw2.filled, hfilled]
  exact hpreds

end

theorem trySeal_outcome (hs : Charted t s) (hb : b < t.ir.skeleton.blocks.size) :
    Meets (trySeal t.ir b) s (fun _ s' => Charted t s' ∧ s'.filled = s.filled) (Explained t) := by
  refine meets_get_bind (meets_ite (fun hready => ?_) fun _ => meets_pure ⟨hs, rfl⟩)
  refine sealBlock_outcome hflow hs hb fun q hq => ?_
  rw [hs.graph.preds] at hready
  exact contains_iff_mem.mp (all_eq_true.mp hready.2 q hq)

end Seal

section Nodes

variable {α : Type}

abbrev Regular (t : Task) (m : Build α) : Prop := Keeps (Charted t) Widens (Explained t) m

theorem regular_modifyGet {k : Construction → α × Construction}
    (hk : ∀ s : Construction, Func.Stays s.func (k s).2.func ∧ (k s).2.phiVars = s.phiVars ∧ (k s).2.defs = s.defs ∧
      (k s).2.filled = s.filled ∧ (k s).2.sealedBlocks = s.sealedBlocks ∧
      (k s).2.incomplete = s.incomplete) : Regular t (modifyGet k) :=
  keeps_modifyGet fun s hs => hs.unrecorded (hk s).1 (hk s).2.1 (hk s).2.2.1 (hk s).2.2.2.1 (hk s).2.2.2.2.1
    (hk s).2.2.2.2.2

theorem regular_nodeValue (n : Ir.NodeId) : Regular t (t.nodeValue n) := by
  refine keeps_get.bind fun s => ?_
  split
  · exact keeps_pure _
  · exact keeps_throw trivial

theorem stays_newValue (f : Func) (b : BlockId) (op : Op) (ty : TypeId) (args : List ValueId)
    (payload : Payload) : Func.Stays f (f.newValue b op ty args payload).2 :=
  ⟨⟨rfl, rfl, fun _ => rfl, fun _ => rfl, fun _ => rfl⟩,
    ((Nat.lt_succ_self _).trans_eq (Func.values_size_newValue ..).symm).le,
    fun _ hv => congrArg Value.block (Func.value_newValue_old f b op ty args payload hv)⟩

theorem stays_modifyBlock {f g : Func} (h : Func.Stays f g) (b : BlockId) (k : Block → Block)
    (hk : ∀ x, (k x).kind = x.kind ∧ (k x).preds = x.preds ∧ (k x).succs = x.succs) :
    Func.Stays f (g.modifyBlock b k) :=
  { h with toSameGraph := h.toSameGraph.trans (.modifyBlock g b k (fun x => (hk x).1) (fun x => (hk x).2.1)
      fun x => (hk x).2.2) }

theorem regular_append (b : BlockId) (op : Op) (ty : TypeId) (args : List ValueId) (payload : Payload) :
    Regular t (Task.append b op ty args payload) :=
  regular_modifyGet fun s => ⟨stays_modifyBlock (stays_newValue s.func b op ty args payload) b _
    fun _ => ⟨rfl, rfl, rfl⟩, rfl, rfl, rfl, rfl, rfl⟩

theorem regular_constant (ty : TypeId) (value : Int) : Regular t (t.constant ty value) := by
  refine regular_modifyGet fun s => ?_
  dsimp only
  split
  · exact ⟨.refl _, rfl, rfl, rfl, rfl, rfl⟩
  · exact ⟨stays_newValue s.func _ _ ty _ _, rfl, rfl, rfl, rfl, rfl⟩

theorem regular_hiddenLocal (stem : String) (ty : TypeId) : Regular t (Task.hiddenLocal stem ty) :=
  regular_modifyGet fun _ => ⟨⟨⟨rfl, rfl, fun _ => rfl, fun _ => rfl, fun _ => rfl⟩, le_rfl, fun _ _ => rfl⟩,
    rfl, rfl, rfl, rfl, rfl⟩

theorem Charted.assign (h : Charted t s) (hb : b < t.ir.skeleton.blocks.size) (v : ValueId) :
    Charted t (s.assign x b v) ∧ Widens s (s.assign x b v) := by
  obtain ⟨hrec, hw⟩ := h.record hb v
  rw [assign_eq]
  exact And.imp id (trans hw) (hrec.unrecorded (.refl _) rfl rfl rfl rfl rfl)

variable (hflow : t.ir.skeleton.Flow) (hb : b < t.ir.skeleton.blocks.size) (ty : TypeId)

include hflow hb

theorem regular_readMemory : Regular t (readVar t.ir .memory b) := fun _ hs =>
  readVar_outcome hflow hs hb fun _ _ h => Var.noConfusion h

theorem regular_effect (op : Op) (args : List ValueId) (payload : Payload) :
    Regular t (t.effect b op ty args payload) :=
  (regular_readMemory hflow hb).bind fun _ => (regular_append b op ty _ payload).bind fun v =>
    (keeps_modify fun _ hs => hs.assign hb v).bind fun _ => keeps_pure v

theorem regular_load (ptr : ValueId) : Regular t (t.load b ty ptr) :=
  (regular_readMemory hflow hb).bind fun _ => regular_append b _ ty _ _

theorem regular_snapshot (source : ValueId) : Regular t (t.snapshot b ty source) :=
  (regular_hiddenLocal _ ty).bind fun _ => (regular_append b _ _ _ _).bind fun target =>
    (regular_effect hflow hb _ _ _ _).bind fun _ => keeps_pure target

theorem regular_fetch (ptr : ValueId) : Regular t (t.fetch b ty ptr) :=
  keeps_ite (regular_snapshot hflow hb ty ptr) (regular_load hflow hb ty ptr)

theorem regular_storeTo (ptr v : ValueId) : Regular t (t.storeTo b ptr ty v) :=
  keeps_ite ((regular_effect hflow hb _ _ _ _).bind fun _ => keeps_pure _)
    ((regular_effect hflow hb _ _ _ _).bind fun _ => keeps_pure _)

omit hflow hb in
theorem regular_fieldAddr (base : ValueId) (i : Nat) : Regular t (t.fieldAddr b ty base i) := by
  rw [Task.fieldAddr]
  split
  · exact keeps_throw trivial
  · exact regular_append b _ _ _ _

theorem regular_lowerAggregate (fields : List Ir.NodeId) : Regular t (t.lowerAggregate b ty fields) := by
  refine (keeps_mapM regular_nodeValue fields).bind fun values => keeps_ite ?_ (keeps_ite ?_ ?_)
  · refine (regular_hiddenLocal _ ty).bind fun _ => (regular_append b _ _ _ _).bind fun base =>
      (keeps_forM (fun e => ?_) _).bind fun _ => keeps_pure base
    exact (regular_fieldAddr ty base _).bind fun ptr => regular_storeTo hflow hb _ ptr _
  · exact regular_append b _ _ _ _
  · exact keeps_throw trivial

theorem regular_lowerExtract (n : Ir.NodeId) (i : Nat) : Regular t (t.lowerExtract b ty n i) := by
  refine (regular_nodeValue n).bind fun v => keeps_ite ?_ (keeps_ite ?_ ?_)
  · exact (regular_fieldAddr _ v i).bind fun ptr => keeps_ite (keeps_pure ptr) (regular_load hflow hb ty ptr)
  · exact regular_append b _ _ _ _
  · exact keeps_throw trivial

theorem regular_lowerArgument (n : Ir.NodeId) : Regular t (t.lowerArgument b n) :=
  (regular_nodeValue n).bind fun v => keeps_ite (regular_snapshot hflow hb _ v) (keeps_pure v)

theorem regular_lowerCall (callee : String) (args : List Ir.NodeId) (fixed : Nat) :
    Regular t (t.lowerCall b ty callee args fixed) := by
  refine keeps_ite ?_ ?_
  · exact (regular_hiddenLocal _ ty).bind fun _ => (regular_append b _ _ _ _).bind fun addr =>
      (keeps_mapM (regular_lowerArgument hflow hb) args).bind fun values =>
        (regular_effect hflow hb _ _ _ _).bind fun _ => keeps_pure (some addr)
  · exact (keeps_mapM (regular_lowerArgument hflow hb) args).bind fun values =>
      (regular_effect hflow hb _ _ _ _).bind fun _ => keeps_pure _

theorem regular_lowerNode (hload : ∀ l, (t.ir.node n).kind = .loadLocal l → t.memoryLocals.getD l none ≠ none)
    (hstore : ∀ l x, (t.ir.node n).kind = .storeLocal l x → t.memoryLocals.getD l none ≠ none) :
    Regular t (t.lowerNode b n) := by
  rw [Task.lowerNode]
  cases hkind : (t.ir.node n).kind with
  | param i => exact keeps_pure _
  | const value => exact (regular_constant _ value).map _
  | binary op x y =>
    exact (regular_nodeValue x).bind fun _ => (regular_nodeValue y).bind fun _ => (regular_append b _ _ _ _).map _
  | unary op x => exact (regular_nodeValue x).bind fun _ => (regular_append b _ _ _ _).map _
  | cmp r x y =>
    exact (regular_nodeValue x).bind fun _ => (regular_nodeValue y).bind fun _ => (regular_append b _ _ _ _).map _
  | convert c x => exact (regular_nodeValue x).bind fun _ => (regular_append b _ _ _ _).map _
  | loadLocal l =>
    dsimp only
    split
    · next hreg => exact absurd hreg (hload l hkind)
    · exact (regular_append b _ _ _ _).bind fun addr => (regular_fetch hflow hb _ addr).map _
  | storeLocal l x =>
    refine (regular_nodeValue x).bind fun v => ?_
    split
    · next hreg => exact absurd hreg (hstore l x hkind)
    · exact ((regular_append b _ _ _ _).bind fun addr => regular_storeTo hflow hb _ addr v).bind
        fun _ => keeps_pure none
  | addrOf l =>
    dsimp only
    split
    · exact keeps_throw trivial
    · exact (regular_append b _ _ _ _).map _
  | load ptr => exact (regular_nodeValue ptr).bind fun v => (regular_fetch hflow hb _ v).map _
  | store ptr x =>
    exact (regular_nodeValue ptr).bind fun p => (regular_nodeValue x).bind fun v =>
      (regular_storeTo hflow hb _ p v).bind fun _ => keeps_pure none
  | offset ptr bytes => exact (regular_nodeValue ptr).bind fun _ => (regular_append b _ _ _ _).map _
  | global name => exact (regular_append b _ _ _ _).map _
  | call callee args fixed => exact regular_lowerCall hflow hb _ callee args fixed
  | aggregate fields => exact (regular_lowerAggregate hflow hb _ fields).map _
  | extract x i => exact (regular_lowerExtract hflow hb _ x i).map _
  | zero ptr zeroed =>
    exact (regular_nodeValue ptr).bind fun _ => (regular_effect hflow hb _ _ _ _).bind fun _ => keeps_pure none
  | copy x =>
    exact (regular_nodeValue x).bind fun v => keeps_ite (keeps_pure _) ((regular_append b _ _ _ _).map _)

omit hflow hb in
theorem regular_setControl (v : ValueId) : Regular t (Task.setControl b v) :=
  keeps_modify fun _ hs => hs.unrecorded (stays_modifyBlock (.refl _) b _ fun _ => ⟨rfl, rfl, rfl⟩) rfl rfl rfl rfl rfl

theorem regular_returnArgs (value : Option Ir.NodeId) : Regular t (t.returnArgs b value) := by
  refine (regular_readMemory hflow hb).bind fun mem => ?_
  split
  · exact keeps_pure _
  · refine (regular_nodeValue _).bind fun v => ?_
    split
    · exact keeps_ite ((regular_effect hflow hb _ _ _ _).bind fun _ => keeps_pure _) (keeps_pure _)
    · exact keeps_pure _

theorem regular_lowerTerminator (source : Ir.Block) : Regular t (t.lowerTerminator b source) := by
  rw [Task.lowerTerminator]
  split
  · exact keeps_throw trivial
  · exact keeps_pure _
  · exact keeps_get.bind fun _ => keeps_ite ((regular_nodeValue _).bind fun _ => regular_setControl _) (keeps_pure _)
  · refine (regular_returnArgs hflow hb _).bind fun args => Keeps.bind (regular_modifyGet fun s => ?_) fun _ =>
      regular_setControl _
    exact ⟨stays_newValue s.func b _ _ _ _, rfl, rfl, rfl, rfl, rfl⟩

end Nodes

def ClearPast (t : Task) (s : Construction) (b : BlockId) (ns : List Ir.NodeId) : Prop :=
  ∀ l, t.memoryLocals.getD l none = none → s.def? (.slot l) b = none → t.ir.storeIn l ns = none

theorem ClearPast.snoc (h : ClearPast t s b ns) (hw : Widens s s')
    (hstore : ∀ l x, (t.ir.node n).kind = .storeLocal l x → t.memoryLocals.getD l none = none →
      s'.def? (.slot l) b ≠ none) : ClearPast t s' b (ns ++ [n]) := by
  intro l hreg hnone
  rw [storeIn_snoc, h l hreg (hw.defs _ b hnone), Option.or_none]
  split
  · next l' x kind =>
    rw [if_neg]
    rintro rfl
    exact hstore l' x kind hreg hnone
  · rfl

section Blocks

variable (hflow : t.ir.skeleton.Flow) (hb : b < t.ir.skeleton.blocks.size)

include hflow hb

theorem lowerNode_outcome (hsplit : sourceNodes t b = ns ++ n :: ns') (hs : Charted t s)
    (hclear : ClearPast t s b ns) : Meets (t.lowerNode b n) s
      (fun _ s' => (Charted t s' ∧ Widens s s') ∧ ClearPast t s' b (ns ++ [n])) (Explained t) := by
  by_cases hstore : ∃ l x, (t.ir.node n).kind = .storeLocal l x ∧ t.memoryLocals.getD l none = none
  · -- a store makes the local known
    obtain ⟨l, x, hkind, hreg⟩ := hstore
    rw [Task.lowerNode, hkind]
    refine bind (regular_nodeValue x s hs) fun v s1 hs1 => ?_
    rw [hreg]
    obtain ⟨hassign, hw⟩ := hs1.1.assign hb v
    refine (meets_modify (Q := fun _ s' => s' = s1.assign (.slot l) b v) rfl).bind fun _ s2 hs2 => ?_
    rw [hs2]
    refine meets_pure ⟨⟨hassign, trans hs1.2 hw⟩, hclear.snoc (trans hs1.2 hw) ?_⟩
    intro l' x' hkind' _
    obtain ⟨rfl, -⟩ := Ir.NodeKind.storeLocal.inj (hkind.symm.trans hkind')
    rw [def?_assign (by rw [hs1.1.size]; exact hb), if_pos ⟨rfl, rfl⟩]
    exact Option.some_ne_none v
  have hsnoc : ∀ s', Widens s s' → ClearPast t s' b (ns ++ [n]) := fun s' hw =>
    hclear.snoc hw fun l x hkind hreg => absurd ⟨l, x, hkind, hreg⟩ hstore
  by_cases hload : ∃ l, (t.ir.node n).kind = .loadLocal l ∧ t.memoryLocals.getD l none = none
  · -- a load asks, and if it has to, in vain
    obtain ⟨l, hkind, hreg⟩ := hload
    rw [Task.lowerNode, hkind]
    dsimp only
    rw [hreg]
    refine map (readVar_outcome hflow hs hb ?_) fun v s' hs' => ⟨hs', hsnoc s' hs'.2⟩
    rintro hnone _ ⟨⟩
    exact ⟨hreg, .here hsplit hkind (hclear l hreg hnone)⟩
  · exact (regular_lowerNode hflow hb (fun l hkind hreg => hload ⟨l, hkind, hreg⟩)
      (fun l x hkind hreg => hstore ⟨l, x, hkind, hreg⟩) s hs).mono
      (fun _ s' hs' => ⟨hs', hsnoc s' hs'.2⟩) fun _ he => he

theorem lowerBlock_outcome (hs : Charted t s) : Meets (t.lowerBlock b) s
    (fun _ s' => (Charted t s' ∧ Widens s s') ∧ ClearPast t s' b (sourceNodes t b)) (Explained t) := by
  refine bind (meets_forM (fun ns s' => (Charted t s' ∧ Widens s s') ∧ ClearPast t s' b ns)
    (fun ns n ns' hsplit s1 h1 => ?_) ⟨⟨hs, refl s⟩, fun _ _ _ => rfl⟩) fun _ s1 h1 => ?_
  · obtain ⟨⟨hs1, hw1⟩, hclear⟩ := h1
    refine bind (lowerNode_outcome hflow hb hsplit hs1 hclear) fun v s2 h2 => meets_modify ?_
    obtain ⟨⟨hs2, hw2⟩, hclear2⟩ := h2
    refine ⟨And.imp id (fun hw => trans hw1 (trans hw2 hw)) (hs2.unrecorded (.refl _) rfl rfl rfl rfl rfl), hclear2⟩
  · obtain ⟨⟨hs1, hw1⟩, hclear⟩ := h1
    refine (regular_lowerTerminator hflow hb _ s1 hs1).mono (fun _ s2 h2 => ?_) fun _ he => he
    refine ⟨⟨h2.1, trans hw1 h2.2⟩, fun l hreg hnone => ?_⟩
    exact hclear l hreg (h2.2.defs _ b hnone)

theorem visit_outcome (hs : Charted t s) : Meets (t.visit b) s (fun _ s' => Charted t s') (Explained t) := by
  refine bind (trySeal_outcome hflow hs hb) fun _ s1 h1 => ?_
  refine bind (lowerBlock_outcome hflow hb h1.1) fun _ s2 h2 => ?_
  obtain ⟨⟨hs2, -⟩, hclear⟩ := h2
  have hmark : Charted t { s2 with filled := b :: s2.filled } := { hs2 with
      sealed := fun c hc q hq => mem_cons_of_mem b (hs2.sealed c hc q hq)
      clear := forall_mem_cons.mpr ⟨hclear, hs2.clear⟩ }
  refine (meets_modify (Q := fun _ s' => Charted t s') hmark).bind fun _ s3 hs3 => meets_get_bind ?_
  rw [hs3.graph.succs]
  refine meets_forM (fun _ s' => Charted t s') (fun pre c post hsplit s4 hs4 => ?_) hs3
  have hc := mem_iff_append.mpr ⟨_, _, hsplit⟩
  exact (trySeal_outcome hflow hs4 (hflow.succ_lt b c hc)).mono (fun _ _ h => h.1) fun _ he => he

omit hb in
theorem lowerAll_outcome (hs : Charted t s) : Meets t.lowerAll s (fun _ s' => Charted t s') (Explained t) := by
  rw [Task.lowerAll]
  refine meets_get_bind ?_
  dsimp only
  have hentry := hs.graph.entry
  have horder := hs.graph.reversePostorder
  rw [hentry, horder]
  refine bind (sealBlock_outcome hflow hs hflow.entry_lt fun q hq => ?_) fun _ s1 h1 => ?_
  · rw [hflow.entry_preds] at hq
    cases hq
  refine bind (meets_forM (fun _ s' => Charted t s') (fun pre c post hsplit s2 hs2 => ?_) h1.1)
    fun _ s2 hs2 => meets_get_bind ?_
  · have hc := mem_iff_append.mpr ⟨_, _, hsplit⟩
    exact visit_outcome hflow (hflow.mem_reversePostorder.mp hc) hs2
  · split
    · exact meets_throw trivial
    · exact meets_pure hs2

end Blocks

section Complete

variable (h : Complete t s) (hreg : t.memoryLocals.getD l none = none)

include h hreg

/-- Nothing has the value of a local at the start of a block that a walk reaches without a store to it. -/
theorem Complete.not_startsWith : ∀ (rest : List BlockId) (b : BlockId) (v : ValueId),
    Trail s.func (b :: rest) → (∀ c ∈ rest, t.ir.storeIn l (sourceNodes t c) = none) →
      ¬ s.StartsWith (.slot l) b v := by
  intro rest
  induction rest with
  | nil =>
    intro b v htrail _ hstart
    cases htrail
    rcases hstart with ⟨p, hp, -⟩ | ⟨hne, -⟩
    · obtain ⟨-, -, -, htwo⟩ := h.sound.shape.phi p hp.lt hp.op
      rw [hp.block, h.flow.entry_preds] at htwo
      exact absurd htwo (by decide)
    · exact hne h.flow.entry_preds
  | cons q rest ih =>
    intro b v htrail hclear hstart
    obtain ⟨hq, hrest⟩ := forall_mem_cons.mp hclear
    have hpred := htrail.head_pred h.flow
    obtain ⟨w, hw⟩ : ∃ w, s.EndsWith (.slot l) q w := by
      rcases hstart with ⟨p, hp, -⟩ | ⟨-, hall⟩
      · obtain ⟨-, a, -, -, hends⟩ := h.operand hp hpred
        exact ⟨a, hends⟩
      · exact ⟨v, (hall q hpred).2⟩
    obtain ⟨es, hfin⟩ := h.finished q (htrail.tail.1.lt h.flow q mem_cons_self)
    obtain ⟨u, hu, -⟩ := hw
    rcases h.sound.starts _ q u hu with hsite | hstart
    · -- a block that assigns the local stores to it
      rcases hfin.assigned?_slot hreg es [] (append_nil es).symm with ⟨-, hnone⟩ | ⟨x, w, hsome, -⟩
      · exact hfin.untouched _ hnone hsite
      · rw [hfin.nodes, hq] at hsome
        cases hsome
    · exact ih q u htrail.tail.1 hrest hstart

end Complete

theorem Complete.not_missesStore (h : Complete t s) (hgraph : t.ir.skeleton.SameGraph s.func) :
    ¬ MissesStore t l := by
  rintro ⟨hreg, b, rest, ns, n, ns', htrail, hnodes, hkind, hclear, hrest⟩
  replace htrail := htrail.congr hgraph
  obtain ⟨es, hfin⟩ := h.finished b (htrail.lt h.flow b mem_cons_self)
  obtain ⟨pre, post, v, hsplit, hpre, hcur⟩ := hfin.load_current hnodes hkind hreg
  rcases hfin.assigned?_slot hreg pre _ hsplit with ⟨-, hnone⟩ | ⟨x, w, hsome, -⟩
  · rw [Current, hnone] at hcur
    exact h.not_startsWith hreg rest b v htrail hrest hcur
  · rw [hpre, hclear] at hsome
    cases hsome

end Construction

namespace Ir.Func

variable {f : Func} {types : TypeTable} (hf : f.Valid types)

include hf

theorem Valid.walk_of_trail {is : List SsaCodegen.BlockId} (h : Trail f.skeleton is) :
    ∃ bs, List.Forall₂ (fun i b => f.reachableBlocks[i]? = some b) is bs ∧ f.Walk bs := by
  induction h with
  | start =>
    rw [skeleton_entry]
    exact ⟨[0], .cons hf.reachableBlocks_zero .nil, .start⟩
  | step _ edge ih =>
    obtain ⟨bs, hbs, hwalk⟩ := ih
    cases hbs with
    | cons hb hrest =>
      obtain ⟨b, hb', hj⟩ := f.mem_skeleton_succs.mp edge
      obtain ⟨c, hc, hjc⟩ := f.mem_targets.mp hj
      obtain rfl := Option.some.inj (hb.symm.trans hb')
      exact ⟨c :: _, .cons hjc (.cons hb hrest), .step hwalk hc⟩

theorem Valid.trail_of_walk {bs : List BlockId} (h : f.Walk bs) :
    ∃ is, List.Forall₂ (fun i b => f.reachableBlocks[i]? = some b) is bs ∧ Trail f.skeleton is := by
  induction h with
  | start =>
    refine ⟨[0], .cons hf.reachableBlocks_zero .nil, ?_⟩
    rw [← f.skeleton_entry]
    exact .start
  | step _ edge ih =>
    obtain ⟨is, his, htrail⟩ := ih
    cases his with
    | cons hb hrest =>
      have hc := hf.mem_reachableBlocks.mpr ((hf.mem_reachableBlocks.mp (mem_of_getElem? hb)).tail edge)
      obtain ⟨j, hj⟩ := mem_iff_getElem?.mp hc
      refine ⟨j :: _, .cons hj (.cons hb hrest), .step htrail ?_⟩
      exact f.mem_skeleton_succs.mpr ⟨_, hb, f.mem_targets.mpr ⟨_, edge, hj⟩⟩

end Ir.Func

section

variable {ir : Ir.Func} {types : TypeTable} {l : Ir.LocalId}

open Construction

theorem sourceNodes_enter (types : TypeTable) {i : BlockId} {b : Ir.BlockId}
    (h : ir.reachableBlocks[i]? = some b) : sourceNodes (enter ir types).1 i = (ir.block b).nodes := by
  rw [sourceNodes, enter_eq]
  rw [Array.getD_eq_getD_getElem?, getElem?_toArray, h]
  rfl

theorem memoryLocals_enter : (enter ir types).1.memoryLocals.getD l none = none ↔
    (ir.memoryLocals types).getD l false = false := by
  rw [enter_eq, ← Option.isNone_iff_eq_none, ← Option.isSome_eq_false_iff]
  rw [ir.placeLocals_slots types ir.skeleton l]

theorem ir_enter : (enter ir types).1.ir = ir := by
  rw [enter_eq]

theorem storeIn_enter {is : List BlockId} {bs : List Ir.BlockId}
    (h : List.Forall₂ (fun i b => ir.reachableBlocks[i]? = some b) is bs) :
    (∀ i ∈ is, ir.storeIn l (sourceNodes (enter ir types).1 i) = none) ↔
      ∀ b ∈ bs, ir.storeIn l (ir.block b).nodes = none := by
  induction h with
  | nil => simp
  | cons hb _ ih => rw [forall_mem_cons, forall_mem_cons, ih, sourceNodes_enter types hb]

theorem missesStore_enter (hvalid : ir.Valid types) :
    MissesStore (enter ir types).1 l ↔ ir.ReadsUnassigned types l := by
  rw [MissesStore, memoryLocals_enter]
  refine and_congr_right fun _ => ⟨?_, ?_⟩
  · rintro ⟨i, is, ns, n, ns', htrail, hnodes, hkind, hclear, hrest⟩
    obtain ⟨bs, hbs, hwalk⟩ := hvalid.walk_of_trail htrail
    cases hbs with
    | cons hb htail =>
      rw [sourceNodes_enter types hb] at hnodes
      exact ⟨_, _, ns, n, ns', hwalk, hnodes, hkind, hclear, (storeIn_enter htail).mp hrest⟩
  · rintro ⟨b, rest, ns, n, ns', hwalk, hnodes, hkind, hclear, hrest⟩
    obtain ⟨is, his, htrail⟩ := hvalid.trail_of_walk hwalk
    cases his with
    | cons hb htail =>
      rw [← sourceNodes_enter types hb] at hnodes
      exact ⟨_, _, ns, n, ns', htrail, hnodes, hkind, hclear, (storeIn_enter htail).mpr hrest⟩

theorem charted_enter (hvalid : ir.Valid types) : Charted (enter ir types).1 (enter ir types).2 := by
  have h := entered_spec ir types hvalid
  rw [enter_eq]
  have hsize : (blank (entered ir types) ir.nodes.size []).defs.size = ir.skeleton.blocks.size := by
    rw [← h.graph.size]
    exact Array.size_replicate ..
  have hentry : (entered ir types).entry < (blank (entered ir types) ir.nodes.size []).defs.size := by
    rw [hsize, ← h.graph.size]
    exact h.shape.entry_lt
  have hmemory := def?_assign (y := .memory) (c := (entered ir types).entry) (x := .memory) (v := 0) hentry
  rw [if_pos ⟨rfl, rfl⟩] at hmemory
  refine ⟨h.graph, (Array.size_modify ..).trans hsize, forall_mem_nil _, ?_,
    forall_mem_nil _, fun b l p hp => absurd hp not_mem_nil, fun p x hp => by cases hp⟩
  rw [← h.graph.entry, hmemory]
  exact Option.some_ne_none 0

theorem Ir.Func.invalidIr_of_validate (h : ir.validate types = .error e) : ∃ fault, e = .invalidIr ir.name fault := by
  obtain ⟨fault, -, rfl⟩ := except_mapError_eq_error.mp h
  exact ⟨fault, rfl⟩

theorem lowered_of_undefinedVariable {func name block : String}
    (h : buildSsa ir types = .error (.undefinedVariable func name block)) :
    ir.Valid types ∧ lowered ir types = .error (.undefinedVariable func name block) := by
  rcases except_bind_eq_error.mp h with hvalidate | ⟨u, hvalidate, h⟩
  · obtain ⟨fault, hfault⟩ := Ir.Func.invalidIr_of_validate hvalidate
    cases hfault
  · rw [buildUnchecked_eq] at h
    rcases except_bind_eq_error.mp h with hlocals | ⟨_, -, h⟩
    · obtain ⟨fault, -, hfault⟩ := except_mapError_eq_error.mp hlocals
      cases hfault
    · exact ⟨Ir.Func.valid_of_validate hvalidate, except_map_eq_error.mp h⟩

theorem lowerAll_enter_outcome (hvalid : ir.Valid types) : Meets (enter ir types).1.lowerAll (enter ir types).2
    (fun _ s' => Charted (enter ir types).1 s') (Explained (enter ir types).1) := by
  refine lowerAll_outcome ?_ (charted_enter hvalid)
  exact hvalid.skeleton_flow

theorem charted_of_lowered (hvalid : ir.Valid types) {s : Construction} (hs : lowered ir types = .ok s) :
    Charted (enter ir types).1 s :=
  (lowerAll_enter_outcome hvalid).of_runs (runs_of_lowered hs)

theorem lowered_outcome (hvalid : ir.Valid types) (h : lowered ir types = .error e) :
    Explained (enter ir types).1 e := by
  refine (lowerAll_enter_outcome hvalid).of_error ?_
  rcases except_bind_eq_error.mp h with hrun | ⟨p, -, hp⟩
  · exact hrun
  · cases hp

end

open Construction in
/-- The use of a local that may have no value is found exactly. If construction fails for want of a value,
the local that it names is loaded on some walk from the entry before anything is stored to it; and if there
is such a local, construction does not succeed. -/
theorem unassigned_read_detected (ir : Ir.Func) (types : TypeTable) :
    (∀ func name block, buildSsa ir types = .error (.undefinedVariable func name block) →
      ∃ l, (ir.locals.getD l default).name = name ∧ ir.ReadsUnassigned types l) ∧
    ((∃ l, ir.ReadsUnassigned types l) → ∀ built, buildSsa ir types ≠ .ok built) := by
  refine ⟨fun func name block herror => ?_, ?_⟩
  · obtain ⟨hvalid, hlowered⟩ := lowered_of_undefinedVariable herror
    obtain ⟨l, hname, hl⟩ := lowered_outcome hvalid hlowered
    rw [ir_enter] at hname
    exact ⟨l, hname, (missesStore_enter hvalid).mp hl⟩
  · rintro ⟨l, hl⟩ built hbuilt
    obtain ⟨hvalid, s, hs, -⟩ := lowered_of_buildSsa hbuilt
    have hgraph := (progress_of_lowered hvalid hs).1.graph
    exact (complete_of_lowered hvalid hs).not_missesStore hgraph ((missesStore_enter hvalid).mpr hl)

end SsaCodegen
