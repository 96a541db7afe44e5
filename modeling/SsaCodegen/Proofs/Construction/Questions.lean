import SsaCodegen.Proofs.Construction.DataFlow
import SsaCodegen.Proofs.Dominators

/-! Both outcomes of asking for the value of a variable. A question without an answer has come to the entry,
and from there a walk on which nothing assigns the variable leads to a load of it. -/

namespace SsaCodegen.Construction

open List Steady

variable {t : Task} {s s' s'' : Construction} {x : Var} {b q : BlockId} {l : Ir.LocalId}

/-- At the start of the block it matters what the local is: some way from there to a load of it does not
assign it. -/
inductive Wanted (t : Task) (l : Ir.LocalId) : BlockId → Prop
  | here {b : BlockId} {ns ns' : List Ir.NodeId} {n : Ir.NodeId} (nodes : sourceNodes t b = ns ++ n :: ns')
      (kind : (t.ir.node n).kind = .loadLocal l) (clear : t.ir.storeIn l ns = none) : Wanted t l b
  | later {b c : BlockId} (clear : t.ir.storeIn l (sourceNodes t b) = none)
      (edge : c ∈ (t.ir.skeleton.block b).succs) (wanted : Wanted t l c) : Wanted t l b

def MissesStore (t : Task) (l : Ir.LocalId) : Prop :=
  t.memoryLocals.getD l none = none ∧ ∃ b rest ns n ns', Trail t.ir.skeleton (b :: rest) ∧
    sourceNodes t b = ns ++ n :: ns' ∧ (t.ir.node n).kind = .loadLocal l ∧
    t.ir.storeIn l ns = none ∧ ∀ c ∈ rest, t.ir.storeIn l (sourceNodes t c) = none

/-- How lowering may fail. An error that says that a local has no value is right. -/
def Explained (t : Task) : CompileError → Prop
  | .undefinedVariable _ name _ => ∃ l, (t.ir.locals.getD l default).name = name ∧ MissesStore t l
  | .outOfRange _ _ => False
  | _ => True

theorem Wanted.missesStore (h : Wanted t l b) (hreg : t.memoryLocals.getD l none = none) :
    ∀ rest, Trail t.ir.skeleton (b :: rest) → (∀ c ∈ rest, t.ir.storeIn l (sourceNodes t c) = none) →
      MissesStore t l := by
  induction h with
  | here nodes kind clear => exact fun rest htrail hrest => ⟨hreg, _, rest, _, _, _, htrail, nodes, kind, clear, hrest⟩
  | later clear edge wanted ih =>
    intro rest htrail hrest
    exact ih _ (.step htrail edge) (forall_mem_cons.mpr ⟨clear, hrest⟩)

def Wants (t : Task) (x : Var) (b : BlockId) : Prop :=
  ∀ l, x = .slot l → t.memoryLocals.getD l none = none ∧ Wanted t l b

/-- A block has at most one phi for each variable, which has a value there from then on. -/
def Single (s : Construction) : Prop :=
  ∀ p x, (p, x) ∈ s.phiVars → p < s.func.values.size ∧ s.def? x (s.func.value p).block ≠ none ∧
    ∀ q, (q, x) ∈ s.phiVars → (s.func.value q).block = (s.func.value p).block → q = p

/-- What questions rely on. -/
structure Charted (t : Task) (s : Construction) : Prop where
  graph : t.ir.skeleton.SameGraph s.func
  size : s.defs.size = t.ir.skeleton.blocks.size
  sealed : ∀ b ∈ s.sealedBlocks, ∀ q ∈ (t.ir.skeleton.block b).preds, q ∈ s.filled
  memory : s.def? .memory t.ir.skeleton.entry ≠ none
  clear : ∀ b ∈ s.filled, ∀ l, t.memoryLocals.getD l none = none → s.def? (.slot l) b = none →
    t.ir.storeIn l (sourceNodes t b) = none
  wanted : ∀ b x p, (b, x, p) ∈ s.incomplete → Wants t x b
  single : s.Single

/-- More values are recorded, and no block is finished or opened. -/
structure Widens (s s' : Construction) : Prop where
  graph : s.func.SameGraph s'.func
  size : s'.defs.size = s.defs.size
  filled : s'.filled = s.filled
  sealed : s'.sealedBlocks = s.sealedBlocks
  defs : ∀ x b, s'.def? x b = none → s.def? x b = none

theorem Widens.of_eq (hgraph : s.func.SameGraph s'.func) (hdefs : s'.defs = s.defs)
    (hfilled : s'.filled = s.filled) (hsealed : s'.sealedBlocks = s.sealedBlocks) : Widens s s' := by
  refine ⟨hgraph, by rw [hdefs], hfilled, hsealed, fun x b h => ?_⟩
  rw [def?, hdefs] at h
  exact h

instance : Steady Widens where
  refl _ := .of_eq (.refl _) rfl rfl rfl
  trans h h' := ⟨h.graph.trans h'.graph, h'.size.trans h.size, h'.filled.trans h.filled, h'.sealed.trans h.sealed,
    fun x b hb => h.defs x b (h'.defs x b hb)⟩

/-- The graph stays, and values stay in their blocks. -/
structure Func.Stays (f g : Func) : Prop extends Func.SameGraph f g where
  size_le : f.values.size ≤ g.values.size
  home : ∀ v, v < f.values.size → (g.value v).block = (f.value v).block

theorem Func.Stays.refl (f : Func) : Func.Stays f f := ⟨.refl f, le_rfl, fun _ _ => rfl⟩

theorem Single.stays (h : s.Single) (hfunc : Func.Stays s.func s'.func) (hvars : s'.phiVars = s.phiVars)
    (hw : Widens s s') : s'.Single := by
  intro p x hp
  rw [hvars] at hp
  obtain ⟨hlt, hdef, hone⟩ := h p x hp
  rw [hfunc.home p hlt]
  refine ⟨hlt.trans_le hfunc.size_le, fun hnone => hdef (hw.defs _ _ hnone), fun q hq heq => ?_⟩
  rw [hvars] at hq
  rw [hfunc.home q (h q x hq).1] at heq
  exact hone q hq heq

theorem Charted.widen (h : Charted t s) (hw : Widens s s') (hincomplete : s'.incomplete = s.incomplete)
    (hsingle : s'.Single) : Charted t s' where
  graph := h.graph.trans hw.graph
  size := hw.size.trans h.size
  sealed := by
    rw [hw.filled, hw.sealed]
    exact h.sealed
  memory hnone := h.memory (hw.defs _ _ hnone)
  clear b hb l hl hnone := by
    rw [hw.filled] at hb
    exact h.clear b hb l hl (hw.defs _ _ hnone)
  wanted := by
    rw [hincomplete]
    exact h.wanted
  single := hsingle

theorem Charted.unrecorded (h : Charted t s) (hfunc : Func.Stays s.func s'.func) (hvars : s'.phiVars = s.phiVars)
    (hdefs : s'.defs = s.defs) (hfilled : s'.filled = s.filled) (hsealed : s'.sealedBlocks = s.sealedBlocks)
    (hincomplete : s'.incomplete = s.incomplete) : Charted t s' ∧ Widens s s' := by
  have hw : Widens s s' := .of_eq hfunc.toSameGraph hdefs hfilled hsealed
  exact ⟨h.widen hw hincomplete (h.single.stays hfunc hvars hw), hw⟩

theorem widens_record (hb : b < s.defs.size) (v : ValueId) : Widens s (s.record x b v) := by
  refine ⟨.refl _, Array.size_modify .., rfl, rfl, fun y c h => ?_⟩
  rw [def?_record hb] at h
  split at h
  · cases h
  · exact h

theorem Charted.record (h : Charted t s) (hb : b < t.ir.skeleton.blocks.size) (v : ValueId) :
    Charted t (s.record x b v) ∧ Widens s (s.record x b v) := by
  rw [← h.size] at hb
  have hw := widens_record (x := x) hb v
  exact ⟨h.widen hw rfl (h.single.stays (.refl _) rfl hw), hw⟩

theorem record_answers (hb : b < s.defs.size) (v : ValueId) : (s.record x b v).def? x b = some v := by
  rw [def?_record hb, if_pos ⟨rfl, rfl⟩]

/-- A variable that has no value in a block has no phi there, so it may get one. -/
theorem Charted.newPhi (h : Charted t s) (hb : b < t.ir.skeleton.blocks.size) (hnone : s.def? x b = none) :
    Charted t ((s.newPhi t.ir x b).2.record x b s.func.values.size) ∧
      Widens s ((s.newPhi t.ir x b).2.record x b s.func.values.size) := by
  rw [← h.size] at hb
  have hw : Widens s ((s.newPhi t.ir x b).2.record x b s.func.values.size) :=
    { widens_record hb s.func.values.size with graph := Func.sameGraph_insertPhi .. }
  refine ⟨h.widen hw rfl ?_, hw⟩
  have hsome : ((s.newPhi t.ir x b).2.record x b s.func.values.size).def? x b ≠ none := by
    rw [record_answers (s := (s.newPhi t.ir x b).2) hb]
    exact Option.some_ne_none _
  have hnew : (((s.newPhi t.ir x b).2.record x b s.func.values.size).func.value s.func.values.size).block = b :=
    isPhi_newPhi.block
  have hold : ∀ p y, (p, y) ∈ s.phiVars →
      ((s.newPhi t.ir x b).2.func.value p).block = (s.func.value p).block := fun p y hp =>
    congrArg Value.block (Func.value_insertPhi_old s.func b (x.type t.ir) (h.single p y hp).1)
  have hother : ∀ p, (p, x) ∈ s.phiVars → (s.func.value p).block ≠ b := fun p hp heq =>
    (h.single p x hp).2.1 (heq ▸ hnone)
  intro p y hp
  rcases mem_cons.mp hp with hfirst | hlater
  · obtain ⟨rfl, rfl⟩ := Prod.mk.inj hfirst
    refine ⟨isPhi_newPhi.lt, fun hn => hsome ?_, fun q hq heq => ?_⟩
    · rwa [hnew] at hn
    rcases mem_cons.mp hq with hsame | hq
    · exact (Prod.mk.inj hsame).1
    · exact absurd ((hold q y hq).symm.trans (heq.trans hnew)) (hother q hq)
  · obtain ⟨hlt, hdef, hone⟩ := h.single p y hlater
    refine ⟨hlt.trans isPhi_newPhi.lt, fun hn => hdef (hold p y hlater ▸ hw.defs _ _ hn), fun q hq heq => ?_⟩
    rcases mem_cons.mp hq with hfirst | hq
    · obtain ⟨rfl, rfl⟩ := Prod.mk.inj hfirst
      exact absurd ((hold p y hlater).symm.trans (heq.symm.trans hnew)) (hother p hlater)
    · exact hone q hq ((hold q y hq).symm.trans (heq.trans (hold p y hlater)))

theorem Charted.addOperand (h : Charted t s) (phi : ValueId) (i : Nat) (v : ValueId) :
    Charted t (s.addOperand phi i v) ∧ Widens s (s.addOperand phi i v) :=
  h.unrecorded ⟨⟨rfl, rfl, fun _ => rfl, fun _ => rfl, fun _ => rfl⟩, le_rfl, fun _ _ => rfl⟩ rfl rfl rfl rfl rfl

theorem Charted.await (h : Charted t s) (hwants : Wants t x b) (phi : ValueId) :
    Charted t { s with incomplete := s.incomplete ++ [(b, x, phi)] } := by
  refine { h with wanted := fun c y p hp => ?_ }
  rcases mem_append.mp hp with hp | hp
  · exact h.wanted c y p hp
  · obtain ⟨rfl, hvar⟩ := Prod.mk.inj (mem_singleton.mp hp)
    rw [(Prod.mk.inj hvar).1]
    exact hwants

/-- Looking for sole operands changes only what replaces what. -/
theorem simplifyWithin_eq : ∀ (fuel : Nat) (work : List ValueId) (s : Construction), ∃ forward users removed,
    simplifyWithin fuel work s = { s with forward := forward, phiUsers := users, phisRemoved := removed } := by
  intro fuel
  induction fuel with
  | zero => exact fun work s => ⟨s.forward, s.phiUsers, s.phisRemoved, rfl⟩
  | succ fuel ih =>
    intro work s
    cases work with
    | nil => exact ⟨s.forward, s.phiUsers, s.phisRemoved, rfl⟩
    | cons phi work =>
      rw [simplifyWithin]
      split
      · exact ih work s
      · split
        · exact ih work s
        · next v _ =>
          obtain ⟨forward, users, removed, heq⟩ :=
            ih ((s.replacePhi phi v).1.reverse ++ work) (s.replacePhi phi v).2
          exact ⟨forward, users, removed, heq⟩

theorem Charted.settlePhi (h : Charted t s) (hb : b < t.ir.skeleton.blocks.size) (phi : ValueId) :
    Charted t (s.settlePhi x b phi).2 ∧ Widens s (s.settlePhi x b phi).2 := by
  obtain ⟨forward, users, removed, heq⟩ :=
    simplifyWithin_eq ((s.phiUsers.length + 1) * (s.func.values.size + 1) + 1) [phi] s
  have hsimple : Charted t (s.simplify phi) ∧ Widens s (s.simplify phi) := by
    rw [simplify, heq]
    exact h.unrecorded (.refl _) rfl rfl rfl rfl rfl
  rw [Construction.settlePhi]
  split
  · obtain ⟨hrec, hw⟩ := hsimple.1.record hb ((s.simplify phi).resolve phi)
    exact ⟨hrec, trans hsimple.2 hw⟩
  · exact hsimple

def openJoins (t : Task) (s : Construction) (x : Var) : Finset BlockId :=
  (Finset.range t.ir.skeleton.blocks.size).filter fun c =>
    s.def? x c = none ∧ 2 ≤ (t.ir.skeleton.block c).preds.length

theorem mem_openJoins {c : BlockId} : c ∈ openJoins t s x ↔ c < t.ir.skeleton.blocks.size ∧
    s.def? x c = none ∧ 2 ≤ (t.ir.skeleton.block c).preds.length := by
  rw [openJoins, Finset.mem_filter, Finset.mem_range]

theorem Widens.openJoins_subset (h : Widens s s') : openJoins t s' x ⊆ openJoins t s x := by
  intro c hc
  rw [mem_openJoins] at hc ⊢
  exact ⟨hc.1, h.defs x c hc.2.1, hc.2.2⟩

theorem Widens.openJoins_lt (h : Widens s s') (hb : b < t.ir.skeleton.blocks.size)
    (hj : 2 ≤ (t.ir.skeleton.block b).preds.length) (hnone : s.def? x b = none)
    (hsome : s'.def? x b ≠ none) : (openJoins t s' x).card < (openJoins t s x).card := by
  refine Finset.card_lt_card (Finset.ssubset_iff_of_subset h.openJoins_subset |>.mpr ⟨b, ?_, ?_⟩)
  · exact mem_openJoins.mpr ⟨hb, hnone, hj⟩
  · exact fun hmem => hsome (mem_openJoins.mp hmem).2.1

def toAsk (t : Task) (s : Construction) (x : Var) (b : BlockId) : Nat :=
  (openJoins t s x).card * (t.ir.skeleton.blocks.size + 1) + t.ir.skeleton.rank b

section

variable (hflow : t.ir.skeleton.Flow)

include hflow

theorem rank_le (hb : b < t.ir.skeleton.blocks.size) : t.ir.skeleton.rank b ≤ t.ir.skeleton.blocks.size :=
  hflow.linked.rank_le (hflow.reachable b hb)

theorem rank_lt (hpreds : (t.ir.skeleton.block b).preds = [q]) : t.ir.skeleton.rank q < t.ir.skeleton.rank b := by
  have hq : q ∈ (t.ir.skeleton.block b).preds := by
    rw [hpreds]
    exact mem_cons_self
  have hne : b ≠ t.ir.skeleton.entry := by
    rintro rfl
    rw [hflow.entry_preds] at hpreds
    cases hpreds
  obtain ⟨p, hp, -, hlt⟩ := hflow.linked.exists_pred_rank_lt (hflow.reachable b (Func.lt_of_mem_preds hq)) hne
  rw [hpreds, mem_singleton] at hp
  rw [← hp]
  exact hlt

theorem toAsk_single (hpreds : (t.ir.skeleton.block b).preds = [q]) : toAsk t s x q < toAsk t s x b :=
  Nat.add_lt_add_left (rank_lt hflow hpreds) _

theorem toAsk_join (h : Widens s s') (hb : b < t.ir.skeleton.blocks.size)
    (hj : 2 ≤ (t.ir.skeleton.block b).preds.length) (hnone : s.def? x b = none) (hsome : s'.def? x b ≠ none)
    (hq : q < t.ir.skeleton.blocks.size) : toAsk t s' x q < toAsk t s x b := by
  have hcard := h.openJoins_lt hb hj hnone hsome
  have hrank := rank_le hflow hq
  calc toAsk t s' x q < ((openJoins t s' x).card + 1) * (t.ir.skeleton.blocks.size + 1) := by
        rw [toAsk, Nat.add_mul]
        omega
    _ ≤ (openJoins t s x).card * (t.ir.skeleton.blocks.size + 1) := Nat.mul_le_mul_right _ hcard
    _ ≤ toAsk t s x b := Nat.le_add_right _ _

theorem toAsk_lt (hb : b < t.ir.skeleton.blocks.size) : toAsk t s x b <
    (t.ir.skeleton.blocks.size + 1) * (t.ir.skeleton.blocks.size + 1) := by
  have hcard : (openJoins t s x).card ≤ t.ir.skeleton.blocks.size := by
    calc (openJoins t s x).card ≤ (Finset.range t.ir.skeleton.blocks.size).card := Finset.card_filter_le _ _
      _ = t.ir.skeleton.blocks.size := Finset.card_range _
  have hrank := rank_le hflow hb
  calc toAsk t s x b ≤ t.ir.skeleton.blocks.size * (t.ir.skeleton.blocks.size + 1) + t.ir.skeleton.blocks.size :=
        Nat.add_le_add (Nat.mul_le_mul_right _ hcard) hrank
    _ < (t.ir.skeleton.blocks.size + 1) * (t.ir.skeleton.blocks.size + 1) := by
        rw [Nat.add_mul _ 1]
        omega

end

def Asked (t : Task) (s : Construction) (x : Var) (b : BlockId) : Prop := s.def? x b = none → Wants t x b

theorem Wants.pred (h : Wants t x b) (hflow : t.ir.skeleton.Flow) (hs : Charted t s)
    (hq : q ∈ (t.ir.skeleton.block b).preds) (hfilled : q ∈ s.filled) : Asked t s x q := by
  rintro hnone l rfl
  obtain ⟨hreg, hwanted⟩ := h l rfl
  exact ⟨hreg, .later (hs.clear q hfilled l hreg hnone) (hflow.edge.mpr hq) hwanted⟩

theorem Charted.explained (hs : Charted t s) (hflow : t.ir.skeleton.Flow) (hb : b < t.ir.skeleton.blocks.size)
    (hpreds : (t.ir.skeleton.block b).preds = []) (hnone : s.def? x b = none) (hwants : Wants t x b)
    (func block : String) : Explained t (.undefinedVariable func (x.name t.ir) block) := by
  obtain ⟨rest, htrail⟩ := hflow.exists_trail hb
  cases htrail with
  | start =>
    cases x with
    | memory => exact absurd hnone hs.memory
    | slot l =>
      obtain ⟨hreg, hwanted⟩ := hwants l rfl
      exact ⟨l, rfl, hwanted.missesStore hreg [] .start (forall_mem_nil _)⟩
  | step _ edge =>
    rw [hflow.edge, hpreds] at edge
    cases edge

theorem askPreds_outcome {ask : BlockId → Build ValueId} {f : BlockId × Nat → Build PUnit} {phi : ValueId}
    (hf : ∀ q i, f (q, i) = ask q >>= fun v => modify (·.addOperand phi i v)) (hs : Charted t s)
    (hask : ∀ q ∈ (t.ir.skeleton.block b).preds, ∀ s', Charted t s' → Widens s s' →
      Meets (ask q) s' (fun _ s'' => Charted t s'' ∧ Widens s' s'') (Explained t)) :
    Meets ((t.ir.skeleton.block b).preds.zipIdx.forM f) s (fun _ s' => Charted t s' ∧ Widens s s') (Explained t) := by
  refine meets_forM (fun _ s' => Charted t s' ∧ Widens s s') ?_ ⟨hs, refl s⟩
  rintro pre ⟨q, i⟩ post hsplit s1 ⟨hs1, hw1⟩
  have hmem := mem_iff_append.mpr ⟨_, _, hsplit⟩
  rw [hf]
  refine Meets.bind (hask q ((mem_zipIdx' hmem).2 ▸ getElem_mem _) s1 hs1 hw1) fun v s2 hs2 => ?_
  obtain ⟨hadd, hwadd⟩ := hs2.1.addOperand phi i v
  exact meets_modify ⟨hadd, trans hw1 (trans hs2.2 hwadd)⟩

/-- A read ends: every question is about a block and a variable that have not been asked for. -/
theorem readWithin_outcome (hflow : t.ir.skeleton.Flow) (x : Var) : ∀ (fuel : Nat) (start b : BlockId)
    (s : Construction), Charted t s → b < t.ir.skeleton.blocks.size → Asked t s x b → toAsk t s x b < fuel →
    Meets (readWithin t.ir x fuel start b) s (fun _ s' => Charted t s' ∧ Widens s s') (Explained t) := by
  intro fuel
  induction fuel with
  | zero => exact fun start b s _ _ _ hfuel => absurd hfuel (Nat.not_lt_zero _)
  | succ fuel ih =>
    intro start b s hs hb hasked hfuel
    refine meets_get_bind ?_
    split
    · exact meets_pure ⟨hs, refl s⟩
    · next hnone =>
      obtain ⟨hphi, hw⟩ := hs.newPhi hb hnone
      refine meets_ite (fun hopen => ?_) fun hsealed => ?_
      · -- an open block gets a phi that waits
        have hwait := hphi.await (hasked hnone) s.func.values.size
        exact (meets_set ⟨hwait, { hw with }⟩).bind fun _ _ h => meets_pure h
      · have hpred := hs.sealed b (not_not.mp hsealed)
        rw [hs.graph.preds]
        split
        · next hpreds => exact meets_throw (hs.explained hflow hb hpreds hnone (hasked hnone) _ _)
        · next q hpreds =>
          have hq : q ∈ (t.ir.skeleton.block b).preds := by
            rw [hpreds]
            exact mem_cons_self
          refine Meets.bind (ih start q s hs (hflow.pred_lt b q hq) ((hasked hnone).pred hflow hs hq (hpred q hq))
            ((toAsk_single hflow hpreds).trans_le (Nat.le_of_lt_succ hfuel))) fun v s1 hs1 => ?_
          obtain ⟨hrec, hw⟩ := hs1.1.record hb v
          exact (meets_modify ⟨hrec, trans hs1.2 hw⟩).bind fun _ s' h => meets_pure h
        · next hnil hsingle =>
          have hj : 2 ≤ (t.ir.skeleton.block b).preds.length := by
            cases hpreds : (t.ir.skeleton.block b).preds with
            | nil => exact absurd hpreds hnil
            | cons q rest =>
              cases rest with
              | nil => exact absurd hpreds (hsingle q)
              | cons r rest => exact Nat.le_add_left 2 rest.length
          refine (meets_set (Q := fun _ s' => s' = (s.newPhi t.ir x b).2.record x b (s.newPhi t.ir x b).1)
            rfl).bind fun _ s1 hs1 => ?_
          have hrec := hs1 ▸ hphi
          have hw1 := hs1 ▸ hw
          have hanswered : s1.def? x b ≠ none := by
            rw [hs1, record_answers (hs.size.symm ▸ hb)]
            exact Option.some_ne_none _
          refine Meets.bind (askPreds_outcome (fun _ _ => rfl) hrec fun q hq s2 hs2 hw2 => ?_) fun _ s2 hs2 => ?_
          · have hw' := trans hw1 hw2
            have hfilled : q ∈ s2.filled := by
              rw [hw'.filled]
              exact hpred q hq
            exact ih q q s2 hs2 (hflow.pred_lt b q hq) ((hasked hnone).pred hflow hs2 hq hfilled)
              ((toAsk_join hflow hw' hb hj hnone (fun h => hanswered (hw2.defs x b h))
                (hflow.pred_lt b q hq)).trans_le (Nat.le_of_lt_succ hfuel))
          · obtain ⟨hset, hwset⟩ := hs2.1.settlePhi hb (s.newPhi t.ir x b).1
            exact meets_modifyGet ⟨hset, trans hw1 (trans hs2.2 hwset)⟩

theorem readVar_outcome (hflow : t.ir.skeleton.Flow) (hs : Charted t s) (hb : b < t.ir.skeleton.blocks.size)
    (hasked : Asked t s x b) :
    Meets (readVar t.ir x b) s (fun _ s' => Charted t s' ∧ Widens s s') (Explained t) := by
  refine meets_get_bind ?_
  rw [hs.graph.size]
  exact readWithin_outcome hflow x _ b b s hs hb hasked (toAsk_lt hflow hb)

end SsaCodegen.Construction
