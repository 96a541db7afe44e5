import SsaCodegen.Proofs.Dominators
import SsaCodegen.Proofs.Liveness
import SsaCodegen.Proofs.SsaForm
import SsaCodegen.Proofs.Stateful

/-! What the checks of a function establish: edges and blocks are in order, and the definition of every value
dominates the places that read it. -/

namespace SsaCodegen.Func

open List

section

open DomTree

variable {f : Func} {a v w : ValueId} {b c : BlockId} {α : Type} {k : Nat} {l : List (Nat × α)}
  {ps : Array (Option α)} {place : Place}

def placed (f : Func) : List ValueId := f.blockIds.flatMap fun b => (f.block b).values

/-- Blocks list values of the function, each of them at most once, and operands stand in the pool. -/
structure WellPlaced (f : Func) : Prop where
  lt : ∀ v ∈ f.placed, v < f.values.size
  once : f.placed.Nodup
  pool : ∀ v < f.values.size, (f.value v).span.start + (f.value v).span.count ≤ f.operands.size

/-- Edges are listed at both ends, values in their own blocks only, and a phi has an operand for each
predecessor. -/
structure Orderly (f : Func) : Prop where
  linked : f.Linked
  placed : ∀ b, ∀ v ∈ (f.block b).values, v < f.values.size ∧ (f.value v).block = b
  nodup : ∀ b, (f.block b).values.Nodup
  phi_args : ∀ b, ∀ p ∈ (f.block b).values, (f.value p).op = .phi → (f.args p).length = (f.block b).preds.length
  plain : ∀ b, (f.block b).kind = .plain → (f.block b).control = none

/-- What is read, and where. A phi reads its operands at the ends of the predecessors. -/
inductive Reads (f : Func) (b : BlockId) : ValueId → Place → Prop
  | value {i : Nat} {v a : ValueId} : (f.block b).values[i]? = some v → (f.value v).op ≠ .phi →
    a ∈ f.args v → f.Reads b a ⟨b, some i⟩
  | phi {k : Nat} {p a : ValueId} {q : BlockId} : p ∈ (f.block b).values → (f.value p).op = .phi →
    (f.block b).preds[k]? = some q → (f.args p)[k]? = some a → f.Reads b a ⟨q, none⟩
  | branch {c : ValueId} : (f.block b).kind = .branch → (f.block b).control = some c → f.Reads b c ⟨b, none⟩
  | ret {c a : ValueId} : (f.block b).kind = .ret → (f.block b).control = some c → a ∈ f.args c →
    f.Reads b a ⟨b, none⟩

/-- The values that the block of a place computes before it. -/
def passed (f : Func) (place : Place) : List ValueId :=
  place.index.elim (f.block place.block).values (f.block place.block).values.take

/-- Every walk that comes to the place has computed the value before. -/
def ComputedAt (f : Func) (a : ValueId) (place : Place) : Prop :=
  ∀ rest, Trail f (place.block :: rest) → a ∈ f.passed place ∨ ∃ c ∈ rest, a ∈ (f.block c).values

theorem mem_placed : v ∈ f.placed ↔ ∃ b, v ∈ (f.block b).values := by
  rw [Func.placed, mem_flatMap]
  exact ⟨fun ⟨b, _, hv⟩ => ⟨b, hv⟩, fun ⟨b, hv⟩ => ⟨b, mem_range.mpr (lt_of_mem_values hv), hv⟩⟩

/-! Blocks and edges. -/

theorem guard_eq_ok {ε β : Type} {p : Prop} [Decidable p] {e : ε} {k : β → Except ε α} {m : Except ε α}
    {x : α} : (if p then throw e >>= k else m) = .ok x ↔ ¬p ∧ m = .ok x := by
  split
  · next hp =>
    refine ⟨fun h => ?_, fun h => absurd hp h.1⟩
    cases h
  · next hp => exact ⟨fun h => ⟨hp, h⟩, fun h => h.2⟩

theorem checkValues_eq_ok {vs : List ValueId} {leading : Bool} (h : f.checkValues b leading vs = .ok ()) :
    ∀ v ∈ vs, (f.value v).block = b ∧
      ((f.value v).op = .phi → (f.value v).span.count = (f.block b).preds.length) := by
  induction vs generalizing leading with
  | nil => exact forall_mem_nil _
  | cons v vs ih =>
    obtain ⟨hblock, h⟩ := guard_eq_ok.mp h
    rw [forall_mem_cons]
    split at h
    · obtain ⟨-, h⟩ := guard_eq_ok.mp h
      obtain ⟨hcount, h⟩ := guard_eq_ok.mp h
      exact ⟨⟨not_not.mp hblock, fun _ => not_not.mp hcount⟩, ih h⟩
    · next hop => exact ⟨⟨not_not.mp hblock, fun hphi => absurd hphi hop⟩, ih h⟩

theorem checkBlock_eq_ok (h : f.checkBlock b = .ok ()) :
    (f.block b).succs.length = successorsOf (f.block b).kind ∧ f.controlFits (f.block b) ∧
    (∀ s ∈ (f.block b).succs, b ∈ (f.block s).preds) ∧ (∀ p ∈ (f.block b).preds, b ∈ (f.block p).succs) ∧
    f.checkValues b true (f.block b).values = .ok () := by
  obtain ⟨-, h⟩ := guard_eq_ok.mp h
  obtain ⟨hkind, h⟩ := guard_eq_ok.mp h
  obtain ⟨hfits, h⟩ := guard_eq_ok.mp h
  dsimp only at h
  split at h
  · cases h
  · next hsuccs =>
    split at h
    · cases h
    · next hpreds =>
      replace hsuccs := find?_eq_none.mp (Option.eq_none_iff_forall_ne_some.mpr hsuccs)
      replace hpreds := find?_eq_none.mp (Option.eq_none_iff_forall_ne_some.mpr hpreds)
      refine ⟨not_not.mp hkind, by simpa using hfits, fun s hs => ?_, fun p hp => by simpa using hpreds p hp, h⟩
      have hcount : (f.block s).preds.count b = (f.block b).succs.count s := by
        simpa [edgeListed] using hsuccs s hs
      rw [← count_pos_iff, hcount]
      exact count_pos_iff.mpr hs

theorem Balanced.checkBlock (h : f.Balanced) (hkind : (f.block b).succs.length = successorsOf (f.block b).kind)
    (hfits : f.controlFits (f.block b)) (hvalues : f.checkValues b true (f.block b).values = .ok ()) :
    f.checkBlock b = .ok () := by
  have htwo : ¬2 < successorsOf (f.block b).kind := by cases (f.block b).kind <;> decide
  have hsuccs : ((f.block b).succs.find? fun s => !f.edgeListed b s) = none := by
    rw [find?_eq_none]
    intro s _
    rw [edgeListed, h.count, beq_self_eq_true]
    decide
  have hpreds : ((f.block b).preds.find? fun p => !(f.block p).succs.contains b) = none := by
    rw [find?_eq_none]
    intro p hp
    rw [contains_iff_mem.mpr ((h.linked.edge p b).mpr hp)]
    decide
  rw [Func.checkBlock]
  simp only [htwo, hkind, hfits, hsuccs, hpreds, hvalues, ne_eq, not_true_eq_false, if_false, Bool.not_true,
    Bool.false_eq_true, bind, Except.bind]

theorem checkCfg_eq_ok : f.checkCfg = .ok () ↔ ∀ b < f.blocks.size, f.checkBlock b = .ok () := by
  simp only [checkCfg, forM_eq_ok, blockIds, mem_range, except_mapError_eq_ok]

theorem WellPlaced.orderly (hf : f.WellPlaced) (h : f.checkCfg = .ok ()) : f.Orderly where
  linked := linked_iff.mpr ⟨fun b hb => (checkBlock_eq_ok (checkCfg_eq_ok.mp h b hb)).2.2.1,
    fun c hc => (checkBlock_eq_ok (checkCfg_eq_ok.mp h c hc)).2.2.2.1⟩
  placed b v hv := ⟨hf.lt v (mem_placed.mpr ⟨b, hv⟩), (checkValues_eq_ok
    (checkBlock_eq_ok (checkCfg_eq_ok.mp h b (lt_of_mem_values hv))).2.2.2.2 v hv).1⟩
  nodup b := by
    by_cases hb : b < f.blocks.size
    · exact (nodup_flatMap.mp hf.once).1 b (mem_range.mpr hb)
    · rw [block_eq_default f (not_lt.mp hb)]
      exact nodup_nil
  phi_args b p hp hop := by
    have hblock := checkBlock_eq_ok (checkCfg_eq_ok.mp h b (lt_of_mem_values hp))
    rw [← (checkValues_eq_ok hblock.2.2.2.2 p hp).2 hop]
    exact OperandPool.read_length _ _ (hf.pool p (hf.lt p (mem_placed.mpr ⟨b, hp⟩)))
  plain b hk := by
    by_cases hb : b < f.blocks.size
    · have hfits := (checkBlock_eq_ok (checkCfg_eq_ok.mp h b hb)).2.1
      cases hc : (f.block b).control with
      | none => rfl
      | some c =>
        rw [controlFits, hk, hc] at hfits
        cases hfits
    · rw [block_eq_default f (not_lt.mp hb)]
      rfl

theorem branchesOnBool_of_checkCfg (h : f.checkCfg = .ok ()) : f.BranchesOnBool := by
  intro b c hk hc
  by_cases hb : b < f.blocks.size
  · have hfits := (checkBlock_eq_ok (checkCfg_eq_ok.mp h b hb)).2.1
    rw [controlFits, hk, hc] at hfits
    exact beq_iff_eq.mp hfits
  · rw [block_eq_default f (not_lt.mp hb)] at hc
    cases hc

/-! Dominance. -/

theorem getD_foldl_of_not_mem (hl : ∀ e ∈ l, e.1 ≠ k) :
    (l.foldl (fun ps e => ps.setIfInBounds e.1 (some e.2)) ps).getD k none = ps.getD k none := by
  induction l generalizing ps with
  | nil => rfl
  | cons e l ih =>
    obtain ⟨he, hl⟩ := forall_mem_cons.mp hl
    rw [foldl_cons, ih hl, getD_setIfInBounds_ne he.symm]

theorem getD_foldl_setIfInBounds {x : α} (hl : ∀ e ∈ l, e.1 = k → e.2 = x) (hk : k < ps.size)
    (hx : ∃ e ∈ l, e.1 = k) :
    (l.foldl (fun ps e => ps.setIfInBounds e.1 (some e.2)) ps).getD k none = some x := by
  induction l generalizing ps with
  | nil => exact hx.elim fun e he => absurd he.1 not_mem_nil
  | cons e l ih =>
    obtain ⟨he, hl⟩ := forall_mem_cons.mp hl
    rw [foldl_cons]
    by_cases hlater : ∃ e ∈ l, e.1 = k
    · exact ih hl (by rwa [Array.size_setIfInBounds]) hlater
    · obtain ⟨e', he', hk'⟩ := hx
      obtain rfl : e' = e := (mem_cons.mp he').resolve_right fun hmem => hlater ⟨e', hmem, hk'⟩
      rw [getD_foldl_of_not_mem fun e he heq => hlater ⟨e, he, heq⟩, hk', getD_setIfInBounds hk, if_pos rfl, he hk']

section

variable (h : f.Orderly)

include h

theorem Orderly.positions_eq_some {i : Nat} :
    f.positions.getD v none = some (b, i) ↔ (f.block b).values[i]? = some v := by
  have hplaces : f.positions = (f.blockIds.flatMap fun b =>
      (f.block b).values.zipIdx.map fun e => (e.1, b, e.2)).foldl
        (fun ps e => ps.setIfInBounds e.1 (some e.2)) (Array.replicate f.values.size none) := by
    rw [Func.positions, foldl_flatMap]
    simp only [foldl_map]
  have hmem : ∀ w c j, (w, c, j) ∈ (f.blockIds.flatMap fun b =>
      (f.block b).values.zipIdx.map fun e => (e.1, b, e.2)) ↔ (f.block c).values[j]? = some w := by
    intro w c j
    simp only [mem_flatMap, blockIds, mem_range, mem_map, Prod.mk.injEq, Prod.exists, mem_zipIdx_iff_getElem?]
    constructor
    · rintro ⟨b, hb, v, i, hv, rfl, rfl, rfl⟩
      exact hv
    · exact fun hw => ⟨c, lt_of_mem_values (mem_of_getElem? hw), w, j, hw, rfl, rfl, rfl⟩
  have hsome : ∀ {c} {j : Nat}, (f.block c).values[j]? = some v → f.positions.getD v none = some (c, j) := by
    intro c j hv
    obtain ⟨hlt, hblock⟩ := h.placed c v (mem_of_getElem? hv)
    rw [hplaces]
    refine getD_foldl_setIfInBounds ?_ (by rwa [Array.size_replicate]) ⟨(v, c, j), (hmem v c j).mpr hv, rfl⟩
    rintro ⟨w, d, k⟩ he rfl
    have hw := (hmem w d k).mp he
    obtain rfl : d = c := by rw [← (h.placed d w (mem_of_getElem? hw)).2, hblock]
    obtain ⟨hk, hwk⟩ := List.getElem?_eq_some_iff.mp hw
    obtain ⟨hj, hwj⟩ := List.getElem?_eq_some_iff.mp hv
    rw [(List.Nodup.getElem_inj_iff (h.nodup d)).mp (hwk.trans hwj.symm)]
  refine ⟨fun hpos => ?_, hsome⟩
  by_cases hv : ∃ c, ∃ j : Nat, (f.block c).values[j]? = some v
  · obtain ⟨c, j, hv⟩ := hv
    obtain ⟨rfl, rfl⟩ := Prod.mk.inj (Option.some.inj ((hsome hv).symm.trans hpos))
    exact hv
  · rw [hplaces, getD_foldl_of_not_mem, getD_replicate] at hpos
    · cases hpos
    · rintro ⟨w, c, j⟩ he rfl
      exact hv ⟨c, j, (hmem w c j).mp he⟩

theorem Orderly.reads_iff : f.Reads b a place ↔ (a, place) ∈ f.blockReads b := by
  simp only [blockReads, mem_append, mem_flatMap, Prod.exists, mem_zipIdx_iff_getElem?]
  constructor
  · intro hread
    cases hread with
    | @value i v a hv hop ha =>
      refine .inl ⟨v, i, hv, ?_⟩
      rw [valueReads, if_neg hop]
      exact mem_map.mpr ⟨a, ha, rfl⟩
    | @phi k p a q hp hop hq ha =>
      obtain ⟨i, hi⟩ := mem_iff_getElem?.mp hp
      refine .inl ⟨p, i, hi, ?_⟩
      rw [valueReads, if_pos hop]
      refine mem_map.mpr ⟨(a, k), mem_zipIdx_iff_getElem?.mpr ha, ?_⟩
      dsimp only
      rw [getD_eq_getElem?_getD, hq, Option.getD_some]
    | branch hk hc =>
      rw [controlReads, hc, hk]
      exact .inr mem_cons_self
    | ret hk hc ha =>
      rw [controlReads, hc, hk]
      exact .inr (mem_map.mpr ⟨a, ha, rfl⟩)
  · rintro (⟨v, i, hv, hread⟩ | hread)
    · rw [valueReads] at hread
      split at hread
      · next hop =>
        obtain ⟨⟨a', k⟩, hak, heq⟩ := mem_map.mp hread
        obtain ⟨rfl, rfl⟩ := Prod.mk.inj heq
        have hmem := mem_of_getElem? hv
        have ha := mem_zipIdx_iff_getElem?.mp hak
        have hk : k < (f.block b).preds.length := by
          rw [← h.phi_args b v hmem hop]
          exact (List.getElem?_eq_some_iff.mp ha).1
        have hq := getElem?_eq_getElem hk
        rw [getD_eq_getElem?_getD, hq]
        exact .phi hmem hop hq ha
      · next hop =>
        obtain ⟨a', ha, heq⟩ := mem_map.mp hread
        obtain ⟨rfl, rfl⟩ := Prod.mk.inj heq
        exact .value hv hop ha
    · rw [controlReads] at hread
      split at hread
      · cases hread
      · next c hc =>
        obtain ⟨a', ha, heq⟩ := mem_map.mp hread
        obtain ⟨rfl, rfl⟩ := Prod.mk.inj heq
        cases hk : (f.block b).kind with
        | plain => cases (h.plain b hk).symm.trans hc
        | branch =>
          rw [hk] at ha
          exact mem_singleton.mp ha ▸ .branch hk hc
        | ret =>
          rw [hk] at ha
          exact .ret hk hc ha

end

theorem Linked.checkDominance_eq_ok (h : f.Linked) : f.checkDominance (compute f) = .ok () ↔
    ∀ b a place, f.Reachable b → (a, place) ∈ f.blockReads b →
      (f.positions.getD a none).any (availableAt (compute f) · place) := by
  have hmem : ∀ e, e ∈ (compute f).order.flatMap f.blockReads ↔ ∃ b, f.Reachable b ∧ e ∈ f.blockReads b := by
    intro e
    simp only [mem_flatMap, (solved_compute h).stage.order, mem_reversePostorder_iff]
  rw [Func.checkDominance]
  dsimp only
  split
  · next a place hsome =>
    refine iff_of_false (fun heq => by cases heq) fun hall => ?_
    obtain ⟨b, hb, hread⟩ := (hmem _).mp (mem_of_find?_eq_some hsome)
    have hbad := find?_some hsome
    rw [hall b a place hb hread] at hbad
    cases hbad
  · next hnone =>
    refine iff_of_true rfl fun b a place hb hread => ?_
    have hgood := find?_eq_none.mp hnone (a, place) ((hmem _).mpr ⟨b, hb, hread⟩)
    simpa using hgood

theorem mem_passed (t : DomTree) : a ∈ f.passed place ↔
    ∃ i : Nat, (f.block place.block).values[i]? = some a ∧ availableAt t (place.block, i) place := by
  obtain ⟨b, index⟩ := place
  simp only [passed, availableAt, if_true]
  cases index with
  | none => simp [mem_iff_getElem?]
  | some n =>
    rw [Option.elim_some, mem_iff_getElem?]
    simp only [getElem?_take, decide_eq_true_eq]
    refine exists_congr fun i => ?_
    split
    · next hlt => exact ⟨fun hi => ⟨hi, hlt⟩, fun hi => hi.1⟩
    · next hge =>
      refine ⟨fun hi => ?_, fun hi => absurd hi.2 hge⟩
      cases hi

section

variable (h : f.Orderly)

include h

/-- What is available at a place is what every walk to it has computed: a value is computed in one block only,
and the walk that comes to its block for the first time shows that the value stands before the place. -/
theorem Orderly.computedAt_iff (hb : f.Reachable place.block) : f.ComputedAt a place ↔
    (f.positions.getD a none).any (availableAt (compute f) · place) := by
  simp only [Option.any_eq_true, Prod.exists, h.positions_eq_some]
  constructor
  · intro hall
    by_cases hpassed : a ∈ f.passed place
    · exact ⟨_, (mem_passed _).mp hpassed⟩
    · obtain ⟨rest, htrail, hfirst⟩ := exists_first_trail hb
      obtain ⟨c, hc, ha⟩ := (hall rest htrail).resolve_left hpassed
      obtain ⟨i, hi⟩ := mem_iff_getElem?.mp ha
      refine ⟨c, i, hi, ?_⟩
      have hne : c ≠ place.block := fun heq => hfirst (heq ▸ hc)
      rw [availableAt, if_neg hne, dominates_compute_iff h.linked]
      refine ⟨htrail.reachable c (mem_cons_of_mem _ hc), hb, fun rest' htrail' => ?_⟩
      obtain ⟨d, hd, ha'⟩ := (hall rest' htrail').resolve_left hpassed
      rw [← (h.placed c a ha).2, (h.placed d a ha').2]
      exact mem_cons_of_mem _ hd
  · rintro ⟨c, i, hi, hav⟩ rest htrail
    by_cases hc : c = place.block
    · rw [hc] at hi hav
      exact .inl ((mem_passed _).mpr ⟨i, hi, hav⟩)
    · rw [availableAt, if_neg hc, dominates_compute_iff h.linked] at hav
      exact .inr ⟨c, (mem_cons.mp (hav.2.2 rest htrail)).resolve_left hc, mem_of_getElem? hi⟩

theorem Orderly.lt_of_reads (hread : f.Reads b a place) : b < f.blocks.size ∧ place.block < f.blocks.size := by
  cases hread with
  | value hv =>
    have hb := lt_of_mem_values (mem_of_getElem? hv)
    exact ⟨hb, hb⟩
  | phi hp _ hq => exact ⟨lt_of_mem_values hp, lt_of_mem_succs ((h.linked.edge _ b).mpr (mem_of_getElem? hq))⟩
  | branch _ hc => exact ⟨lt_of_control hc, lt_of_control hc⟩
  | ret _ hc => exact ⟨lt_of_control hc, lt_of_control hc⟩

theorem Orderly.checkDominance_eq_ok : f.checkDominance (compute f) = .ok () ↔
    ∀ b a place, f.Reachable b → f.Reads b a place →
      (f.positions.getD a none).any (availableAt (compute f) · place) := by
  simp only [h.linked.checkDominance_eq_ok, h.reads_iff]

theorem Orderly.computedAt_of_reads (hcheck : f.checkDominance (compute f) = .ok ())
    (hb : f.Reachable b) (hread : f.Reads b a place) : f.ComputedAt a place := fun rest htrail =>
  (h.computedAt_iff (htrail.reachable _ mem_cons_self)).mpr
    (h.checkDominance_eq_ok.mp hcheck b a place hb hread) rest htrail

theorem Orderly.checkDominance_iff (hreach : ∀ b < f.blocks.size, f.Reachable b) :
    f.checkDominance (compute f) = .ok () ↔ ∀ b a place, f.Reads b a place → f.ComputedAt a place := by
  refine ⟨fun hcheck b a place hread => h.computedAt_of_reads hcheck (hreach b (h.lt_of_reads hread).1) hread,
    fun hall => h.checkDominance_eq_ok.mpr fun b a place _ hread => ?_⟩
  exact (h.computedAt_iff (hreach _ (h.lt_of_reads hread).2)).mp (hall b a place hread)

end

/-! Functions in SSA form pass the checks. -/

theorem checkValues_rest {rest : List ValueId} (hblock : ∀ v ∈ rest, (f.value v).block = b)
    (hop : ∀ v ∈ rest, (f.value v).op ≠ .phi) (leading : Bool) : f.checkValues b leading rest = .ok () := by
  induction rest generalizing leading with
  | nil => rfl
  | cons v rest ih =>
    rw [checkValues]
    simp only [hblock v mem_cons_self, hop v mem_cons_self, ne_eq, not_true_eq_false, if_false, bind, Except.bind]
    exact ih (fun w hw => hblock w (mem_cons_of_mem v hw)) (fun w hw => hop w (mem_cons_of_mem v hw)) _

theorem SsaForm.checkValues (h : f.SsaForm) (b : BlockId) : f.checkValues b true (f.block b).values = .ok () := by
  obtain ⟨ps, rest, hsplit, hps, hrest⟩ := h.phis_first b
  have hblock : ∀ v ∈ ps ++ rest, (f.value v).block = b := fun v hv => (h.placed b v (hsplit ▸ hv)).2
  have hcount : ∀ v ∈ ps, (f.value v).span.count = (f.block b).preds.length := by
    intro v hv
    have hmem : v ∈ (f.block b).values := by
      rw [hsplit]
      exact mem_append_left _ hv
    rw [← (h.phi_args b v hmem (hps v hv)).1, h.spans.args_length (h.placed b v hmem).1]
  rw [hsplit]
  clear hsplit
  induction ps with
  | nil => exact checkValues_rest hblock hrest true
  | cons v ps ih =>
    rw [cons_append, Func.checkValues]
    simp only [hblock v mem_cons_self, hps v mem_cons_self, hcount v mem_cons_self,
      ne_eq, not_true_eq_false, if_false, if_true, bind, Except.bind]
    exact ih (fun w hw => hps w (mem_cons_of_mem v hw))
      (fun w hw => hblock w (mem_cons_of_mem v hw)) fun w hw => hcount w (mem_cons_of_mem v hw)

theorem SsaForm.controlFits (h : f.SsaForm) (hbool : f.BranchesOnBool) (hb : b < f.blocks.size) :
    f.controlFits (f.block b) := by
  rw [Func.controlFits]
  cases hk : (f.block b).kind with
  | plain => rw [h.plain b hk]
  | branch =>
    obtain ⟨c, hc, -⟩ := h.branch b hb hk
    rw [hc]
    exact beq_iff_eq.mpr (hbool b c hk hc)
  | ret =>
    obtain ⟨c, hc, -, hop, -⟩ := h.ret b hb hk
    rw [hc]
    exact beq_iff_eq.mpr hop

theorem SsaForm.checkCfg (h : f.SsaForm) (hbool : f.BranchesOnBool) : f.checkCfg = .ok () :=
  checkCfg_eq_ok.mpr fun b hb =>
    h.flow.balanced.checkBlock (h.flow.kind b hb) (h.controlFits hbool hb) (h.checkValues b)

theorem SsaForm.orderly (h : f.SsaForm) : f.Orderly where
  linked := h.flow.linked
  placed := h.placed
  nodup := h.nodup
  phi_args b p hp hop := (h.phi_args b p hp hop).1
  plain := h.plain

theorem AtEnd.computedAt {a : ValueId} (h : f.AtEnd a b) : f.ComputedAt a ⟨b, none⟩ := by
  obtain ⟨c, hc, hdom⟩ := h
  intro rest htrail
  rcases mem_cons.mp (hdom rest htrail) with rfl | hmem
  · exact .inl hc
  · exact .inr ⟨c, hmem, hc⟩

theorem SsaForm.checkDominance (h : f.SsaForm) : f.checkDominance (DomTree.compute f) = .ok () := by
  refine (h.orderly.checkDominance_iff h.flow.reachable).mpr fun b a place hread => ?_
  have hb := (h.orderly.lt_of_reads hread).1
  cases hread with
  | @value i v a hv hop ha =>
    obtain ⟨hi, rfl⟩ := List.getElem?_eq_some_iff.mp hv
    have hbefore : f.Before a b ((f.block b).values.take i) := by
      refine h.reads b _ _ ((f.block b).values.drop (i + 1)) ?_ hop a ha
      rw [getElem_cons_drop, take_append_drop]
    intro rest htrail
    refine hbefore.imp_right fun ⟨c, hne, hc, hdom⟩ => ?_
    exact ⟨c, (mem_cons.mp (hdom rest htrail)).resolve_left hne, hc⟩
  | phi hp hop hq ha => exact (h.phi_reads b _ hp hop _ _ a hq ha).computedAt
  | branch hk hc =>
    obtain ⟨c', hc', hend⟩ := h.branch b hb hk
    exact Option.some.inj (hc'.symm.trans hc) ▸ hend.computedAt
  | ret hk hc ha =>
    obtain ⟨c', hc', -, -, -, -, hargs⟩ := h.ret b hb hk
    rw [← Option.some.inj (hc'.symm.trans hc)] at ha
    exact (hargs a ha).computedAt

theorem SsaForm.verify (h : f.SsaForm) (hbool : f.BranchesOnBool) : f.recountUses.verify = .ok () := by
  rw [Func.verify, h.recountUses.checkCfg ((sameCode_recountUses f).branchesOnBool hbool), h.recountUses.checkDominance,
    checkUseCounts_recountUses]
  rfl

end

open BlockEffect

variable {f : Func} {b p s : BlockId} {v : ValueId}

theorem BranchesOnBool.hasResult (h : f.BranchesOnBool) (b : BlockId) (c : ValueId)
    (hk : (f.block b).kind = .branch) (hc : (f.block b).control = some c) : (f.value c).hasResult := by
  rw [Value.hasResult, h b c hk hc]
  rfl

theorem mem_args_of_mem_dataUses {x : ValueId} (h : v ∈ f.dataUses x) : v ∈ f.args x :=
  (dataArgs_front f x).subset (mem_filter.mp h).1

theorem reads_of_exposes (h : f.Exposes b v) :
    ∃ place : Place, place.block = b ∧ v ∉ f.passed place ∧ f.Reads b v place := by
  rcases h with ⟨pre, x, post, hvals, hnot, hphi, hv⟩ | ⟨hnot, hv⟩
  · have hop : (f.value x).op ≠ .phi := fun hop => by simp [isPhi, hop] at hphi
    refine ⟨⟨b, some pre.length⟩, rfl, ?_, .value ?_ hop (mem_args_of_mem_dataUses hv)⟩
    · rw [passed, Option.elim_some, hvals, take_left]
      exact hnot
    · rw [hvals, getElem?_append_right le_rfl, Nat.sub_self, getElem?_cons_zero]
  · refine ⟨⟨b, none⟩, rfl, hnot, ?_⟩
    rw [controlUses] at hv
    split at hv
    · next c hk hc => exact mem_singleton.mp hv ▸ .branch hk hc
    · next c hk hc => exact .ret hk hc (mem_args_of_mem_dataUses hv)
    · cases hv

section

variable (h : f.Orderly)

include h

theorem Orderly.reads_of_feeds (hfeeds : f.Feeds p s v) : f.Reads s v ⟨p, none⟩ := by
  obtain ⟨i, hi, -, phi, hphi, -, harg, -⟩ := hfeeds
  obtain ⟨hmem, hop⟩ := mem_filter.mp hphi
  replace hmem := (takeWhile_sublist _).subset hmem
  replace hop : (f.value phi).op = .phi := beq_iff_eq.mp hop
  refine .phi hmem hop hi ?_
  have hlt : i < (f.args phi).length := by
    rw [h.phi_args s phi hmem hop]
    exact (List.getElem?_eq_some_iff.mp hi).1
  rw [arg, getD_eq_getElem?_getD, getElem?_eq_getElem hlt, Option.getD_some] at harg
  rw [getElem?_eq_getElem hlt, harg]

section

variable (hbool : f.BranchesOnBool) (hcheck : f.checkDominance (DomTree.compute f) = .ok ())

include hbool hcheck

theorem Orderly.computed_of_mem_liveIn (hv : v ∈ (Liveness.compute f).liveIn b) :
    ∀ rest, Trail f (b :: rest) → ∃ c ∈ rest, v ∈ (f.block c).values := by
  refine (Liveness.of_mem_liveIn_compute (P := fun b v => (f.value v).hasResult ∧
    ∀ rest, Trail f (b :: rest) → ∃ c ∈ rest, v ∈ (f.block c).values) ?_ ?_ ?_ b v hv).2
  · intro b v hv
    have hexposes := (mem_exposed hbool.hasResult).mp hv
    refine ⟨hasResult_of_exposes hbool.hasResult hexposes, fun rest htrail => ?_⟩
    obtain ⟨place, rfl, hnot, hread⟩ := reads_of_exposes hexposes
    have hreach := htrail.reachable _ mem_cons_self
    exact (h.computedAt_of_reads hcheck hreach hread rest htrail).resolve_left hnot
  · intro b v hv hnot
    obtain ⟨s, hfeeds⟩ := feeds_of_mem_handed hv
    have hres : (f.value v).hasResult := by
      obtain ⟨i, -, -, phi, -, -, -, hres⟩ := hfeeds
      exact hres
    refine ⟨hres, fun rest htrail => ?_⟩
    have hreach := (htrail.reachable b mem_cons_self).tail hfeeds.mem_succs
    refine (h.computedAt_of_reads hcheck hreach (h.reads_of_feeds hfeeds) rest htrail).resolve_left fun hmem => ?_
    exact hnot (mem_defined.mpr ⟨hmem, hres⟩)
  · intro b s v hs ⟨hres, hcomputed⟩ hnot
    refine ⟨hres, fun rest htrail => ?_⟩
    obtain ⟨c, hc, hmem⟩ := hcomputed _ (.step htrail hs)
    rcases mem_cons.mp hc with rfl | hc
    · exact absurd (mem_defined.mpr ⟨hmem, hres⟩) hnot
    · exact ⟨c, hc, hmem⟩

theorem Orderly.not_mem_liveIn_entry : v ∉ (Liveness.compute f).liveIn f.entry := by
  intro hv
  obtain ⟨c, hc, -⟩ := h.computed_of_mem_liveIn hbool hcheck hv [] .start
  cases hc

end

end

/-- If edges and blocks are in order and all blocks can be reached, then the check of dominance passes exactly
the functions in which every walk computes a value before it comes to a place that reads it. Then nothing is
live at the entry. -/
theorem checkDominance_is_exact (hf : f.WellPlaced) (hcfg : f.checkCfg = .ok ())
    (hreach : ∀ b < f.blocks.size, f.Reachable b) :
    (f.checkDominance (DomTree.compute f) = .ok () ↔ ∀ b a place, f.Reads b a place → f.ComputedAt a place) ∧
    (f.checkDominance (DomTree.compute f) = .ok () → ∀ v, v ∉ (Liveness.compute f).liveIn f.entry) :=
  ⟨(hf.orderly hcfg).checkDominance_iff hreach,
    fun hcheck _ => (hf.orderly hcfg).not_mem_liveIn_entry (branchesOnBool_of_checkCfg hcfg) hcheck⟩

open Liveness in
theorem checkDominance_takeAway : takeAway.WellPlaced ∧ takeAway.checkCfg = .ok () ∧
    (∀ b < takeAway.blocks.size, takeAway.Reachable b) ∧
    (∀ b a place, takeAway.Reads b a place → takeAway.ComputedAt a place) ∧
    ∀ v, v ∉ (compute takeAway).liveIn takeAway.entry := by
  have hf : takeAway.WellPlaced := ⟨by decide, by decide, by decide⟩
  have hcfg : takeAway.checkCfg = .ok () := rfl
  have hreach : ∀ b < takeAway.blocks.size, takeAway.Reachable b := fun b hb =>
    mem_reversePostorder_iff.mp ((by decide : ∀ b < takeAway.blocks.size, b ∈ takeAway.reversePostorder) b hb)
  have hcheck : takeAway.checkDominance (DomTree.compute takeAway) = .ok () := rfl
  obtain ⟨hexact, hlive⟩ := checkDominance_is_exact hf hcfg hreach
  exact ⟨hf, hcfg, hreach, hexact.mp hcheck, hlive hcheck⟩

end SsaCodegen.Func
