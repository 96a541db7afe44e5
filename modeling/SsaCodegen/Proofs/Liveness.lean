import Mathlib.Data.Finset.Card
import Mathlib.Data.Finset.Prod
import Mathlib.Data.Fintype.Card
import SsaCodegen.Proofs.Order
import SsaCodegen.Proofs.ValueSets
import SsaCodegen.Ssa.Liveness

/-! Live values. A value is needed at the start of a block if a path from there reads it before it is defined. -/

namespace SsaCodegen

open List ValueSet BlockEffect

namespace Func

variable {f : Func} {b c p s : BlockId} {u v : ValueId}

/-- One of the values reads `v`, and none before it defines `v`. Operands of phis do not count. -/
def ReadsFirst (f : Func) (vs : List ValueId) (v : ValueId) : Prop :=
  ∃ pre x post, vs = pre ++ x :: post ∧ v ∉ pre ∧ f.isPhi x = false ∧ v ∈ f.dataUses x

def Exposes (f : Func) (b : BlockId) (v : ValueId) : Prop :=
  f.ReadsFirst (f.block b).values v ∨ v ∉ (f.block b).values ∧ v ∈ f.controlUses b

/-- An edge from `p` to `s` hands `v` to a phi that needs a location. Parallel edges come in the same
order in the lists of both their ends, which tells the operand that belongs to an edge. -/
def Feeds (f : Func) (p s : BlockId) (v : ValueId) : Prop :=
  ∃ i, (f.block s).preds[i]? = some p ∧ ((f.block s).preds.take i).count p < (f.block p).succs.count s ∧
    ∃ phi ∈ f.phis s, (f.value phi).hasResult ∧ f.arg phi i = v ∧ (f.value v).hasResult = true

def Needed (f : Func) (v : ValueId) (b : BlockId) : Prop :=
  ∃ c, Relation.ReflTransGen (fun x y => v ∉ (f.block x).values ∧ y ∈ (f.block x).succs) b c ∧
    (f.Exposes c v ∨ v ∉ (f.block c).values ∧ ∃ s, f.Feeds c s v)

/-- No block has the same successor twice, and every branch has a condition that needs a location. -/
structure Regular (f : Func) : Prop where
  succs : ∀ b, (f.block b).succs.Nodup
  condition : ∀ b c, (f.block b).kind = .branch → (f.block b).control = some c → (f.value c).hasResult = true

theorem regular_iff : f.Regular ↔ ∀ b < f.blocks.size, (f.block b).succs.Nodup ∧
    ((f.block b).kind = .branch → ∀ c ∈ (f.block b).control, (f.value c).hasResult) := by
  constructor
  · exact fun h b _ => ⟨h.succs b, fun hkind c hc => h.condition b c hkind hc⟩
  · intro h
    constructor
    · intro b
      by_cases hlt : b < f.blocks.size
      · exact (h b hlt).1
      · rw [block_eq_default f (not_lt.mp hlt)]
        exact nodup_nil
    · intro b c hkind hc
      by_cases hlt : b < f.blocks.size
      · exact (h b hlt).2 hkind c hc
      · rw [block_eq_default f (not_lt.mp hlt)] at hc
        cases hc

instance (f : Func) : Decidable f.Regular := decidable_of_iff _ regular_iff.symm

theorem needed_iff : f.Needed v b ↔ f.Exposes b v ∨
    v ∉ (f.block b).values ∧ ((∃ s, f.Feeds b s v) ∨ ∃ s ∈ (f.block b).succs, f.Needed v s) := by
  constructor
  · intro h
    obtain ⟨c, hpath, hend⟩ := h
    rcases Relation.ReflTransGen.cases_head hpath with heq | ⟨s, ⟨hnot, hs⟩, hrest⟩
    · rw [heq]
      exact hend.imp id fun h => ⟨h.1, .inl h.2⟩
    · exact .inr ⟨hnot, .inr ⟨s, hs, c, hrest, hend⟩⟩
  · intro h
    rcases h with h | ⟨hnot, hfeeds | ⟨s, hs, c, hpath, hend⟩⟩
    · exact ⟨b, .refl, .inl h⟩
    · exact ⟨b, .refl, .inr ⟨hnot, hfeeds⟩⟩
    · exact ⟨c, .head ⟨hnot, hs⟩ hpath, hend⟩

theorem Feeds.mem_succs (h : f.Feeds p s v) : s ∈ (f.block p).succs := by
  obtain ⟨i, -, hcount, -⟩ := h
  exact count_pos_iff.mp ((Nat.zero_le _).trans_lt hcount)

theorem hasResult_of_mem_dataUses {x : ValueId} (h : v ∈ f.dataUses x) : (f.value v).hasResult :=
  (mem_filter.mp h).2

theorem lt_of_hasResult (h : (f.value v).hasResult) : v < f.values.size := by
  by_contra hge
  rw [value_eq_default f (not_lt.mp hge)] at h
  exact absurd h (by decide)

section

variable (hc : ∀ b c, (f.block b).kind = .branch → (f.block b).control = some c → (f.value c).hasResult)

include hc

theorem hasResult_of_mem_controlUses (h : v ∈ f.controlUses b) : (f.value v).hasResult := by
  rw [controlUses] at h
  split at h
  · next c hkind hcontrol =>
    rw [mem_singleton.mp h]
    exact hc b c hkind hcontrol
  · exact hasResult_of_mem_dataUses h
  · cases h

theorem hasResult_of_exposes (h : f.Exposes b v) : (f.value v).hasResult := by
  rcases h with ⟨pre, x, post, -, -, -, hx⟩ | ⟨-, h⟩
  · exact hasResult_of_mem_dataUses hx
  · exact hasResult_of_mem_controlUses hc h

end

theorem Regular.hasResult_of_needed (hf : f.Regular) (h : f.Needed v b) : (f.value v).hasResult := by
  obtain ⟨c, -, h | ⟨-, s, i, -, -, phi, -, -, -, hv⟩⟩ := h
  · exact hasResult_of_exposes hf.condition h
  · exact hv

theorem feeds_of_mem_edgeUses (hs : s ∈ (f.block p).succs) (h : v ∈ f.edgeUses p s) : f.Feeds p s v := by
  rw [edgeUses] at h
  split at h
  · cases h
  · next i hi =>
    obtain ⟨hmap, hv⟩ := mem_filter.mp h
    obtain ⟨phi, hphi, harg⟩ := mem_map.mp hmap
    obtain ⟨hmem, hresult⟩ := mem_filter.mp hphi
    rw [predIndex?, List.idxOf?_eq_some_iff] at hi
    obtain ⟨hlt, hget, hbefore⟩ := hi
    have hzero : ((f.block s).preds.take i).count p = 0 := by
      refine count_eq_zero.mpr fun hmem => ?_
      obtain ⟨j, hj, heq⟩ := mem_take_iff_getElem.mp hmem
      exact hbefore j (by omega) heq
    refine ⟨i, List.getElem?_eq_some_iff.mpr ⟨hlt, hget⟩, ?_, phi, hmem, hresult, harg, hv⟩
    rw [hzero]
    exact count_pos_iff.mpr hs

/-- Since no successor is listed twice, the edge belongs to the first place of the predecessor. -/
theorem Regular.mem_edgeUses (hf : f.Regular) (h : f.Feeds p s v) : v ∈ f.edgeUses p s := by
  have hs := h.mem_succs
  obtain ⟨i, hi, hfirst, phi, hphi, hresult, harg, hv⟩ := h
  rw [count_eq_one_of_mem (hf.succs p) hs, Nat.lt_one_iff, count_eq_zero] at hfirst
  obtain ⟨hlt, hget⟩ := List.getElem?_eq_some_iff.mp hi
  have hindex : f.predIndex? s p = some i := by
    rw [predIndex?, List.idxOf?_eq_some_iff]
    exact ⟨hlt, hget, fun j hj heq => hfirst (mem_take_iff_getElem.mpr ⟨j, by omega, heq⟩)⟩
  rw [edgeUses, hindex]
  exact mem_filter.mpr ⟨mem_map.mpr ⟨phi, mem_filter.mpr ⟨hphi, hresult⟩, harg⟩, hv⟩

end Func

namespace BlockEffect

variable {needed : ValueSet}

open Func

variable {f : Func} {b : BlockId} {u v : ValueId}

theorem mem_before : u ∈ before f v needed ↔ f.isPhi v = false ∧ u ∈ f.dataUses v ∨
      u ∈ needed ∧ ((f.value v).hasResult → u ≠ v) := by
  have herase : u ∈ (if (f.value v).hasResult = true then needed.erase v else needed) ↔
      u ∈ needed ∧ ((f.value v).hasResult → u ≠ v) := by
    split
    · next h => rw [mem_erase, forall_prop_of_true h]
    · next h => simp [h]
  rw [before]
  split
  · next h => simp [herase, h]
  · next h => simp [mem_insertAll, herase, h]

theorem mem_foldr_before (hu : (f.value u).hasResult) :
    ∀ {vs : List ValueId}, u ∈ vs.foldr (before f) needed ↔ f.ReadsFirst vs u ∨ u ∉ vs ∧ u ∈ needed := by
  intro vs
  induction vs with
  | nil => simp [ReadsFirst]
  | cons v vs ih =>
    rw [foldr_cons, mem_before, ih]
    constructor
    · rintro (⟨hphi, huse⟩ | ⟨h, hne⟩)
      · exact .inl ⟨[], v, vs, rfl, not_mem_nil, hphi, huse⟩
      · have hne : u ≠ v := fun heq => hne (heq ▸ hu) heq
        rcases h with ⟨pre, x, post, hsplit, hpre, hx⟩ | ⟨hnot, hneeded⟩
        · refine .inl ⟨v :: pre, x, post, by rw [hsplit]; rfl, ?_, hx⟩
          exact fun hmem => (mem_cons.mp hmem).elim hne hpre
        · exact .inr ⟨fun hmem => (mem_cons.mp hmem).elim hne hnot, hneeded⟩
    · rintro (⟨pre, x, post, hsplit, hpre, hphi, huse⟩ | ⟨hnot, hneeded⟩)
      · cases pre with
        | nil =>
          obtain ⟨rfl, -⟩ := List.cons.inj hsplit
          exact .inl ⟨hphi, huse⟩
        | cons w pre =>
          obtain ⟨rfl, hrest⟩ := List.cons.inj hsplit
          refine .inr ⟨.inl ⟨pre, x, post, hrest, ?_, hphi, huse⟩, fun _ heq => ?_⟩
          · exact fun hmem => hpre (mem_cons_of_mem v hmem)
          · exact hpre (heq ▸ mem_cons_self)
      · refine .inr ⟨.inr ⟨fun hmem => hnot (mem_cons_of_mem v hmem), hneeded⟩, fun _ heq => ?_⟩
        exact hnot (heq ▸ mem_cons_self)

theorem hasResult_of_mem_foldr_before :
    ∀ {vs : List ValueId}, u ∈ vs.foldr (before f) needed → (f.value u).hasResult ∨ u ∈ needed := by
  intro vs
  induction vs with
  | nil => exact .inr
  | cons v vs ih =>
    intro h
    rw [foldr_cons, mem_before] at h
    rcases h with ⟨-, huse⟩ | ⟨h, -⟩
    · exact .inl (hasResult_of_mem_dataUses huse)
    · exact ih h

theorem mem_defined : v ∈ (of f b).defined ↔ v ∈ (f.block b).values ∧ (f.value v).hasResult := by
  rw [of, mem_insertAll, mem_filter]
  exact or_iff_left not_mem_withCapacity

theorem mem_exposed (hc : ∀ b c, (f.block b).kind = .branch → (f.block b).control = some c →
    (f.value c).hasResult) : v ∈ (of f b).exposed ↔ f.Exposes b v := by
  have hcontrol : v ∈ (withCapacity f.values.size).insertAll (f.controlUses b) ↔ v ∈ f.controlUses b := by
    rw [mem_insertAll]
    exact or_iff_left not_mem_withCapacity
  constructor
  · intro h
    have hv : (f.value v).hasResult := by
      rcases hasResult_of_mem_foldr_before h with hv | hv
      · exact hv
      · exact hasResult_of_mem_controlUses hc (hcontrol.mp hv)
    exact ((mem_foldr_before hv).mp h).imp id (And.imp_right hcontrol.mp)
  · intro h
    refine (mem_foldr_before (hasResult_of_exposes hc h)).mpr ?_
    exact h.imp id (And.imp_right hcontrol.mpr)

theorem feeds_of_mem_handed (h : v ∈ (of f b).handed) : ∃ s, f.Feeds b s v := by
  rw [of, mem_insertAll, or_iff_left not_mem_withCapacity, mem_flatMap] at h
  obtain ⟨s, hs, huse⟩ := h
  exact ⟨s, feeds_of_mem_edgeUses hs huse⟩

theorem mem_handed (hf : f.Regular) : v ∈ (of f b).handed ↔ ∃ s, f.Feeds b s v := by
  refine ⟨feeds_of_mem_handed, fun ⟨s, hfeeds⟩ => ?_⟩
  rw [of, mem_insertAll, or_iff_left not_mem_withCapacity, mem_flatMap]
  exact ⟨s, hfeeds.mem_succs, hf.mem_edgeUses hfeeds⟩

end BlockEffect

namespace Liveness

variable {e : BlockEffect}

open Func

/-- The set at one end of a block. -/
def live (l : Liveness) (start : Bool) (b : BlockId) : ValueSet := bif start then l.liveIn b else l.liveOut b

/-- All sets of `l` are subsets of those of `m`. -/
def Within (l m : Liveness) : Prop := ∀ start b v, v ∈ l.live start b → v ∈ m.live start b

def Keeps (f : Func) (l : Liveness) (b : BlockId) (v : ValueId) : Prop :=
  (∃ s, f.Feeds b s v) ∨ ∃ s ∈ (f.block b).succs, v ∈ l.liveIn s

/-- What follows a block, or the block itself, calls for a value at one of its ends. -/
def Calls (f : Func) (l : Liveness) (start : Bool) (b : BlockId) (v : ValueId) : Prop :=
  bif start then f.Exposes b v ∨ v ∉ (f.block b).values ∧ l.Keeps f b v else l.Keeps f b v

/-- Live sets on the way to the final ones: all that is in them is needed, and what was put into a set
is still called for. -/
structure Stage (f : Func) (l : Liveness) : Prop where
  effects : l.effects = f.postorder.map (of f)
  ins : l.liveIns.size = f.blocks.size
  outs : l.liveOuts.size = f.blocks.size
  needed : ∀ b v, v ∈ l.liveIn b → f.Needed v b
  called : ∀ start b v, v ∈ l.live start b → l.Calls f start b v

/-- The sets of a block are what is called for. -/
def Fixed (f : Func) (l : Liveness) (b : BlockId) : Prop := ∀ start v, v ∈ l.live start b ↔ l.Calls f start b v

variable {f : Func} {l m : Liveness} {start : Bool} {b c : BlockId} {v : ValueId}

theorem Keeps.mono (h : l.Keeps f b v) (hlm : l.Within m) : m.Keeps f b v :=
  h.imp id fun ⟨s, hs, hv⟩ => ⟨s, hs, hlm true s v hv⟩

theorem Calls.mono (h : l.Calls f start b v) (hlm : l.Within m) : m.Calls f start b v := by
  cases start with
  | true => exact h.imp id (And.imp_right (Keeps.mono · hlm))
  | false => exact Keeps.mono h hlm

theorem Fixed.congr (h : Fixed f l b) (hlm : l.Within m) (hml : m.Within l) : Fixed f m b := by
  intro start v
  constructor
  · exact fun hv => ((h start v).mp (hml start b v hv)).mono hlm
  · exact fun hv => hlm start b v ((h start v).mpr (hv.mono hml))

theorem liveIn_update (hb : b < l.liveIns.size) : (update f l (of f b)).liveIn b =
    (((f.block b).succs.foldl (fun s c => s.union (l.liveIn c)) (of f b).handed).diff
      (of f b).defined).union (of f b).exposed :=
  (getD_setIfInBounds hb).trans (if_pos rfl)

theorem live_update_of_ne (h : c ≠ e.block) : (update f l e).live start c = l.live start c := by
  cases start with
  | true => exact getD_setIfInBounds_ne h
  | false => exact getD_setIfInBounds_ne h

theorem not_mem_getD {sets : Array ValueSet} (h : sets.size ≤ b) : v ∉ sets.getD b ∅ := by
  rw [getD_of_size_le h]
  exact not_mem_empty

theorem Keeps.block_lt (h : l.Keeps f b v) : b < f.blocks.size := by
  rcases h with ⟨s, hfeeds⟩ | ⟨s, hs, -⟩
  · exact lt_of_mem_succs hfeeds.mem_succs
  · exact lt_of_mem_succs hs

theorem Calls.block_lt (h : l.Calls f start b v) : b < f.blocks.size := by
  cases start with
  | true =>
    rcases h with h | ⟨-, h⟩
    · by_contra hge
      rw [Exposes, controlUses, block_eq_default f (not_lt.mp hge)] at h
      rcases h with ⟨pre, x, post, hsplit, -⟩ | ⟨-, hmem⟩
      · exact absurd hsplit (by simp [default])
      · cases hmem
    · exact h.block_lt
  | false => exact Keeps.block_lt h

section

variable (hf : f.Regular)

include hf

theorem Stage.hasResult (hl : Stage f l) (h : l.Calls f start b v) : (f.value v).hasResult := by
  have hkeeps : l.Keeps f b v → (f.value v).hasResult := by
    rintro (⟨s, i, -, -, phi, -, -, -, hv⟩ | ⟨s, -, hv⟩)
    · exact hv
    · exact hf.hasResult_of_needed (hl.needed s v hv)
  cases start with
  | true => exact h.elim (hasResult_of_exposes hf.condition) fun h => hkeeps h.2
  | false => exact hkeeps h

theorem mem_foldl_keeps : v ∈ (f.block b).succs.foldl (fun s c => s.union (l.liveIn c))
    (of f b).handed ↔ l.Keeps f b v := by
  rw [mem_foldl_union, mem_handed hf]
  rfl

theorem Stage.mem_live_update (hl : Stage f l) : v ∈ (update f l (of f b)).live start b ↔ l.Calls f start b v := by
  by_cases hlt : b < f.blocks.size
  · cases start with
    | true =>
      rw [live, cond_true, liveIn_update (hl.ins.symm ▸ hlt), mem_union, mem_diff, mem_foldl_keeps hf,
        mem_defined, mem_exposed hf.condition]
      constructor
      · rintro (⟨hkeeps, hnot⟩ | hexposes)
        · have hcall : l.Calls f false b v := hkeeps
          exact .inr ⟨fun hmem => hnot ⟨hmem, hl.hasResult hf hcall⟩, hkeeps⟩
        · exact .inl hexposes
      · rintro (hexposes | ⟨hnot, hkeeps⟩)
        · exact .inr hexposes
        · exact .inl ⟨hkeeps, fun hmem => hnot hmem.1⟩
    | false =>
      have hget : (update f l (of f b)).liveOut b =
          (f.block b).succs.foldl (fun s c => s.union (l.liveIn c)) (of f b).handed := by
        rw [liveOut, update, getD_setIfInBounds (hl.outs.symm ▸ hlt)]
        exact if_pos rfl
      rw [live, cond_false, hget, mem_foldl_keeps hf]
      rfl
  · refine iff_of_false ?_ fun h => hlt h.block_lt
    cases start with
    | true => exact not_mem_getD (by rw [update, Array.size_setIfInBounds, hl.ins]; exact not_lt.mp hlt)
    | false => exact not_mem_getD (by rw [update, Array.size_setIfInBounds, hl.outs]; exact not_lt.mp hlt)

theorem Stage.within_update (hl : Stage f l) : l.Within (update f l (of f b)) := by
  intro start c v hv
  by_cases hc : c = b
  · rw [hc] at hv ⊢
    exact (hl.mem_live_update hf).mpr (hl.called start b v hv)
  · rwa [live_update_of_ne hc]

theorem Stage.update (hl : Stage f l) : Stage f (update f l (of f b)) where
  effects := hl.effects
  ins := by rw [Liveness.update, Array.size_setIfInBounds, hl.ins]
  outs := by rw [Liveness.update, Array.size_setIfInBounds, hl.outs]
  needed c v hv := by
    change v ∈ (Liveness.update f l (of f b)).live true c at hv
    by_cases hc : c = b
    · rw [hc, hl.mem_live_update hf] at hv
      rw [hc, needed_iff]
      refine hv.imp id (And.imp_right (Or.imp id ?_))
      exact fun ⟨s, hs, hmem⟩ => ⟨s, hs, hl.needed s v hmem⟩
    · rw [live_update_of_ne hc] at hv
      exact hl.needed c v hv
  called start c v hv := by
    have hcall : l.Calls f start c v := by
      by_cases hc : c = b
      · rw [hc] at hv ⊢
        exact (hl.mem_live_update hf).mp hv
      · rw [live_update_of_ne hc] at hv
        exact hl.called start c v hv
    exact hcall.mono (hl.within_update hf)

theorem Stage.foldl : ∀ (bs : List BlockId) {l : Liveness}, Stage f l →
    Stage f ((bs.map (of f)).foldl (Liveness.update f) l) ∧
      l.Within ((bs.map (of f)).foldl (Liveness.update f) l) := by
  intro bs
  induction bs with
  | nil => exact fun hl => ⟨hl, fun _ _ _ h => h⟩
  | cons b bs ih =>
    intro l hl
    obtain ⟨hstage, hwithin⟩ := ih (hl.update hf)
    exact ⟨hstage, fun start c v hv => hwithin start c v (hl.within_update hf start c v hv)⟩

theorem Stage.fixed_of_foldl : ∀ (bs : List BlockId) {l : Liveness}, Stage f l →
    ((bs.map (of f)).foldl (Liveness.update f) l).Within l → ∀ b ∈ bs, Fixed f l b := by
  intro bs
  induction bs with
  | nil => exact fun _ _ b hb => absurd hb not_mem_nil
  | cons b bs ih =>
    intro l hl hback
    -- the sets after the first turn lie between those before and after the pass
    have hup := hl.within_update hf (b := b)
    have hnext := hl.update hf (b := b)
    have hdown : (Liveness.update f l (of f b)).Within l := fun start c v hv =>
      hback start c v ((Stage.foldl hf bs hnext).2 start c v hv)
    refine forall_mem_cons.mpr ⟨fun start v => ?_, fun c hc => ?_⟩
    · rw [← hl.mem_live_update hf]
      exact ⟨hup start b v, hdown start b v⟩
    · have hrest := ih hnext (fun start c v hv => hup start c v (hback start c v hv)) c hc
      exact hrest.congr hdown hup

theorem Stage.foldl_of_fixed : ∀ (bs : List BlockId) {l : Liveness}, Stage f l →
    (∀ b ∈ bs, Fixed f l b) → ((bs.map (of f)).foldl (Liveness.update f) l).Within l := by
  intro bs
  induction bs with
  | nil => exact fun _ _ _ _ _ h => h
  | cons b bs ih =>
    intro l hl hfixed
    have hup := hl.within_update hf (b := b)
    have hdown : (Liveness.update f l (of f b)).Within l := by
      intro start c v hv
      by_cases hc : c = b
      · rw [hc, hl.mem_live_update hf] at hv
        exact hc ▸ (hfixed b mem_cons_self start v).mpr hv
      · rwa [live_update_of_ne hc] at hv
    have hrest := ih (hl.update hf) fun c hc => (hfixed c (mem_cons_of_mem b hc)).congr hup hdown
    exact fun start c v hv => hdown start c v (hrest start c v hv)

omit hf in
theorem foldl_of_not_mem : ∀ {bs : List BlockId} {l : Liveness}, c ∉ bs →
    ((bs.map (of f)).foldl (Liveness.update f) l).live start c = l.live start c := by
  intro bs
  induction bs with
  | nil => exact fun _ => rfl
  | cons b bs ih =>
    intro l hc
    have hrest := ih (l := Liveness.update f l (of f b)) fun hmem => hc (mem_cons_of_mem b hmem)
    exact hrest.trans (live_update_of_ne fun heq => hc (heq ▸ mem_cons_self))

theorem Stage.round (hl : Stage f l) : Stage f (Liveness.round f l) ∧ l.Within (Liveness.round f l) := by
  obtain ⟨hstage, hwithin⟩ := Stage.foldl hf f.postorder hl
  rw [← hl.effects] at hstage hwithin
  exact ⟨⟨hstage.effects, hstage.ins, hstage.outs, hstage.needed, hstage.called⟩, hwithin⟩

theorem Stage.round_within_iff (hl : Stage f l) : (Liveness.round f l).Within l ↔ ∀ b ∈ f.postorder, Fixed f l b := by
  have hround : (Liveness.round f l).Within l ↔ ((f.postorder.map (of f)).foldl (Liveness.update f) l).Within l := by
    rw [← hl.effects]
    exact Iff.rfl
  rw [hround]
  exact ⟨Stage.fixed_of_foldl hf f.postorder hl, Stage.foldl_of_fixed hf f.postorder hl⟩

theorem Stage.agrees_iff (hl : Stage f l) : l.agrees (Liveness.round f l) ↔ (Liveness.round f l).Within l := by
  have hup := (hl.round hf).2
  rw [agrees, all_eq_true]
  simp only [Bool.and_eq_true, sameMembers_iff]
  constructor
  · intro h start b v hv
    by_cases hb : b ∈ f.postorder
    · obtain ⟨hin, hout⟩ := h (of f b) (hl.effects ▸ mem_map_of_mem hb)
      cases start with
      | true => exact (hin v).mpr hv
      | false => exact (hout v).mpr hv
    · have hother := @foldl_of_not_mem f start b f.postorder l hb
      rw [← hl.effects] at hother
      exact hother ▸ hv
  · exact fun h e _ => ⟨fun v => ⟨hup true _ v, h true _ v⟩, fun v => ⟨hup false _ v, h false _ v⟩⟩

end

def members (f : Func) (l : Liveness) : Finset (Bool × BlockId × ValueId) :=
  (Finset.univ ×ˢ Finset.range f.blocks.size ×ˢ Finset.range f.values.size).filter fun x =>
    (l.live x.1 x.2.1).contains x.2.2

theorem card_members_le (f : Func) (l : Liveness) : (members f l).card ≤ 2 * (f.blocks.size * f.values.size) := by
  refine (Finset.card_filter_le _ _).trans ?_
  rw [Finset.card_product, Finset.card_product, Finset.card_range, Finset.card_range, Finset.card_univ,
    Fintype.card_bool]

section

variable (hf : f.Regular)

include hf

theorem Stage.members_subset (hl : Stage f l) : members f l ⊆ members f m ↔ l.Within m := by
  constructor
  · intro h start b v hv
    have hcall := hl.called start b v hv
    have hlt := lt_of_hasResult (hl.hasResult hf hcall)
    exact (Finset.mem_filter.mp (h (Finset.mem_filter.mpr ⟨by simp [hcall.block_lt, hlt], hv⟩) : (start, b, v) ∈ _)).2
  · rintro h ⟨start, b, v⟩ hmem
    exact Finset.mem_filter.mpr ((Finset.mem_filter.mp hmem).imp_right (h start b v))

theorem Stage.settle (fuel : Nat) : ∀ {l : Liveness}, Stage f l →
    2 * (f.blocks.size * f.values.size) < fuel + (members f l).card →
    Stage f (Liveness.settle f fuel l) ∧ ∀ b ∈ f.postorder, Fixed f (Liveness.settle f fuel l) b := by
  induction fuel with
  | zero =>
    intro l _ hfuel
    have hle := card_members_le f l
    omega
  | succ fuel ih =>
    intro l hl hfuel
    obtain ⟨hnext, hup⟩ := hl.round hf
    rw [Liveness.settle]
    split
    · next hagrees =>
      have hdown := (hl.agrees_iff hf).mp hagrees
      have hfixed := (hl.round_within_iff hf).mp hdown
      exact ⟨hnext, fun b hb => (hfixed b hb).congr hup hdown⟩
    · next hdiffers =>
      have hlt : (members f l).card < (members f (Liveness.round f l)).card :=
        Finset.card_lt_card ⟨(hl.members_subset hf).mpr hup,
          fun hdown => hdiffers ((hl.agrees_iff hf).mpr ((hnext.members_subset hf).mp hdown))⟩
      exact ih hnext (by omega)

theorem fixed_compute : Stage f (compute f) ∧ ∀ b, f.Reachable b → Fixed f (compute f) b := by
  have hempty : ∀ b v, v ∉ (Array.replicate f.blocks.size (withCapacity f.values.size)).getD b ∅ := by
    intro b v
    rw [Array.getD_eq_getD_getElem?, Array.getElem?_replicate]
    split
    · exact not_mem_withCapacity
    · exact not_mem_empty
  have hstart : Stage f ⟨Array.replicate f.blocks.size (withCapacity f.values.size),
      Array.replicate f.blocks.size (withCapacity f.values.size),
      f.postorder.map (of f), 0⟩ :=
    ⟨rfl, Array.size_replicate, Array.size_replicate, fun b v h => absurd h (hempty b v),
      fun start b v h => by cases start <;> exact absurd h (hempty b v)⟩
  have hfuel : 2 * (f.blocks.size * f.values.size) < 2 * f.blocks.size * (f.values.size + f.blocks.size) + 2 := by
    have hadd := Nat.mul_add (2 * f.blocks.size) f.values.size f.blocks.size
    have hassoc := Nat.mul_assoc 2 f.blocks.size f.values.size
    omega
  obtain ⟨hstage, hfixed⟩ := Stage.settle hf _ hstart (hfuel.trans_le (Nat.le_add_right _ _))
  refine ⟨hstage, fun b hb => hfixed b ?_⟩
  rw [postorder, mem_reverse]
  exact mem_reversePostorder_iff.mpr hb

theorem mem_liveIn_of_needed (hb : f.Reachable b) (h : f.Needed v b) : v ∈ (compute f).liveIn b := by
  obtain ⟨c, hpath, hend⟩ := h
  have hfixed := (fixed_compute hf).2
  induction hpath using Relation.ReflTransGen.head_induction_on with
  | refl =>
    exact (hfixed c hb true v).mpr (hend.imp id (And.imp_right .inl))
  | @head x y hstep _ ih =>
    exact (hfixed x hb true v).mpr (.inr ⟨hstep.1, .inr ⟨y, hstep.2, ih (hb.tail hstep.2)⟩⟩)

end

/-- Live values come from the reads of blocks and go back along edges to blocks that do not define them. -/
theorem of_mem_liveIn_compute {P : BlockId → ValueId → Prop} (hexposed : ∀ b v, v ∈ (of f b).exposed → P b v)
    (hhanded : ∀ b v, v ∈ (of f b).handed → v ∉ (of f b).defined → P b v)
    (hback : ∀ b s v, s ∈ (f.block b).succs → P s v → v ∉ (of f b).defined → P b v) :
    ∀ b v, v ∈ (compute f).liveIn b → P b v := by
  have hupdate : ∀ l b, (∀ c v, v ∈ l.liveIn c → P c v) → ∀ c v, v ∈ (update f l (of f b)).liveIn c → P c v := by
    intro l b hl c v hv
    by_cases hc : c = b
    · by_cases hlt : b < l.liveIns.size
      · rw [hc, liveIn_update hlt, mem_union, mem_diff, mem_foldl_union] at hv
        rw [hc]
        rcases hv with ⟨hv | ⟨s, hs, hv⟩, hnot⟩ | hv
        · exact hhanded b v hv hnot
        · exact hback b s v hs (hl s v hv) hnot
        · exact hexposed b v hv
      · refine absurd hv (not_mem_getD ?_)
        rw [update, Array.size_setIfInBounds, hc]
        exact not_lt.mp hlt
    · have hsame : (update f l (of f b)).liveIn c = l.liveIn c := getD_setIfInBounds_ne hc
      exact hl c v (hsame ▸ hv)
  let Good (l : Liveness) : Prop := l.effects = f.postorder.map (of f) ∧ ∀ c v, v ∈ l.liveIn c → P c v
  have hround : ∀ l, Good l → Good (round f l) := by
    intro l hl
    have hfold : Good (l.effects.foldl (update f) l) := by
      refine List.foldlRecOn l.effects (update f) hl fun m hm e he => ⟨hm.1, ?_⟩
      rw [hl.1] at he
      obtain ⟨b, -, rfl⟩ := mem_map.mp he
      exact hupdate m b hm.2
    exact hfold
  have hsettle : ∀ fuel l, Good l → Good (settle f fuel l) := by
    intro fuel
    induction fuel with
    | zero => exact fun l hl => hl
    | succ fuel ih =>
      intro l hl
      rw [settle]
      split
      · exact hround l hl
      · exact ih _ (hround l hl)
  refine (hsettle _ _ ⟨rfl, fun b v hv => absurd hv ?_⟩).2
  rw [liveIn, Array.getD_eq_getD_getElem?, Array.getElem?_replicate]
  split
  · exact not_mem_withCapacity
  · exact not_mem_empty

/-- Liveness is exact. Another pass would change nothing, and for every reachable block, a value is live
at the start if a path from there reads it before any definition, and live at the end if it is live at
the start of a successor or handed to a phi there. -/
theorem compute_is_exact (f : Func) (hf : f.Regular) : isStable f (compute f) = true ∧
    (∀ b v, (v ∈ (round f (compute f)).liveIn b ↔ v ∈ (compute f).liveIn b) ∧
      (v ∈ (round f (compute f)).liveOut b ↔ v ∈ (compute f).liveOut b)) ∧
    ∀ b, f.Reachable b → ∀ v, (v ∈ (compute f).liveIn b ↔ f.Needed v b) ∧ (v ∈ (compute f).liveOut b ↔
        (∃ s ∈ (f.block b).succs, v ∈ (compute f).liveIn s) ∨ ∃ s ∈ (f.block b).succs, f.Feeds b s v) := by
  obtain ⟨hstage, hfixed⟩ := fixed_compute hf
  have hpostorder : ∀ b ∈ f.postorder, Fixed f (compute f) b := fun b hb =>
    hfixed b (mem_reversePostorder_iff.mp (List.mem_reverse.mp hb))
  have hneeded := fun b v => @mem_liveIn_of_needed f b v hf
  generalize compute f = l at *
  have hdown := (hstage.round_within_iff hf).mpr hpostorder
  have hup := (hstage.round hf).2
  refine ⟨(hstage.agrees_iff hf).mpr hdown, fun b v => ⟨?_, ?_⟩, fun b hb v => ⟨?_, ?_⟩⟩
  · exact ⟨hdown true b v, hup true b v⟩
  · exact ⟨hdown false b v, hup false b v⟩
  · exact ⟨hstage.needed b v, hneeded b v hb⟩
  · refine (hfixed b hb false v).trans (or_comm.trans ?_)
    exact or_congr_right ⟨fun ⟨s, h⟩ => ⟨s, h.mem_succs, h⟩, fun ⟨s, _, h⟩ => ⟨s, h⟩⟩

/-- Takes `v1` from `v0` while they are in some relation, and returns what is left. -/
def takeAway : Func :=
  { Func.new "" [TypeId.i64, TypeId.i64] TypeId.i64 with
    values := #[
      ⟨.arg, TypeId.i64, ⟨0, 0⟩, .int 0, 1, 0, none⟩,
      ⟨.arg, TypeId.i64, ⟨0, 0⟩, .int 1, 2, 0, none⟩,
      ⟨.phi, TypeId.i64, ⟨0, 2⟩, .none, 3, 1, none⟩,
      ⟨.cmp, TypeId.bool, ⟨2, 2⟩, .relation .sgt, 1, 1, none⟩,
      ⟨.sub, TypeId.i64, ⟨4, 2⟩, .none, 1, 2, none⟩,
      ⟨.ret, TypeId.void, ⟨6, 2⟩, .none, 1, 3, none⟩,
      ⟨.initMem, TypeId.mem, ⟨0, 0⟩, .none, 1, 0, none⟩]
    operands := #[0, 4, 2, 1, 2, 1, 2, 6]
    blocks := #[
      ⟨.plain, [0, 1, 6], none, [], [1], ""⟩,
      ⟨.branch, [2, 3], some 3, [0, 2], [2, 3], ""⟩,
      ⟨.plain, [4], none, [1], [1], ""⟩,
      ⟨.ret, [], some 5, [1], [], ""⟩] }

/-- What is taken away is needed all around the loop; the difference is handed to the phi and needed
no longer at its block. -/
theorem takeAway_is_exact : takeAway.Regular ∧ isStable takeAway (compute takeAway) = true ∧
    takeAway.Needed 1 1 ∧ takeAway.Needed 1 2 ∧ ¬takeAway.Needed 4 1 ∧
    ∃ s ∈ (takeAway.block 2).succs, takeAway.Feeds 2 s 4 := by
  have hregular : takeAway.Regular := by decide
  obtain ⟨hstable, -, hexact⟩ := compute_is_exact takeAway hregular
  have hreach : ∀ b < 4, takeAway.Reachable b := fun b hb =>
    mem_reversePostorder_iff.mp ((by decide : ∀ b < 4, b ∈ takeAway.reversePostorder) b hb)
  refine ⟨hregular, hstable, ((hexact 1 (hreach 1 (by decide)) 1).1).mp (by decide +kernel),
    ((hexact 2 (hreach 2 (by decide)) 1).1).mp (by decide +kernel), fun h => ?_, ?_⟩
  · exact absurd (((hexact 1 (hreach 1 (by decide)) 4).1).mpr h) (by decide +kernel)
  · have hout := ((hexact 2 (hreach 2 (by decide)) 4).2).mp (by decide +kernel)
    exact hout.resolve_left (by decide +kernel)

end Liveness

end SsaCodegen
