import SsaCodegen.Allocation.Check
import SsaCodegen.Proofs.Checks

/-! What the check of an allocation tells. Of two values that are live at the same place, one is live where
the other one is computed, so it is enough to compare registers there. -/

namespace SsaCodegen.Func

open List BlockEffect ValueSet

variable {f : Func} {b : BlockId} {u v w : ValueId} {vs : List ValueId}

/-- `vs` are the last values of a block, and `v` is live before them. -/
def LiveBefore (f : Func) (b : BlockId) (vs : List ValueId) (v : ValueId) : Prop :=
  f.ReadsFirst vs v ∨ v ∉ vs ∧ (v ∈ f.controlUses b ∨ (∃ s, f.Feeds b s v) ∨ ∃ s ∈ (f.block b).succs, f.Needed v s)

theorem needed_iff_liveBefore : f.Needed v b ↔ f.LiveBefore b (f.block b).values v := by
  rw [needed_iff, Exposes, or_assoc, ← and_or_left]
  exact Iff.rfl

theorem LiveBefore.cons (h : f.LiveBefore b vs u) (hne : u ≠ v) : f.LiveBefore b (v :: vs) u := by
  have hcons : ∀ {l : List ValueId}, u ∉ l → u ∉ v :: l := fun hl hmem => (mem_cons.mp hmem).elim hne hl
  rcases h with ⟨pre, x, post, rfl, hpre, hx⟩ | ⟨hnot, h⟩
  · exact .inl ⟨v :: pre, x, post, rfl, hcons hpre, hx⟩
  · exact .inr ⟨hcons hnot, h⟩

theorem Regular.hasResult_of_liveBefore (hf : f.Regular) (h : f.LiveBefore b vs v) : (f.value v).hasResult := by
  rcases h with ⟨pre, x, post, -, -, -, hv⟩ | ⟨-, hv | ⟨s, i, -, -, phi, -, -, -, hv⟩ | ⟨s, -, hv⟩⟩
  · exact hasResult_of_mem_dataUses hv
  · exact hasResult_of_mem_controlUses hf.condition hv
  · exact hv
  · exact hf.hasResult_of_needed hv

theorem Regular.mem_of_liveBefore (hf : f.Regular) (hb : f.Reachable b) (h : f.LiveBefore b vs v) :
    v ∈ vs.foldr (before f) (((Liveness.compute f).liveOut b).insertAll (f.controlUses b)) := by
  have hout := (Liveness.fixed_compute hf).2 b hb false v
  rw [mem_foldr_before (hf.hasResult_of_liveBefore h), mem_insertAll]
  refine h.imp_right (And.imp_right (Or.imp_right fun h => hout.mpr (h.imp_right fun ⟨s, hs, hv⟩ => ?_)))
  exact ⟨s, hs, Liveness.mem_liveIn_of_needed hf (hb.tail hs) hv⟩

/-- Where `v` is computed, nothing else in its registers is still needed, and if it is a call, nothing else
is in registers. -/
def Apart (f : Func) (v w : ValueId) : Prop :=
  (f.regsOf v).Disjoint (f.regsOf w) ∧ ((f.value v).op = .call → f.regsOf w = [])

theorem conflictWith?_eq_none {needed : List ValueId} :
    f.conflictWith? v needed = none ↔ ∀ w ∈ needed, (f.regsOf v).Disjoint (f.regsOf w) := by
  simp only [conflictWith?, findSome?_eq_none_iff, Option.map_eq_none_iff, find?_eq_none, contains_iff_mem]
  exact Iff.rfl

theorem conflictAcross?_eq_none {needed : List ValueId} : f.conflictAcross? v needed = none ↔
    ((f.value v).op = .call → ∀ w ∈ needed, f.regsOf w = []) := by
  rw [conflictAcross?]
  split
  · next hop => simp [hop]
  · next hop => simp [hop]

theorem conflictBefore?_cons {needed : ValueSet} : f.conflictBefore? (v :: vs) needed = none ↔
    (∀ w ∈ needed, w ≠ v → f.Apart v w) ∧ f.conflictBefore? vs
      (if f.isPhi v then needed.erase v else (needed.erase v).insertAll (f.dataUses v)) = none := by
  change (f.conflictWith? v _ <|> f.conflictAcross? v _ <|> f.conflictBefore? vs _) = none ↔ _
  simp only [Option.orElse_eq_none, conflictWith?_eq_none, conflictAcross?_eq_none, mem_toList, mem_erase]
  constructor
  · rintro ⟨hwith, hacross, hrest⟩
    exact ⟨fun w hw hne => ⟨hwith w ⟨hw, hne⟩, fun hop => hacross hop w ⟨hw, hne⟩⟩, hrest⟩
  · rintro ⟨hapart, hrest⟩
    exact ⟨fun w hw => (hapart w hw.1 hw.2).1, fun hop w hw => (hapart w hw.1 hw.2).2 hop, hrest⟩

theorem mem_needed_before {needed : ValueSet} :
    w ∈ (if f.isPhi v then needed.erase v else (needed.erase v).insertAll (f.dataUses v)) ↔
      f.isPhi v = false ∧ w ∈ f.dataUses v ∨ w ∈ needed ∧ w ≠ v := by
  split
  · next h => simp [h, mem_erase]
  · next h => simp [h, mem_insertAll, mem_erase]

theorem apart_of_conflictBefore? : ∀ {needed : ValueSet}, f.conflictBefore? vs.reverse needed = none →
    ∀ {pre post}, vs = pre ++ v :: post → (f.value w).hasResult → w ≠ v →
      w ∈ post.foldr (before f) needed → f.Apart v w := by
  induction vs using List.reverseRecOn with
  | nil => exact fun _ _ _ h => absurd h (by simp)
  | append_singleton vs x ih =>
    intro needed hnone pre post hsplit hres hne hw
    rw [reverse_append, reverse_singleton, singleton_append, conflictBefore?_cons] at hnone
    cases post using List.reverseRecOn with
    | nil =>
      obtain ⟨-, hx⟩ := append_inj' hsplit rfl
      obtain rfl := singleton_inj.mp hx
      exact hnone.1 w hw hne
    | append_singleton post y =>
      rw [← cons_append, ← append_assoc] at hsplit
      obtain ⟨hvs, hx⟩ := append_inj' hsplit rfl
      obtain rfl := singleton_inj.mp hx
      refine ih hnone.2 hvs hres hne ?_
      rw [foldr_append, mem_foldr_before hres] at hw
      refine (mem_foldr_before hres).mpr (hw.imp_right (And.imp_right fun hw => ?_))
      refine mem_needed_before.mpr ((mem_before.mp hw).imp_right fun hw => ⟨hw.1, fun heq => ?_⟩)
      exact hw.2 (heq ▸ hres) heq

section

variable (hf : f.Regular) (hcheck : f.checkAllocation = .ok ()) (hb : f.Reachable b)

include hf hcheck hb

theorem Regular.apart {pre post : List ValueId} (hvals : (f.block b).values = pre ++ v :: post) (hne : w ≠ v)
    (hw : f.LiveBefore b post w) : f.Apart v w := by
  have hnone : f.reversePostorder.findSome? (f.conflictIn? (Liveness.compute f)) = none := by
    rw [checkAllocation] at hcheck
    split at hcheck
    · cases hcheck
    · assumption
  have hin := findSome?_eq_none_iff.mp hnone b (mem_reversePostorder_iff.mpr hb)
  exact apart_of_conflictBefore? ((Option.orElse_eq_none _ _).mp hin).2 hvals (hf.hasResult_of_liveBefore hw) hne
    (hf.mem_of_liveBefore hb hw)

/-- Within a block the way back ends where one of the two is computed, or at the start. -/
theorem Regular.disjoint (hne : u ≠ v) (hstart : f.Needed u b → f.Needed v b → (f.regsOf u).Disjoint (f.regsOf v)) :
    ∀ {pre post}, (f.block b).values = pre ++ post → f.LiveBefore b post u → f.LiveBefore b post v →
      (f.regsOf u).Disjoint (f.regsOf v) := by
  intro pre
  induction pre using List.reverseRecOn with
  | nil =>
    intro post hvals hu hv
    rw [nil_append] at hvals
    rw [← hvals, ← needed_iff_liveBefore] at hu hv
    exact hstart hu hv
  | append_singleton pre x ih =>
    intro post hvals hu hv
    rw [append_assoc] at hvals
    by_cases hux : u = x
    · exact (hf.apart hcheck hb (hux ▸ hvals) hne.symm hv).1
    by_cases hvx : v = x
    · exact (hf.apart hcheck hb (hvx ▸ hvals) hne hu).1.symm
    exact ih hvals (hu.cons hux) (hv.cons hvx)

end

/-- Let no block list a successor twice. If a function passes the checks, then values that are live at the
same place share no register, and whatever is live after a value shares none with it, or is in no register at
all if the value is a call. -/
theorem checkAllocation_is_sound (hf : f.WellPlaced) (hsuccs : ∀ b, (f.block b).succs.Nodup)
    (hverify : f.verify = .ok ()) (hcheck : f.checkAllocation = .ok ()) (hb : f.Reachable b)
    {pre post : List ValueId} (hvals : (f.block b).values = pre ++ post) :
    (∀ u v, u ≠ v → f.LiveBefore b post u → f.LiveBefore b post v → (f.regsOf u).Disjoint (f.regsOf v)) ∧
    ∀ v rest w, post = v :: rest → w ≠ v → f.LiveBefore b rest w →
      (f.regsOf v).Disjoint (f.regsOf w) ∧ ((f.value v).op = .call → f.regsOf w = []) := by
  obtain ⟨_, hcfg, hrest⟩ := except_bind_eq_ok.mp hverify
  obtain ⟨_, hdom, -⟩ := except_bind_eq_ok.mp hrest
  have hbool := branchesOnBool_of_checkCfg hcfg
  have hregular : f.Regular := ⟨hsuccs, hbool.hasResult⟩
  refine ⟨fun u v hne => ?_, fun v rest w hpost hne => hregular.apart hcheck hb (hpost ▸ hvals) hne⟩
  -- back along a walk to the block; nothing is live at its start
  obtain ⟨trail, htrail⟩ := exists_trail hb
  clear hb
  induction trail generalizing b pre post with
  | nil =>
    refine hregular.disjoint hcheck (htrail.reachable b List.mem_cons_self) hne (fun hu => ?_) hvals
    cases htrail
    have hlive := Liveness.mem_liveIn_of_needed hregular .refl hu
    exact absurd hlive ((hf.orderly hcfg).not_mem_liveIn_entry hbool hdom)
  | cons p trail ih =>
    refine hregular.disjoint hcheck (htrail.reachable b List.mem_cons_self) hne (fun hu hv => ?_) hvals
    cases htrail with
    | step htrail edge =>
      have hend : ∀ {x}, f.Needed x b → f.LiveBefore p [] x := fun hx =>
        Or.inr ⟨List.not_mem_nil, Or.inr (Or.inr ⟨b, edge, hx⟩)⟩
      exact ih (List.append_nil _).symm htrail (hend hu) (hend hv)

open Liveness in
/-- What `takeAway` calculates with fits in three registers. -/
def takeAwayInPlace : Func :=
  [0, 1, 0, 2, 0].zipIdx.foldl (fun f x => f.setLoc x.2 (some (.reg x.1))) takeAway

theorem checkAllocation_takeAwayInPlace : takeAwayInPlace.WellPlaced ∧
    (∀ b, (takeAwayInPlace.block b).succs.Nodup) ∧ takeAwayInPlace.verify = .ok () ∧
    takeAwayInPlace.checkAllocation = .ok () ∧ takeAwayInPlace.Reachable 2 ∧
    (takeAwayInPlace.regsOf 1).Disjoint (takeAwayInPlace.regsOf 2) := by
  have hf : takeAwayInPlace.WellPlaced := ⟨by decide, by decide, by decide⟩
  have hregular : takeAwayInPlace.Regular := by decide
  have hverify : takeAwayInPlace.verify = .ok () := by decide +kernel
  have hcheck : takeAwayInPlace.checkAllocation = .ok () := rfl
  have hb : takeAwayInPlace.Reachable 2 := mem_reversePostorder_iff.mp (by decide)
  have hvals : (takeAwayInPlace.block 2).values = [] ++ [4] := rfl
  have hlive : ∀ v ∈ takeAwayInPlace.dataUses 4, takeAwayInPlace.LiveBefore 2 [4] v := fun v hv =>
    Or.inl ⟨[], 4, [], rfl, List.not_mem_nil, rfl, hv⟩
  obtain ⟨hapart, -⟩ := checkAllocation_is_sound hf hregular.succs hverify hcheck hb hvals
  exact ⟨hf, hregular.succs, hverify, hcheck, hb, hapart 1 2 (by decide) (hlive 1 (by decide)) (hlive 2 (by decide))⟩

/-- Both edges of the branch go to the same block, in which a phi takes another value from each. -/
def parallelEdges : Func :=
  { Func.new "parallelEdges" [] TypeId.i64 with
    values := #[
      ⟨.initMem, TypeId.mem, ⟨0, 0⟩, .none, 1, 0, none⟩,
      ⟨.const, TypeId.bool, ⟨0, 0⟩, .int 1, 1, 0, none⟩,
      ⟨.const, TypeId.i64, ⟨0, 0⟩, .int 2, 1, 0, some (.reg 0)⟩,
      ⟨.const, TypeId.i64, ⟨0, 0⟩, .int 3, 1, 0, some (.reg 0)⟩,
      ⟨.phi, TypeId.i64, ⟨0, 2⟩, .none, 1, 1, none⟩,
      ⟨.ret, TypeId.void, ⟨2, 2⟩, .none, 1, 1, none⟩]
    operands := #[3, 2, 4, 0]
    blocks := #[
      ⟨.branch, [0, 1, 2, 3], some 1, [], [1, 1], "entry"⟩,
      ⟨.ret, [4], some 5, [0, 0], [], "end"⟩] }

/-- Only the operand of the first of two parallel edges counts as live, so the check misses a conflict. -/
theorem checkAllocation_misses_parallel_edge : parallelEdges.WellPlaced ∧ parallelEdges.verify = .ok () ∧
    parallelEdges.checkAllocation = .ok () ∧ parallelEdges.Reachable 0 ∧
    parallelEdges.LiveBefore 0 [] 2 ∧ parallelEdges.LiveBefore 0 [] 3 ∧
    ¬(parallelEdges.regsOf 2).Disjoint (parallelEdges.regsOf 3) := by
  have hfeeds : ∀ v, parallelEdges.Feeds 0 1 v → parallelEdges.LiveBefore 0 [] v := fun v h =>
    Or.inr ⟨List.not_mem_nil, Or.inr (Or.inl ⟨1, h⟩)⟩
  exact ⟨⟨by decide, by decide, by decide⟩, by decide +kernel, rfl, .refl,
    hfeeds 2 ⟨1, rfl, by decide, 4, by decide, rfl, rfl, rfl⟩,
    hfeeds 3 ⟨0, rfl, by decide, 4, by decide, rfl, rfl, rfl⟩,
    fun h => h (List.mem_singleton_self 0) (List.mem_singleton_self 0)⟩

end SsaCodegen.Func
