import SsaCodegen.Proofs.Allocation.Outline
import SsaCodegen.Proofs.Checks

/-! Functions that are ready for register allocation, and the order in which it visits their blocks. -/

namespace SsaCodegen.Func

open List

variable {f : Func} {types : TypeTable} {b d : BlockId} {v w : ValueId}

/-- What register allocation needs of a function but for its critical edges. -/
structure Allocatable (types : TypeTable) (f : Func) : Prop where
  ssa : f.SsaForm
  onBool : f.BranchesOnBool
  weightless : types.parts TypeId.mem = 0 ∧ types.parts TypeId.void = 0
  bare : ∀ v, (f.value v).loc = none
  leading_first : ∀ b, ∃ rest, (f.block b).values = f.leading b ++ rest ∧ ∀ v ∈ rest, (f.value v).op.isLeading = false
  inputs : ∀ b, ∀ v ∈ f.leading b, (f.value v).op ≠ .phi → b = f.entry
  bare_inputs : ∀ b, ∀ v ∈ f.leading b, (f.value v).op ≠ .phi → f.args v = []
  consts : ∀ b, ∀ v ∈ (f.block b).values, (f.value v).op = .const → f.args v = []
  own : ∀ b, ∀ v ∈ (f.block b).values, (f.value v).op ≠ .storeReg ∧ (f.value v).op ≠ .loadReg ∧ (f.value v).op ≠ .ret
  memory : ∀ v, (f.value v).op = .initMem → (f.value v).ty = TypeId.mem
  params : ∀ b, ∀ v ∈ (f.block b).values, (f.value v).op = .arg → ∃ (i : Nat) (ty : TypeId),
    (f.value v).payload = .int i ∧ f.params[i]? = some ty ∧ (f.value v).ty = passedType types ty
  params_inj : ∀ b, ∀ v ∈ (f.block b).values, ∀ w ∈ (f.block b).values, (f.value v).op = .arg →
    (f.value w).op = .arg → (f.value v).payload = (f.value w).payload → v = w
  resultPtr : ∀ b, ∀ v ∈ (f.block b).values, (f.value v).op = .resultPtr → types.parts (f.value v).ty = 1
  resultPtr_inj : ∀ b, ∀ v ∈ (f.block b).values, ∀ w ∈ (f.block b).values,
    (f.value v).op = .resultPtr → (f.value w).op = .resultPtr → v = w
  phis : ∀ b, ∀ p ∈ (f.block b).values, (f.value p).op = .phi → (f.value p).hasResult →
    ∀ a ∈ f.args p, (f.value a).ty = (f.value p).ty

theorem SameCode.allocatable {g : Func} (h : f.SameCode g) (hssa : g.SsaForm) (hf : f.Allocatable types) :
    g.Allocatable types := by
  have hloc := h.value_congr Value.loc fun _ _ => rfl
  have hpayload := h.value_congr Value.payload fun _ _ => rfl
  have hresult := h.value_congr Value.hasResult fun _ _ => rfl
  have hleading : ∀ b, g.leading b = f.leading b := by
    simp only [leading, h.values, h.op, implies_true]
  refine ⟨hssa, h.branchesOnBool hf.onBool, hf.weightless, ?_, ?_, ?_, ?_, ?_, ?_, ?_, ?_, ?_, ?_, ?_, ?_⟩ <;>
    simp only [h.op, h.ty, hloc, hpayload, hresult, hleading, h.params, h.values, h.args, h.entry]
  · exact hf.bare
  · exact hf.leading_first
  · exact hf.inputs
  · exact hf.bare_inputs
  · exact hf.consts
  · exact hf.own
  · exact hf.memory
  · exact hf.params
  · exact hf.params_inj
  · exact hf.resultPtr
  · exact hf.resultPtr_inj
  · exact hf.phis

/-- A function that is ready for register allocation. -/
structure Prepared (types : TypeTable) (f : Func) : Prop extends Allocatable types f where
  noncritical : ∀ b c, c ∈ (f.block b).succs → 2 ≤ (f.block b).succs.length → (f.block c).preds.length ≤ 1

theorem SsaForm.regular (hf : f.SsaForm) (hbool : f.BranchesOnBool) : f.Regular :=
  ⟨hf.flow.succs_nodup, hbool.hasResult⟩

theorem SsaForm.not_mem_of_needed (hf : f.SsaForm) (hbool : f.BranchesOnBool) (hb : f.Reachable b)
    (h : f.Needed v b) : v ∉ (f.block b).values := by
  have hlive := Liveness.mem_liveIn_of_needed (hf.regular hbool) hb h
  obtain ⟨rest, htrail, hfirst⟩ := exists_first_trail hb
  obtain ⟨d, hd, hv⟩ := hf.orderly.computed_of_mem_liveIn hbool hf.checkDominance hlive rest htrail
  intro hv'
  rw [← (hf.placed d v hv).2, (hf.placed b v hv').2] at hd
  exact hfirst hd

theorem exists_trail_before : ∀ {pre post : List BlockId} {b : BlockId},
    f.reversePostorder = pre ++ b :: post → ∃ rest, Trail f (b :: rest) ∧ ∀ d ∈ rest, d ∈ pre := by
  intro pre
  induction hn : pre.length using Nat.strong_induction_on generalizing pre with
  | _ n ih =>
    intro post b hlayout
    by_cases hb : b = f.entry
    · rw [hb]
      exact ⟨[], .start, nofun⟩
    · obtain ⟨p, hp, hedge⟩ := exists_earlier_pred hlayout hb
      obtain ⟨before, after, rfl⟩ := append_of_mem hp
      obtain ⟨rest, hrest, hsub⟩ := ih before.length (by rw [← hn]; simp) rfl
        (show f.reversePostorder = before ++ p :: (after ++ b :: post) by
          rw [hlayout, append_assoc, cons_append])
      refine ⟨p :: rest, .step hrest hedge, forall_mem_cons.mpr ⟨hp, fun d hd => ?_⟩⟩
      exact mem_append_left _ (hsub d hd)

theorem mem_of_dominates {pre post : List BlockId} (hlayout : f.reversePostorder = pre ++ b :: post)
    (hne : d ≠ b) (hdom : f.Dominates d b) : d ∈ pre := by
  obtain ⟨rest, hrest, hsub⟩ := exists_trail_before hlayout
  exact hsub d ((mem_cons.mp (hdom rest hrest)).resolve_left hne)

end SsaCodegen.Func
