import SsaCodegen.Proofs.Emission.Areas
import SsaCodegen.Proofs.Emission.Comparisons
import SsaCodegen.Proofs.Emission.Constants

/-! The instructions of values calculate with registers or access memory at a fixed offset. -/

namespace SsaCodegen

open List

namespace Instr

variable {i : Instr} {rd rn : Reg}

theorem data_of_mem_addSubSteps {op : AddSub} {amount : Nat} (hi : i ∈ addSubSteps op rd rn amount) :
    i.isData ∧ (amount < 0x1000000 → i.Fits) := by
  rcases mem_append.mp hi with hi | hi <;> split at hi
  · cases hi
  · rw [mem_singleton.mp hi]
    exact ⟨rfl, fun hlt => Nat.div_lt_of_lt_mul hlt⟩
  · cases hi
  · rw [mem_singleton.mp hi]
    exact ⟨rfl, fun _ => Nat.mod_lt _ (by decide)⟩

theorem data_of_mem_addOffset {offset : Int} (hi : i ∈ addOffset rd rn offset) : i.isData ∧ i.Fits := by
  have hadd : ∀ rm : Reg, (add rd rm scratch).isData ∧ (add rd rm scratch).Fits := fun _ =>
    ⟨rfl, (by decide : 0 < 64)⟩
  rw [addOffset] at hi
  split at hi
  · split at hi
    · cases hi
    · exact mem_singleton.mp hi ▸ emits_mov rd rn
  · split at hi
    · next hsmall => exact (data_of_mem_addSubSteps hi).imp_right fun h => h hsmall
    · split at hi <;> rcases mem_append.mp hi with hi | hi
      · exact data_of_mem_movImm hi
      · rcases mem_cons.mp hi with rfl | hi
        · exact emits_mov cycleTemp rn
        · exact mem_singleton.mp hi ▸ hadd _
      · exact data_of_mem_movImm hi
      · exact mem_singleton.mp hi ▸ hadd _

end Instr

open Instr in
theorem Frame.direct_of_mem_moveWord {fr : Frame} {src dst : WordLoc} {is : List Instr}
    (h : fr.moveWord src dst = some is) : ∀ i ∈ is, i.Direct := by
  intro i hi
  cases src <;> cases dst <;> cases h
  case reg.reg a b =>
    split at hi
    · cases hi
    · exact mem_singleton.mp hi ▸ direct_of_isData (emits_mov b a).1
  case reg.stack => exact mem_singleton.mp hi ▸ direct_store ..
  case stack.reg => exact mem_singleton.mp hi ▸ direct_load ..
  case stack.stack =>
    split at hi
    · cases hi
    · rcases mem_cons.mp hi with rfl | hi
      · exact direct_load ..
      · exact mem_singleton.mp hi ▸ direct_store ..
  case imm.reg => exact direct_of_isData (data_of_mem_movImm hi).1
  case imm.stack =>
    split at hi
    · exact mem_singleton.mp hi ▸ direct_store ..
    · rcases mem_append.mp hi with hi | hi
      · exact direct_of_isData (data_of_mem_movImm hi).1
      · exact mem_singleton.mp hi ▸ direct_store ..

end SsaCodegen
