import SsaCodegen.Emission
import SsaCodegen.Proofs.Emission.Directness

/-! Sums of a register and a displacement, and moves of the stack pointer. -/

namespace SsaCodegen

/-- One register takes a value, where number 31 is the stack pointer, and nothing else changes but the position. -/
def Machine.SetsBase (s : Machine) (rd : Reg) (v : BitVec 64) (s' : Machine) : Prop :=
  s'.base rd = v ∧ (∀ r, r ≠ rd → s'.base r = s.base r) ∧ s'.flags = s.flags ∧ s'.memory = s.memory

theorem Machine.SetsBase.sets {s s' : Machine} {rd : Reg} {v : BitVec 64} (h : s.SetsBase rd v s')
    (hrd : rd ≠ Reg.xzr) : s.Sets rd v [rd] s' := by
  obtain ⟨hval, hother, hflags, hmemory⟩ := h
  refine ⟨s'.base_eq_x hrd ▸ hval, fun r hr => ?_, hother Reg.sp hrd.symm, hflags, hmemory⟩
  by_cases hzero : r = Reg.xzr
  · rw [hzero, x_xzr, x_xzr]
  · rw [← base_eq_x _ hzero, ← base_eq_x _ hzero]
    exact hother r (List.mem_singleton.not.mp hr)

theorem AddSub.apply_apply {op : AddSub} (hop : op.setsFlags = false) (a : BitVec 64) (m n : Nat) :
    (op.apply (op.apply a (BitVec.ofNat 64 m)).1 (BitVec.ofNat 64 n)).1 = (op.apply a (BitVec.ofNat 64 (m + n))).1 := by
  cases op with
  | add => rw [apply_add, apply_add, apply_add, BitVec.add_assoc, ← BitVec.ofNat_add]
  | sub => rw [apply_sub, apply_sub, apply_sub, BitVec.sub_sub, ← BitVec.ofNat_add]
  | adds | subs => cases hop

namespace Instr

variable {op : AddSub} {rd rn : Reg} (origin : BitVec 64) (s : Machine)

theorem setsBase_addSubImm (hop : op.setsFlags = false) {n imm12 : Nat} {shift12 : Bool}
    (hn : (if shift12 then imm12 * 4096 else imm12) = n) :
    s.SetsBase rd (op.apply (s.base rn) (BitVec.ofNat 64 n)).1 ((addSubImm op rd rn imm12 shift12).exec origin s) := by
  obtain ⟨v, hv⟩ : ∃ v, v = (op.apply (s.base rn) (BitVec.ofNat 64 n)).1 := ⟨_, rfl⟩
  have heffect : (addSubImm op rd rn imm12 shift12).effect origin s = s.setBase rd v := by
    rw [hv, ← hn]
    exact if_neg (by rw [hop]; decide)
  rw [exec, heffect, ← hv, Machine.setBase]
  by_cases hrd : rd = Reg.sp
  · rw [if_pos hrd]
    refine ⟨if_pos hrd, fun r hr => ?_, rfl, rfl⟩
    rw [Machine.base, Machine.base, if_neg (hrd ▸ hr), if_neg (hrd ▸ hr)]
  · rw [if_neg hrd]
    refine ⟨(if_neg hrd).trans (Function.update_self ..), fun r hr => ?_, rfl, rfl⟩
    exact if_congr Iff.rfl rfl (Function.update_of_ne hr ..)

/-- The second step goes on from what the first one has left. -/
theorem setsBase_addSubSteps (hop : op.setsFlags = false) {amount : Nat} (h : amount ≠ 0 ∨ rd = rn) :
    s.SetsBase rd (op.apply (s.base rn) (BitVec.ofNat 64 amount)).1
      (execAll origin (addSubSteps op rd rn amount) s) := by
  have hamount := Nat.div_add_mod' amount 4096
  rw [addSubSteps]
  split <;> rename_i hhi <;> split <;> rename_i hlo
  · obtain rfl : amount = 0 := by omega
    have hzero : (op.apply (s.base rn) (BitVec.ofNat 64 0)).1 = s.base rn := by
      cases op with
      | add => rw [AddSub.apply_add, BitVec.add_zero]
      | sub => rw [AddSub.apply_sub, BitVec.sub_zero]
      | adds | subs => cases hop
    rw [hzero, ← h.resolve_left (not_not.mpr rfl)]
    exact ⟨rfl, fun _ _ => rfl, rfl, rfl⟩
  · rw [hhi, Nat.zero_add] at hamount
    exact setsBase_addSubImm origin s hop ((if_neg Bool.false_ne_true).trans hamount)
  · rw [hlo, Nat.add_zero] at hamount
    exact setsBase_addSubImm origin s hop ((if_pos rfl).trans hamount)
  · obtain ⟨hval, hother, hflags, hmemory⟩ :=
      @setsBase_addSubImm op rd rn origin s hop _ (amount / 4096) true (if_pos rfl)
    obtain ⟨hval', hother', hflags', hmemory'⟩ := @setsBase_addSubImm op rd rd origin
      ((addSubImm op rd rn (amount / 4096) true).exec origin s) hop _ (amount % 4096) false (if_neg Bool.false_ne_true)
    rw [hval, AddSub.apply_apply hop, hamount] at hval'
    exact ⟨hval', fun r hr => (hother' r hr).trans (hother r hr), hflags'.trans hflags, hmemory'.trans hmemory⟩

theorem sets_mov_base (hrd : rd ≠ Reg.xzr) : s.Sets rd (s.base rn) [rd] ((mov rd rn).exec origin s) := by
  by_cases hrn : rn = Reg.sp
  · have hadd := (@setsBase_addSubImm .add rd rn origin s rfl 0 0 false rfl).sets hrd
    rw [AddSub.apply_add, BitVec.add_zero] at hadd
    rw [mov, if_pos (.inr hrn)]
    exact hadd
  · rw [s.base_eq_x hrn]
    exact sets_mov origin s hrd hrn

theorem sets_addOffset (hrd : rd ≠ Reg.xzr) (hrn : rn ≠ scratch) (offset : Int) :
    s.Sets rd (s.base rn + BitVec.ofInt 64 offset) [rd, scratch, cycleTemp]
      (execAll origin (addOffset rd rn offset) s) := by
  have hsub : ∀ r ∈ [rd], r ∈ [rd, scratch, cycleTemp] := fun r hr => List.mem_append_left [scratch, cycleTemp] hr
  rw [addOffset]
  split
  · next hzero =>
    rw [hzero, show BitVec.ofInt 64 0 = 0#64 from rfl, BitVec.add_zero]
    split
    · next heq => exact ⟨heq ▸ (s.base_eq_x hrd).symm, .refl s _⟩
    · exact (sets_mov_base origin s hrd).mono hsub
  split
  · next hne hsmall =>
    have hsum : ((if offset < 0 then AddSub.sub else .add).apply (s.base rn) (BitVec.ofNat 64 offset.natAbs)).1 =
        s.base rn + BitVec.ofInt 64 offset := by
      split
      · next hneg =>
        rw [AddSub.apply_sub, ← BitVec.ofInt_natCast, Int.ofNat_natAbs_of_nonpos (Int.le_of_lt hneg), BitVec.ofInt_neg,
          BitVec.sub_neg]
      · next hpos => rw [AddSub.apply_add, ← BitVec.ofInt_natCast, Int.natAbs_of_nonneg (Int.not_lt.mp hpos)]
    rw [← hsum]
    refine ((setsBase_addSubSteps origin s ?_ (.inl (Int.natAbs_ne_zero.mpr hne))).sets hrd).mono hsub
    split <;> rfl
  -- the constant is in the scratch register, from where it is added
  obtain ⟨s1, hs1⟩ : ∃ s1, s1 = execAll origin (movInt scratch offset) s := ⟨_, rfl⟩
  obtain ⟨hconst, hleft⟩ : s.Sets scratch (BitVec.ofInt 64 offset) [scratch] s1 := hs1 ▸ sets_movImm (by decide) _ s
  have hbase := hleft.base (List.mem_singleton.not.mpr hrn)
  replace hleft : s.Differs s1 [rd, scratch, cycleTemp] := hleft.mono (by simp)
  have hadd : ∀ {s2 : Machine} {rm : Reg}, s1.Differs s2 [cycleTemp] → s2.x rm = s1.base rn →
      s.Sets rd (s.base rn + BitVec.ofInt 64 offset) [rd, scratch, cycleTemp] ((add rd rm scratch).exec origin s2) := by
    intro s2 rm hdiff hrm
    obtain ⟨hval, hdiff'⟩ := @sets_add s2 origin rd rm scratch hrd
    rw [hrm, hbase, hdiff.others scratch (by decide), hconst] at hval
    exact ⟨hval, (hleft.trans (hdiff.mono (by simp))).trans (hdiff'.mono hsub)⟩
  split
  · rw [execAll_append, ← hs1]
    obtain ⟨hval, hdiff⟩ := @sets_mov_base cycleTemp rn origin s1 (by decide)
    exact hadd hdiff hval
  · next hsp =>
    rw [execAll_append, ← hs1]
    exact hadd (.refl s1 _) (s1.base_eq_x hsp).symm

end Instr

/-- The sum of a register and any displacement is exact, and takes no other registers than the two that are free.
The stack pointer moves by exactly the amount, unless that is too large. -/
theorem address_arithmetic_is_exact : (∀ (rd rn : Reg) (offset : Int), rd ≠ Reg.sp → rn ≠ scratch →
      Succeeds (emitAll (Instr.addOffset rd rn offset)) ∧ Achieves (emitAll (Instr.addOffset rd rn offset))
        fun s s' => s.Sets rd (s.base rn + BitVec.ofInt 64 offset) [rd, scratch, cycleTemp] s') ∧
    ∀ amount, if amount < 0x1000000 then
        Succeeds (adjustStack .sub amount) ∧ Achieves (adjustStack .sub amount)
          fun s s' => s.SetsBase Reg.sp (s.sp - BitVec.ofNat 64 amount) s'
      else ∀ c, adjustStack .sub amount c = .error (.encoding (.outOfRange .frameSize amount)) := by
  refine ⟨fun rd rn offset hrd hrn => computes_emitAll (fun i hi => Instr.data_of_mem_addOffset hi)
    fun origin s => Instr.sets_addOffset origin s hrd hrn offset, fun amount => ?_⟩
  split
  · next hsmall =>
    have hadjust : adjustStack .sub amount = emitAll (Instr.addSubSteps .sub Reg.sp Reg.sp amount) :=
      if_neg (Nat.not_le.mpr hsmall)
    rw [hadjust]
    refine computes_emitAll (fun i hi => (Instr.data_of_mem_addSubSteps hi).imp_right fun h => h hsmall)
      fun origin s => ?_
    rw [← AddSub.apply_sub]
    exact Instr.setsBase_addSubSteps origin s rfl (Or.inr rfl)
  · next hlarge =>
    intro c
    rw [adjustStack, if_pos (Nat.not_lt.mp hlarge)]
    rfl

/-- The lowest displacement, with a detour because the base is the stack pointer, and the largest frame. -/
theorem lowest_address_is_exact :
    Achieves (emitAll (Instr.addOffset cycleTemp Reg.sp (-2 ^ 63))) (fun s s' =>
      s.Sets cycleTemp (s.sp + BitVec.ofInt 64 (-2 ^ 63)) [cycleTemp, scratch, cycleTemp] s') ∧
    Achieves (adjustStack .sub 0xffffff) fun s s' => s.SetsBase Reg.sp (s.sp - BitVec.ofNat 64 0xffffff) s' :=
  ⟨(address_arithmetic_is_exact.1 cycleTemp Reg.sp (-2 ^ 63) (by decide) (by decide)).2,
    (address_arithmetic_is_exact.2 0xffffff).2⟩

end SsaCodegen
