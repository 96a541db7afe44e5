import SsaCodegen.Proofs.Emission.Arithmetic

/-! Comparisons. A subtraction of whole registers sets the flags, and the order of the extended words is the
order of the narrow ones. -/

namespace SsaCodegen

open BitVec

/-- Whether a relation holds between two words, which it reads with or without a sign. -/
def Relation.holds {w : Nat} (r : Relation) (x y : BitVec w) : Bool :=
  let a := number r.isSigned x
  let b := number r.isSigned y
  match r with
  | eq => a = b
  | ne => a ≠ b
  | slt | ult => a < b
  | sle | ule => a ≤ b
  | sgt | ugt => b < a
  | sge | uge => b ≤ a

section

variable {w : Nat} {r : Relation} {signed : Bool}

theorem toNat_widen_le (signed : Bool) (hw : w ≤ 64) (x y : BitVec w) :
    (widen signed x).toNat ≤ (widen signed y).toNat ↔ x.toNat ≤ y.toNat := by
  have hpow : 2 ^ w ≤ 2 ^ 64 := Nat.pow_le_pow_right (by decide) hw
  have hmod : ∀ z : BitVec w, z.toNat % 2 ^ 64 = z.toNat := fun z => Nat.mod_eq_of_lt (z.isLt.trans_le hpow)
  cases signed with
  | true =>
    change (x.signExtend 64).toNat ≤ (y.signExtend 64).toNat ↔ _
    simp only [toNat_signExtend, toNat_setWidth, hmod, msb_eq_decide, decide_eq_true_eq]
    split <;> split <;> omega
  | false =>
    change (x.setWidth 64).toNat ≤ (y.setWidth 64).toNat ↔ _
    rw [toNat_setWidth, toNat_setWidth, hmod, hmod]

/-- A relation holds between the extended words exactly if it holds between the words themselves, unless it
reads signs that the type does not have. -/
theorem holds_widen (hw : w ≤ 64) (hsign : r.isSigned → signed ∨ w = 64) (x y : BitVec w) :
    r.holds (widen signed x) (widen signed y) = r.holds x y := by
  have hle := toNat_widen_le signed hw x y
  have hge := toNat_widen_le signed hw y x
  have hnumber : r.isSigned → ∀ z : BitVec w, (widen signed z).toInt = z.toInt := by
    intro hr z
    rcases hsign hr with rfl | heq
    · exact number_widen true hw z
    · rw [widen_of_eq heq signed true]
      exact number_widen true hw z
  cases r with
  | eq | ne | ult | ule | ugt | uge =>
    simp only [Relation.holds, Relation.isSigned, number, Bool.false_eq_true, if_false, decide_eq_decide]
    omega
  | slt | sle | sgt | sge => simp only [Relation.holds, Relation.isSigned, number, if_true, hnumber rfl]

end

theorem FlagCond.holds_invert (f : Flags) {c : FlagCond} (hc : c ≠ .al) : c.invert.holds f = !c.holds f := by
  cases c <;> simp_all [holds, invert, bne]

/-- The sign of a difference is wrong exactly if the difference itself is. -/
theorem msb_sub_bne_overflow (x y : BitVec 64) :
    ((x - y).msb != ((x - y).toInt != x.toInt + (~~~y).toInt + true.toNat)) = decide (x.toInt < y.toInt) := by
  have hx := And.intro x.le_toInt x.toInt_lt
  have hy := And.intro y.le_toInt y.toInt_lt
  have hd := And.intro (x - y).le_toInt (x - y).toInt_lt
  have hnot : (~~~y).toInt = -1 - y.toInt := by
    rw [toInt_not, toInt_eq_toNat_cond, Int.bmod_def]
    split <;> split <;> omega
  have hsub : (x - y).toInt = x.toInt - y.toInt ∨ (x - y).toInt = x.toInt - y.toInt - 2 ^ 64 ∨
      (x - y).toInt = x.toInt - y.toInt + 2 ^ 64 := by
    rw [toInt_sub, Int.bmod_def]
    split <;> omega
  have hover : ((x - y).toInt != x.toInt + (-1 - y.toInt) + (1 : Nat)) =
      decide ((x - y).toInt ≠ x.toInt - y.toInt) := by
    rw [bne, beq_eq_decide, ← decide_not, decide_eq_decide]
    omega
  rw [msb_eq_toInt, hnot, Bool.toNat_true, hover, Bool.eq_iff_iff, bne_iff_ne, ne_eq, decide_eq_decide,
    decide_eq_true_iff]
  omega

theorem flags_subs (x y : BitVec 64) : (AddSub.subs.apply x y).2 =
    ⟨(x - y).msb, decide (x.toNat = y.toNat), decide (y.toNat ≤ x.toNat),
      (x - y).toInt != x.toInt + (~~~y).toInt + true.toNat⟩ := by
  have hdiff := AddSub.apply_sub x y
  have hcarry : Nat.ble (Nat.pow 2 64) (x.toNat + (~~~y).toNat + true.toNat) = decide (y.toNat ≤ x.toNat) := by
    rw [Bool.eq_iff_iff, Nat.ble_eq, decide_eq_true_iff, toNat_not, Bool.toNat_true]
    change 2 ^ 64 ≤ _ ↔ _
    omega
  have hzero : (x - y == 0#64) = decide (x.toNat = y.toNat) := by
    rw [beq_eq_decide, decide_eq_decide, BitVec.sub_eq_iff_eq_add, BitVec.zero_add, toNat_inj]
  rw [← hcarry, ← hzero, ← hdiff]
  rfl

theorem holds_flagCond (r : Relation) (x y : BitVec 64) :
    r.flagCond.holds (AddSub.subs.apply x y).2 = r.holds x y := by
  have hless := msb_sub_bne_overflow x y
  have hnot : ∀ p q : Bool, (p == q) = !(p != q) := by decide
  have heq : x.toNat = y.toNat ↔ x.toInt = y.toInt := by
    rw [toNat_inj, toInt_inj]
  rw [flags_subs]
  cases r <;>
    simp only [Relation.flagCond, FlagCond.holds, Relation.holds, Relation.isSigned, number, hless, hnot,
      if_true, Bool.false_eq_true, if_false, ← decide_not, ← Bool.decide_and, ← Bool.decide_or, decide_eq_decide] <;>
    omega

namespace Instr

variable {s : Machine} {origin : BitVec 64} {rd a b : Reg}

theorem execAll_compare (r : Relation) (hrd : rd ≠ Reg.xzr) :
    ∃ flags, { s with flags }.Sets rd (if r.holds (s.x a) (s.x b) then 1 else 0) [rd]
      (execAll origin (compare r rd a b) s) := by
  have hflags := holds_flagCond r (s.x a) (s.x b)
  -- the difference itself goes to the zero register
  have hcmp : (cmp a b).exec origin s =
      { s with flags := (AddSub.subs.apply (s.x a) (s.x b)).2, pc := s.pc + 4 } := by
    conv_rhs => rw [← shiftLeft_zero (s.x b)]
    rfl
  generalize (AddSub.subs.apply (s.x a) (s.x b)).2 = flags at hflags hcmp
  have hinvert := @FlagCond.holds_invert flags r.flagCond (by cases r <;> decide)
  have hcset : ((cmp a b).exec origin s).Sets rd (if r.holds (s.x a) (s.x b) then 1 else 0) [rd]
      ((cset rd r.flagCond).exec origin ((cmp a b).exec origin s)) := by
    apply sets_exec _ hrd
    rw [cset, effect, hcmp, hinvert, hflags]
    cases r.holds (s.x a) (s.x b) <;> rfl
  have hsame : { s with flags }.Differs ((cmp a b).exec origin s) [rd] := by
    rw [hcmp]
    exact ⟨fun _ _ => rfl, rfl, rfl, rfl⟩
  exact ⟨flags, hcset.1, hsame.trans hcset.2⟩

theorem data_of_mem_compare {r : Relation} {i : Instr} (hi : i ∈ compare r rd a b) : i.isData ∧ i.Fits := by
  rw [compare, List.mem_cons, List.mem_singleton] at hi
  rcases hi with rfl | rfl
  · exact ⟨rfl, (by decide : 0 < 64)⟩
  · exact ⟨rfl, trivial⟩

end Instr

/-- The code of a comparison leaves one in the register of the value if the relation holds between the
operands at the width of their type, and zero otherwise, whatever registers they share. A relation that
reads signs needs a type that has them, or operands that fill a register. No other register changes, nor
does memory. -/
theorem comparison_tells_relation {t : Target} {v : ValueId} {r : Relation} {ty : TypeId} {rd a b : Reg}
    (htypes : t.types.Made) (hty : t.types.isInteger ty = true) (hr : (t.func.value v).payload = .relation r)
    (hd : t.InReg v rd) (ha : t.InReg (t.func.arg v 0) a) (hb : t.InReg (t.func.arg v 1) b)
    (hrd : rd ≠ Reg.xzr)
    (hsign : r.isSigned = true → t.types.isSigned ty = true ∨ t.types.width ty = 64) :
    Succeeds (t.emitCompare v) ∧ Achieves (t.emitCompare v) fun s s' =>
      ∀ x y, s.x a = t.types.canonical ty x → s.x b = t.types.canonical ty y →
        ∃ flags, { s with flags }.Sets rd (if r.holds x y then 1 else 0) [rd] s' := by
  rw [Target.emitCompare, hr]
  dsimp only
  rw [Target.reg_eq hd, Target.reg_eq ha, Target.reg_eq hb, pure_bind, pure_bind, pure_bind]
  apply computes_emitAll fun i hi => Instr.data_of_mem_compare hi
  intro origin s x y hx hy
  rw [← holds_widen (htypes.width_integer hty).2 hsign, ← TypeTable.canonical, ← TypeTable.canonical, ← hx, ← hy]
  exact Instr.execAll_compare r hrd

/-- Two parameters of eight bits and whether the first is above the second, which takes the register of the
second. -/
def narrowOrder : Target where
  func := { Func.new "order" [TypeId.i8, TypeId.i8] TypeId.bool with
      values := #[⟨.arg, TypeId.i8, ⟨0, 0⟩, .int 0, 1, 0, some (.reg 0)⟩,
        ⟨.arg, TypeId.i8, ⟨0, 0⟩, .int 1, 1, 0, some (.reg 1)⟩,
        ⟨.cmp, TypeId.bool, ⟨0, 2⟩, .relation .ugt, 1, 0, some (.reg 1)⟩]
      operands := #[0, 1] }
  types := .builtins
  frame := .layout [] 0 0 false false
  edgeMoves := #[]

/-- Read without a sign, the byte of minus one is above that of the greatest number. -/
theorem narrowOrder_tells_relation : narrowOrder.types.Made ∧ narrowOrder.types.isInteger TypeId.i8 = true ∧
    narrowOrder.InReg 2 1 ∧ narrowOrder.InReg (narrowOrder.func.arg 2 0) 0 ∧
    narrowOrder.InReg (narrowOrder.func.arg 2 1) 1 ∧ Succeeds (narrowOrder.emitCompare 2) ∧
    Achieves (narrowOrder.emitCompare 2) fun s s' => s.x 0 = 0xFFFFFFFFFFFFFFFF#64 → s.x 1 = 0x7F#64 →
      ∃ flags, { s with flags }.Sets 1 1#64 [1] s' := by
  have hd : narrowOrder.InReg 2 1 := ⟨[1], ⟨.reg 1, rfl, rfl, rfl⟩, rfl⟩
  have ha : narrowOrder.InReg (narrowOrder.func.arg 2 0) 0 := ⟨[0], ⟨.reg 0, rfl, rfl, rfl⟩, rfl⟩
  have hb : narrowOrder.InReg (narrowOrder.func.arg 2 1) 1 := ⟨[1], ⟨.reg 1, rfl, rfl, rfl⟩, rfl⟩
  obtain ⟨hsucceeds, hachieves⟩ := @comparison_tells_relation narrowOrder 2 .ugt TypeId.i8 1 0 1 .builtins rfl
    rfl hd ha hb (by decide) (by decide)
  refine ⟨.builtins, rfl, hd, ha, hb, hsucceeds, hachieves.mono ?_⟩
  intro s s' hsets hx hy
  exact hsets 0xFF#8 0x7F#8 hx hy

end SsaCodegen
