import Mathlib.Tactic.Linarith
import Mathlib.Tactic.Positivity
import SsaCodegen.Proofs.TypeTables

/-! Numbers in registers. A narrow word stands in a register extended, so what the machine computes with all
64 bits can be followed in the integers. -/

namespace SsaCodegen

open BitVec

def number (signed : Bool) {w : Nat} (x : BitVec w) : Int := if signed then x.toInt else x.toNat

def InRange (signed : Bool) (w : Nat) (z : Int) : Prop :=
  if signed then -2 ^ (w - 1) ≤ z ∧ z < 2 ^ (w - 1) else 0 ≤ z ∧ z < 2 ^ w

def widen (signed : Bool) {w : Nat} (x : BitVec w) : BitVec 64 :=
  if signed then x.signExtend 64 else x.setWidth 64

section

variable {signed : Bool} {w n k : Nat} {a b z : Int} {x y : BitVec w}

theorem inRange_number (signed : Bool) (x : BitVec w) : InRange signed w (number signed x) := by
  cases signed with
  | true => exact ⟨x.le_toInt, x.toInt_lt⟩
  | false => exact ⟨Int.natCast_nonneg _, Int.ofNat_lt.mpr x.isLt⟩

theorem InRange.mono (h : InRange signed w z) (hw : w ≤ n) : InRange signed n z := by
  cases signed with
  | true =>
    have hpow : (2 : Int) ^ (w - 1) ≤ 2 ^ (n - 1) := pow_le_pow_right₀ (by decide) (Nat.sub_le_sub_right hw 1)
    exact ⟨le_trans (neg_le_neg hpow) h.1, lt_of_lt_of_le h.2 hpow⟩
  | false =>
    have hpow : (2 : Int) ^ w ≤ 2 ^ n := pow_le_pow_right₀ (by decide) hw
    exact ⟨h.1, lt_of_lt_of_le h.2 hpow⟩

theorem ofInt_number (signed : Bool) (x : BitVec w) : BitVec.ofInt w (number signed x) = x := by
  cases signed with
  | true => exact ofInt_toInt
  | false => exact (ofInt_natCast ..).trans ((ofNat_toNat ..).trans (setWidth_eq x))

theorem number_ofInt (hw : 0 < w) (h : InRange signed w z) : number signed (BitVec.ofInt w z) = z := by
  have htwo : (2 : Int) ^ w = 2 * 2 ^ (w - 1) := by
    rw [← pow_succ', Nat.sub_add_cancel hw]
  cases signed with
  | true =>
    obtain ⟨hlo, hhi⟩ := h
    change (BitVec.ofInt w z).toInt = z
    rw [toInt_ofInt]
    apply Int.bmod_eq_of_le_mul_two
    · push_cast
      linarith
    · push_cast
      linarith
  | false =>
    obtain ⟨hlo, hhi⟩ := h
    change ((BitVec.ofInt w z).toNat : Int) = z
    rw [toNat_ofInt, Int.emod_eq_of_lt hlo (by exact_mod_cast hhi), Int.toNat_of_nonneg hlo]

theorem setWidth_ofInt (hw : w ≤ n) (z : Int) : (BitVec.ofInt n z).setWidth w = BitVec.ofInt w z := by
  apply eq_of_toNat_eq
  rw [toNat_setWidth, toNat_ofInt, toNat_ofInt]
  have hnonneg : ∀ k : Nat, 0 ≤ z % 2 ^ k := fun k => Int.emod_nonneg _ (by positivity)
  zify
  rw [Int.toNat_of_nonneg (hnonneg n), Int.toNat_of_nonneg (hnonneg w)]
  exact Int.emod_emod_of_dvd z (pow_dvd_pow 2 hw)

theorem widen_eq_ofInt (signed : Bool) (x : BitVec w) : widen signed x = BitVec.ofInt 64 (number signed x) := by
  cases signed with
  | true => rfl
  | false =>
    apply eq_of_toNat_eq
    change (x.setWidth 64).toNat = (BitVec.ofInt 64 (x.toNat : Int)).toNat
    rw [ofInt_natCast, toNat_setWidth, toNat_ofNat]

theorem number_widen (signed : Bool) (hw : w ≤ 64) (x : BitVec w) :
    number signed (widen signed x) = number signed x := by
  rw [widen_eq_ofInt]
  exact number_ofInt (by decide) ((inRange_number signed x).mono hw)

theorem widen_ofInt (hw : 0 < w) (h : InRange signed w z) : widen signed (BitVec.ofInt w z) = BitVec.ofInt 64 z := by
  rw [widen_eq_ofInt, number_ofInt hw h]

theorem setWidth_widen (signed : Bool) (hw : w ≤ 64) (x : BitVec w) : (widen signed x).setWidth w = x := by
  rw [widen_eq_ofInt, setWidth_ofInt hw, ofInt_number]

theorem widen_self (signed : Bool) (x : BitVec 64) : widen signed x = x := by
  rw [widen_eq_ofInt, ofInt_number]

theorem widen_of_eq (hw : w = 64) (signed signed' : Bool) (x : BitVec w) : widen signed x = widen signed' x := by
  subst hw
  rw [widen_self, widen_self]

theorem ofInt_sub (a b : Int) : BitVec.ofInt w (a - b) = BitVec.ofInt w a - BitVec.ofInt w b := by
  rw [Int.sub_eq_add_neg, ofInt_add, ofInt_neg, sub_eq_add_neg]

theorem sdiv_eq_ofInt (x y : BitVec w) : x.sdiv y = BitVec.ofInt w (x.toInt.tdiv y.toInt) := by
  apply eq_of_toInt_eq
  rw [toInt_sdiv, toInt_ofInt]

theorem udiv_eq_ofInt (x y : BitVec w) : x / y = BitVec.ofInt w ((x.toNat : Int).tdiv y.toNat) := by
  apply eq_of_toNat_eq
  rw [← Int.ofNat_tdiv, ofInt_natCast, toNat_udiv, toNat_ofNat, Nat.mod_eq_of_lt]
  exact lt_of_le_of_lt (Nat.div_le_self _ _) x.isLt

theorem shiftLeft_eq_ofInt (signed : Bool) (x : BitVec w) (k : Nat) :
    x <<< k = BitVec.ofInt w (number signed x * 2 ^ k) := by
  have hpow : BitVec.ofInt w (2 ^ k) = twoPow w k := by
    apply eq_of_toNat_eq
    rw [toNat_twoPow, show (2 : Int) ^ k = (2 ^ k : Nat) by rfl, ofInt_natCast, toNat_ofNat]
  rw [shiftLeft_eq_mul_twoPow, ofInt_mul, ofInt_number, hpow]

theorem sshiftRight_eq_ofInt (x : BitVec w) (k : Nat) : x.sshiftRight k = BitVec.ofInt w (x.toInt / 2 ^ k) := by
  rw [← ofInt_toInt (x := x.sshiftRight k), toInt_sshiftRight, Int.shiftRight_eq_div_pow]
  rfl

theorem ushiftRight_eq_ofInt (x : BitVec w) (k : Nat) : x >>> k = BitVec.ofInt w ((x.toNat : Int) / 2 ^ k) := by
  apply eq_of_toNat_eq
  rw [show (x.toNat : Int) / 2 ^ k = (x.toNat / 2 ^ k : Nat) by rfl, ofInt_natCast,
    toNat_ofNat, toNat_ushiftRight, Nat.shiftRight_eq_div_pow, Nat.mod_eq_of_lt]
  exact lt_of_le_of_lt (Nat.div_le_self _ _) x.isLt

theorem InRange.tdiv (ha : InRange false w a) (hb : 0 ≤ b) : InRange false w (a.tdiv b) :=
  ⟨Int.tdiv_nonneg ha.1 hb, lt_of_le_of_lt (Int.tdiv_le_self b ha.1) ha.2⟩

/-- A remainder has the sign of the dividend and is no further from zero. -/
theorem InRange.tmod (ha : InRange signed w a) (b : Int) : InRange signed w (a.tmod b) := by
  have habs : (a.tmod b).natAbs ≤ a.natAbs := by
    rw [Int.natAbs_tmod]
    exact Nat.mod_le _ _
  have hpos : 0 ≤ a → 0 ≤ a.tmod b := fun h => Int.tmod_nonneg b h
  have hneg : a ≤ 0 → a.tmod b ≤ 0 := fun h => by
    have h' := Int.tmod_nonneg b (Int.neg_nonneg.mpr h)
    rw [Int.neg_tmod] at h'
    exact Int.neg_nonneg.mp h'
  cases signed with
  | true =>
    have hlo := ha.1
    have hhi := ha.2
    refine ⟨?_, ?_⟩ <;> omega
  | false => exact ⟨hpos ha.1, lt_of_le_of_lt (by have := ha.1; omega) ha.2⟩

theorem InRange.div_two_pow (ha : InRange signed w a) (k : Nat) : InRange signed w (a / 2 ^ k) := by
  have hk : (0 : Int) < 2 ^ k := by positivity
  have hle : 0 ≤ a → a / 2 ^ k ≤ a := fun h => Int.ediv_le_self _ h
  have hnonneg : 0 ≤ a → 0 ≤ a / 2 ^ k := fun h => Int.ediv_nonneg h hk.le
  have hge : a < 0 → a ≤ a / 2 ^ k := fun h => by
    rw [Int.le_ediv_iff_mul_le hk]
    nlinarith
  have hlt : a < 0 → a / 2 ^ k < 0 := fun h => Int.ediv_neg_of_neg_of_pos h hk
  cases signed with
  | true =>
    have hlo := ha.1
    have hhi := ha.2
    rcases lt_or_ge a 0 with h | h
    · exact ⟨hlo.trans (hge h), (hlt h).trans (by positivity)⟩
    · exact ⟨le_trans (by simp only [Left.neg_nonpos_iff]; positivity) (hnonneg h), lt_of_le_of_lt (hle h) hhi⟩
  | false => exact ⟨hnonneg ha.1, lt_of_le_of_lt (hle ha.1) ha.2⟩

theorem widen_and (signed : Bool) (x y : BitVec w) : widen signed (x &&& y) = widen signed x &&& widen signed y := by
  cases signed with
  | true => exact signExtend_and
  | false => exact setWidth_and

theorem widen_or (signed : Bool) (x y : BitVec w) : widen signed (x ||| y) = widen signed x ||| widen signed y := by
  cases signed with
  | true => exact signExtend_or
  | false => exact setWidth_or

theorem widen_xor (signed : Bool) (x y : BitVec w) : widen signed (x ^^^ y) = widen signed x ^^^ widen signed y := by
  cases signed with
  | true => exact signExtend_xor
  | false => exact setWidth_xor

end

namespace TypeTable

/-- The bits of a number of an integer type; a boolean has one. -/
def width (t : TypeTable) (ty : TypeId) : Nat :=
  match t.kind ty with
  | .int bits _ => bits
  | .bool => 1
  | _ => 64

def canonical (t : TypeTable) (ty : TypeId) (x : BitVec (t.width ty)) : BitVec 64 := widen (t.isSigned ty) x

variable {t : TypeTable} {ty : TypeId}

theorem canonical_setWidth (t : TypeTable) (ty : TypeId) (x : BitVec 64) :
    t.canonical ty (x.setWidth (t.width ty)) = match t.kind ty with
      | .int bits signed => widen signed (x.setWidth bits)
      | .bool => widen false (x.setWidth 1)
      | _ => widen false (x.setWidth 64) := by
  unfold canonical width isSigned
  cases t.kind ty <;> rfl

theorem Made.width_integer (h : t.Made) (hty : t.isInteger ty) : 0 < t.width ty ∧ t.width ty ≤ 64 := by
  have hall : ∀ ty < TypeTable.builtins.count, TypeTable.builtins.isInteger ty →
      0 < TypeTable.builtins.width ty ∧ TypeTable.builtins.width ty ≤ 64 := by decide
  have hlt := h.builtin_of_isInteger hty
  rw [isInteger, h.kind_builtin hlt] at hty
  rw [width, h.kind_builtin hlt]
  exact hall ty hlt hty

end TypeTable

end SsaCodegen
