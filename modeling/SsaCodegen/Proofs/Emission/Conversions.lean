import SsaCodegen.Ir.Validity
import SsaCodegen.Proofs.Emission.Arithmetic

/-! Conversions between integer types. The source is read as a word as wide as its type takes bytes, and the
word is extended or cut off to the width of the target. -/

namespace SsaCodegen

open List Reg TypeTable

def Ir.Conv.eval {b : Nat} (c : Ir.Conv) (x : BitVec b) (w : Nat) : BitVec w :=
  match c with
  | signExt => x.signExtend w
  | zeroExt | trunc => x.setWidth w

namespace TypeTable

variable {t : TypeTable} {ty source target : TypeId}

def stored (t : TypeTable) (ty : TypeId) (x : BitVec (t.width ty)) : BitVec (t.bits ty) :=
  (t.canonical ty x).setWidth (t.bits ty)

/-- The source of a conversion, extended to a whole register as the conversion says. A conversion to a
narrower type leaves it as it is. -/
def spread (t : TypeTable) (ty : TypeId) (x : BitVec (t.width ty)) : Ir.Conv → BitVec 64
  | .signExt => widen true (t.stored ty x)
  | .zeroExt => widen false (t.stored ty x)
  | .trunc => t.canonical ty x

def Sticks (t : TypeTable) (source target : TypeId) : Prop :=
  t.width target < 64 ∧
    if t.isSigned target then t.width target ≤ t.width source else t.width target < t.width source

instance : Decidable (t.Sticks source target) := inferInstanceAs (Decidable (_ ∧ _))

section

variable (h : t.Made) (hty : t.isInteger ty)

include h hty

theorem Made.bits_integer : t.width ty ≤ t.bits ty ∧
    0 < t.bits ty ∧ t.bits ty ≤ 64 ∧ (t.isSigned ty → t.width ty = t.bits ty) := by
  have hall : ∀ ty < TypeTable.builtins.count, TypeTable.builtins.isInteger ty →
      TypeTable.builtins.width ty ≤ TypeTable.builtins.bits ty ∧ 0 < TypeTable.builtins.bits ty ∧
      TypeTable.builtins.bits ty ≤ 64 ∧ (TypeTable.builtins.isSigned ty →
        TypeTable.builtins.width ty = TypeTable.builtins.bits ty) := by decide
  have hlt := h.builtin_of_isInteger hty
  rw [isInteger, h.kind_builtin hlt] at hty
  rw [width, bits, isSigned, h.kind_builtin hlt, h.size_builtin hlt]
  exact hall ty hlt hty

section

variable (x : BitVec (t.width ty))

include x

theorem Made.stored_eq_ofInt : t.stored ty x = BitVec.ofInt (t.bits ty) (number (t.isSigned ty) x) := by
  rw [stored, canonical, widen_eq_ofInt, setWidth_ofInt (h.bits_integer hty).2.2.1]

theorem Made.widen_stored : widen (t.isSigned ty) (t.stored ty x) = t.canonical ty x := by
  obtain ⟨hle, hpos, -, -⟩ := h.bits_integer hty
  rw [h.stored_eq_ofInt hty, widen_ofInt hpos ((inRange_number _ x).mono hle), canonical, widen_eq_ofInt]

theorem Made.toNat_stored_lt : (t.stored ty x).toNat < 2 ^ t.width ty := by
  obtain ⟨hle, hpos, -, hsigned⟩ := h.bits_integer hty
  cases hs : t.isSigned ty with
  | true =>
    rw [hsigned hs]
    exact (t.stored ty x).isLt
  | false =>
    have hrange := inRange_number false x
    have hnumber := number_ofInt hpos (hrange.mono hle)
    rw [← hs, ← h.stored_eq_ofInt hty, hs] at hnumber
    have hlt : ((t.stored ty x).toNat : Int) < 2 ^ t.width ty := lt_of_eq_of_lt hnumber hrange.2
    exact_mod_cast hlt

end

end

end TypeTable

section

variable {b w : Nat}

theorem setWidth_eq_ofInt (x : BitVec b) (w : Nat) : x.setWidth w = BitVec.ofInt w x.toNat := by
  rw [BitVec.ofInt_natCast, BitVec.ofNat_toNat]

theorem widen_signExtend (hpos : 0 < w) (hw : b ≤ w) (x : BitVec b) : widen true (x.signExtend w) = widen true x :=
  (widen_ofInt hpos ((inRange_number true x).mono hw)).trans (widen_eq_ofInt true x).symm

/-- Zeros above a number that the wider type has make no difference. -/
theorem widen_setWidth {signed : Bool} {n : Nat} (hpos : 0 < w) (hw : w ≤ 64) {x : BitVec b}
    (hx : x.toNat < 2 ^ n) (hn : ¬(w < 64 ∧ if signed then w ≤ n else w < n)) :
    widen signed (x.setWidth w) = widen false x := by
  rcases lt_or_ge w 64 with hlt | hge
  · have hx' : (x.toNat : Int) < 2 ^ n := by exact_mod_cast hx
    have hrange : InRange signed w x.toNat := by
      cases signed with
      | true =>
        have hpow : (2 : Int) ^ n ≤ 2 ^ (w - 1) := pow_le_pow_right₀ (by decide) (by simp at hn; omega)
        have hneg : -(2 : Int) ^ (w - 1) ≤ 0 := by simp
        exact ⟨hneg.trans (Int.natCast_nonneg _), lt_of_lt_of_le hx' hpow⟩
      | false =>
        have hpow : (2 : Int) ^ n ≤ 2 ^ w := pow_le_pow_right₀ (by decide) (by simp at hn; omega)
        exact ⟨Int.natCast_nonneg _, lt_of_lt_of_le hx' hpow⟩
    rw [setWidth_eq_ofInt, widen_ofInt hpos hrange, widen_eq_ofInt]
    rfl
  · have heq := hw.antisymm hge
    subst heq
    rw [widen_self]
    rfl

theorem setWidth_widen_true (hw : w ≤ 64) (x : BitVec b) : (widen true x).setWidth w = x.signExtend w := by
  rw [widen_eq_ofInt, setWidth_ofInt hw]
  rfl

end

namespace Instr

variable {s : Machine} {origin : BitVec 64} {rd rn : Reg} {types : TypeTable}
  {source target : TypeId} {c : Ir.Conv}

theorem mov_of_ne (hrd : rd ≠ xzr) (hrn : rn ≠ sp) : mov rd rn = logical .orr false rd xzr rn :=
  if_neg (not_or.mpr ⟨hrd, hrn⟩)

theorem sets_mov (origin : BitVec 64) (s : Machine) (hrd : rd ≠ xzr) (hrn : rn ≠ sp) :
    s.Sets rd (s.x rn) [rd] ((mov rd rn).exec origin s) := by
  have h : s.Sets rd (s.x xzr ||| s.x rn) [rd] ((mov rd rn).exec origin s) := by
    rw [mov_of_ne hrd hrn]
    exact sets_exec rfl hrd
  rwa [Machine.x_xzr, BitVec.zero_or] at h

theorem sets_copy (hrd : rd ≠ xzr) (hrn : rn ≠ sp) :
    s.Sets rd (s.x rn) [rd] (execAll origin (if rd = rn then [] else [mov rd rn]) s) := by
  split
  · rename_i heq
    exact ⟨by rw [heq]; rfl, .refl s [rd]⟩
  · exact sets_mov origin s hrd hrn

theorem sets_convertCore (htypes : types.Made) (hsource : types.isInteger source) (c : Ir.Conv)
    (hrd : rd ≠ xzr) (hrn : rn ≠ sp) {x : BitVec (types.width source)}
    (hx : s.x rn = types.canonical source x) :
    s.Sets rd (types.spread source x c) [rd] (execAll origin (convertCore types c.op source rd rn) s) := by
  obtain ⟨-, hpos, hle, -⟩ := htypes.bits_integer hsource
  have hextend : ∀ op : Bitfield, s.Sets rd (widen (op == .sbfm) (types.stored source x)) [rd]
      ((bitfield op rd rn 0 (topBit (types.bits source))).exec origin s) := by
    intro op
    rw [stored, ← hx, ← apply_bitfield hpos hle]
    exact sets_exec rfl hrd
  have hcopy : s.Sets rd (types.canonical source x) [rd]
      (execAll origin (if rd = rn then [] else [mov rd rn]) s) := hx ▸ sets_copy hrd hrn
  -- a copy will do if the source is extended in that way already, or fills the register
  have hsame : ∀ signed, (types.bits source < 64 → types.isSigned source = signed) →
      types.canonical source x = widen signed (types.stored source x) := by
    intro signed hsigned
    rw [← htypes.widen_stored hsource x]
    rcases lt_or_ge (types.bits source) 64 with hlt | hge
    · rw [hsigned hlt]
    · exact widen_of_eq (hle.antisymm hge) _ _ _
  cases c with
  | signExt =>
    simp only [convertCore, Ir.Conv.op]
    split
    · exact hextend .sbfm
    · rename_i hno
      rw [spread, ← hsame true fun hlt => by simpa [hlt] using hno]
      exact hcopy
  | zeroExt =>
    simp only [convertCore, Ir.Conv.op]
    split
    · exact hextend .ubfm
    · rename_i hno
      rw [spread, ← hsame false fun hlt => by simpa [hlt] using hno]
      exact hcopy
  | trunc => exact hcopy

theorem data_of_mem_convert {op : Op} {i : Instr} (hi : i ∈ convert types op source target rd rn) :
    i.isData ∧ (types.Made → types.isInteger source ∧ types.isInteger target → i.Fits) := by
  have hcopy : i ∈ (if rd = rn then [] else [mov rd rn]) → i.isData ∧ i.Fits := by
    intro hi
    split at hi
    · cases hi
    · exact mem_singleton.mp hi ▸ emits_mov rd rn
  have hextend : ∀ op : Bitfield, types.Made → types.isInteger source →
      (bitfield op rd rn 0 (topBit (types.bits source))).Fits := by
    intro op htypes hsource
    obtain ⟨-, hpos, hle, -⟩ := htypes.bits_integer hsource
    refine ⟨by decide, ?_⟩
    rw [topBit_eq hpos hle]
    omega
  rcases mem_append.mp (show i ∈ convertCore types op source rd rn ++ _ from hi) with hi | hi
  · unfold convertCore at hi
    dsimp only at hi
    split at hi
    · split at hi
      · exact mem_singleton.mp hi ▸ ⟨rfl, fun htypes hints => hextend .sbfm htypes hints.1⟩
      · exact (hcopy hi).imp_right fun h _ _ => h
    · split at hi
      · exact mem_singleton.mp hi ▸ ⟨rfl, fun htypes hints => hextend .ubfm htypes hints.1⟩
      · exact (hcopy hi).imp_right fun h _ _ => h
    · exact (hcopy hi).imp_right fun h _ _ => h
  · obtain ⟨settled, hi⟩ : ∃ settled : Bool, i ∈ if settled then [] else extendTo types target rd := ⟨_, hi⟩
    split at hi
    · cases hi
    · exact (data_of_mem_extendTo hi).imp_right fun h htypes hints => h htypes hints.2

theorem sets_convert (htypes : types.Made) (hconv : Ir.Func.convertible types c source target) (hrd : rd ≠ xzr)
    (hrn : rn ≠ sp) {x : BitVec (types.width source)} (hx : s.x rn = types.canonical source x) :
    s.Sets rd (if c = .zeroExt ∧ types.Sticks source target then widen false (types.stored source x)
      else types.canonical target (c.eval (types.stored source x) (types.width target))) [rd]
      (execAll origin (convert types c.op source target rd rn) s) := by
  simp only [Ir.Func.convertible, Bool.and_eq_true] at hconv
  obtain ⟨⟨hsource, htarget⟩, hsize⟩ := hconv
  obtain ⟨hpos, hle⟩ := htypes.width_integer htarget
  obtain ⟨hwidth, -, -, hsigned⟩ := htypes.bits_integer htarget
  have hcore : s.Sets rd (types.spread source x c) [rd]
      (execAll origin (convertCore types c.op source rd rn) s) := sets_convertCore htypes hsource c hrd hrn hx
  simp only [convert, execAll_append]
  cases c with
  | signExt =>
    have hbits := Nat.mul_le_mul_right 8 (of_decide_eq_true hsize)
    rw [Ir.Conv.eval]
    cases hs : types.isSigned target with
    | true =>
      rw [canonical, hs, widen_signExtend hpos (hsigned hs ▸ hbits)]
      exact hcore
    | false =>
      rw [← setWidth_widen_true hle]
      exact sets_then_extendTo hcore mem_cons_self htypes htarget hrd
  | zeroExt =>
    -- nothing follows the first step
    split
    · exact hcore
    · rename_i hno
      have hroom : ¬types.Sticks source target := fun h => hno ⟨rfl, h⟩
      rw [Ir.Conv.eval, canonical, widen_setWidth hpos hle (htypes.toNat_stored_lt hsource x) hroom]
      exact hcore
  | trunc =>
    have hbits : types.bits target ≤ types.bits source := Nat.mul_le_mul_right 8 (of_decide_eq_true hsize)
    rw [Ir.Conv.eval, stored, BitVec.setWidth_setWidth_of_le _ (hwidth.trans hbits)]
    exact sets_then_extendTo hcore mem_cons_self htypes htarget hrd

end Instr

/-- The code of an admissible conversion leaves the form of the target type in the register of the value,
whether or not that is the register of the source, and changes nothing else. The exception is an extension by
zeros to a type of the same size that is signed or boolean: it leaves the number of the source. -/
theorem conversion_reaches_target {t : Target} {v : ValueId} {rd rn : Reg} {c : Ir.Conv}
    (htypes : t.types.Made) (hop : (t.func.value v).op = c.op)
    (hconv : Ir.Func.convertible t.types c (t.func.value (t.func.arg v 0)).ty (t.func.value v).ty = true)
    (hd : t.InReg v rd) (hn : t.InReg (t.func.arg v 0) rn) (hrd : rd ≠ Reg.xzr) (hrn : rn ≠ Reg.sp) :
    Succeeds (t.emitConvert v) ∧ Achieves (t.emitConvert v) fun s s' =>
      ∀ x, s.x rn = t.types.canonical (t.func.value (t.func.arg v 0)).ty x → s.Sets rd
          (if c = .zeroExt ∧ t.types.Sticks (t.func.value (t.func.arg v 0)).ty (t.func.value v).ty then
            widen false (t.types.stored (t.func.value (t.func.arg v 0)).ty x)
          else t.types.canonical (t.func.value v).ty
            (c.eval (t.types.stored (t.func.value (t.func.arg v 0)).ty x) (t.types.width (t.func.value v).ty)))
          [rd] s' := by
  rw [Target.emitConvert, Target.reg_eq hd, Target.reg_eq hn, pure_bind, pure_bind, hop]
  have hints := hconv
  simp only [Ir.Func.convertible, Bool.and_eq_true] at hints
  apply computes_emitAll fun i hi => (Instr.data_of_mem_convert hi).imp_right fun h => h htypes hints.1
  intro origin s x hx
  exact Instr.sets_convert htypes hconv hrd hrn hx

/-- A parameter of eight bits and its conversion, which stays in the same register. -/
def narrowConversion (c : Ir.Conv) (source target : TypeId) : Target where
  func := { Func.new "convert" [source] target with
      values := #[⟨.arg, source, ⟨0, 0⟩, .int 0, 1, 0, some (.reg 0)⟩,
        ⟨c.op, target, ⟨0, 1⟩, .none, 1, 0, some (.reg 0)⟩]
      operands := #[0] }
  types := .builtins
  frame := .layout [] 0 0 false false
  edgeMoves := #[]

/-- Minus one becomes the greatest number without a sign. -/
theorem narrowConversion_reaches_target :
    TypeTable.builtins.Made ∧ Ir.Func.convertible .builtins .signExt TypeId.i8 TypeId.u32 = true ∧
    (narrowConversion .signExt TypeId.i8 TypeId.u32).InReg 1 0 ∧
    (narrowConversion .signExt TypeId.i8 TypeId.u32).InReg 0 0 ∧
    Succeeds ((narrowConversion .signExt TypeId.i8 TypeId.u32).emitConvert 1) ∧
    Achieves ((narrowConversion .signExt TypeId.i8 TypeId.u32).emitConvert 1) fun s s' =>
      s.x 0 = 0xFFFFFFFFFFFFFFFF#64 → s.Sets 0 0xFFFFFFFF#64 [0] s' := by
  have hd : (narrowConversion .signExt TypeId.i8 TypeId.u32).InReg 1 0 := ⟨[0], ⟨.reg 0, rfl, rfl, rfl⟩, rfl⟩
  have hn : (narrowConversion .signExt TypeId.i8 TypeId.u32).InReg 0 0 := ⟨[0], ⟨.reg 0, rfl, rfl, rfl⟩, rfl⟩
  obtain ⟨hsucceeds, hachieves⟩ := conversion_reaches_target (c := .signExt) (v := 1) .builtins rfl rfl hd hn
    (by decide) (by decide)
  refine ⟨.builtins, rfl, hd, hn, hsucceeds, hachieves.mono ?_⟩
  intro s s' hsets hx
  exact hsets 0xFF#8 hx

/-- A number of eight bits without a sign that is extended by zeros to eight bits with a sign: the register
keeps 200, which is not the form of any number of the target type. -/
theorem narrowConversion_sticks : Ir.Func.convertible .builtins .zeroExt TypeId.u8 TypeId.i8 = true ∧
    Achieves ((narrowConversion .zeroExt TypeId.u8 TypeId.i8).emitConvert 1) fun s s' =>
      s.x 0 = TypeTable.builtins.canonical TypeId.u8 200#8 →
        s'.x 0 = 200#64 ∧ ∀ y, s'.x 0 ≠ TypeTable.builtins.canonical TypeId.i8 y := by
  have hd : (narrowConversion .zeroExt TypeId.u8 TypeId.i8).InReg 1 0 := ⟨[0], ⟨.reg 0, rfl, rfl, rfl⟩, rfl⟩
  have hn : (narrowConversion .zeroExt TypeId.u8 TypeId.i8).InReg
      ((narrowConversion .zeroExt TypeId.u8 TypeId.i8).func.arg 1 0) 0 := ⟨[0], ⟨.reg 0, rfl, rfl, rfl⟩, rfl⟩
  have hconv : Ir.Func.convertible .builtins .zeroExt TypeId.u8 TypeId.i8 := rfl
  have hform : ∀ y : BitVec 8, 200#64 ≠ widen true y := by
    intro y hy
    have hlow := hy ▸ setWidth_widen true (by decide) y
    subst hlow
    exact absurd hy (by decide)
  refine ⟨hconv, ?_⟩
  rw [Target.emitConvert, Target.reg_eq hd, Target.reg_eq hn, pure_bind, pure_bind]
  have hne : (0 : Reg) ≠ 31 := by decide
  refine (computes_emitAll (fun i hi => (Instr.data_of_mem_convert hi).imp_right fun h => h .builtins ⟨rfl, rfl⟩) ?_).2
  intro origin s hx
  have hval : (Instr.execAll origin (Instr.convert .builtins .zeroExt TypeId.u8 TypeId.i8 0 0) s).x 0 =
      200#64 := (Instr.sets_convert .builtins hconv hne hne hx).1
  exact ⟨hval, fun y hy => hform y (hval.symm.trans hy)⟩

end SsaCodegen
