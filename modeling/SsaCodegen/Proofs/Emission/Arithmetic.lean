import SsaCodegen.Proofs.Emission.Straight
import SsaCodegen.Proofs.Numbers
import SsaCodegen.Ssa.Construction.Lowering

/-! Arithmetic on integers of every width. The machine calculates with whole registers, and the results are
those of the narrow type once they have been extended. -/

namespace SsaCodegen

open List BitVec Reg TypeTable

/-- The result of an operation on numbers of `w` bits, cut off to `w` bits. Quotients are rounded towards
zero, a division by zero gives zero and leaves the dividend, and shifts go by the amount modulo 64. -/
def Ir.BinOp.eval (signed : Bool) {w : Nat} (op : Ir.BinOp) (x y : BitVec w) : BitVec w :=
  let a := number signed x
  let b := number signed y
  let amount := (b % 64).toNat
  match op with
  | add => BitVec.ofInt w (a + b)
  | sub => BitVec.ofInt w (a - b)
  | mul => BitVec.ofInt w (a * b)
  | div => BitVec.ofInt w (a.tdiv b)
  | rem => BitVec.ofInt w (a.tmod b)
  | and => x &&& y
  | or => x ||| y
  | xor => x ^^^ y
  | shl => BitVec.ofInt w (a * 2 ^ amount)
  | shr => BitVec.ofInt w (a / 2 ^ amount)

def Ir.UnOp.eval (signed : Bool) {w : Nat} (op : Ir.UnOp) (x : BitVec w) : BitVec w :=
  match op with
  | neg => BitVec.ofInt w (-number signed x)
  | not => ~~~x

section

variable {signed : Bool} {w : Nat}

theorem setWidth_eval (hw : w ≤ 64) (op : Ir.BinOp) (x y : BitVec w) :
    (op.eval signed (widen signed x) (widen signed y)).setWidth w = op.eval signed x y := by
  cases op with
  | and | or | xor =>
    simp only [Ir.BinOp.eval, setWidth_and, setWidth_or, setWidth_xor, setWidth_widen _ hw]
  | _ => simp only [Ir.BinOp.eval, number_widen _ hw, setWidth_ofInt hw]

theorem widen_eval (hpos : 0 < w) (hw : w ≤ 64) {op : Ir.BinOp}
    (hop : Instr.overflows (op.op signed) = false) (x y : BitVec w) :
    widen signed (op.eval signed x y) = op.eval signed (widen signed x) (widen signed y) := by
  have hx := inRange_number signed x
  cases op with
  | add | sub | mul | shl => cases hop
  | div =>
    cases signed with
    | true => cases hop
    | false =>
      simp only [Ir.BinOp.eval, number_widen _ hw]
      exact widen_ofInt hpos (hx.tdiv (inRange_number false y).1)
  | rem =>
    simp only [Ir.BinOp.eval, number_widen _ hw]
    exact widen_ofInt hpos (hx.tmod _)
  | and => exact widen_and signed x y
  | or => exact widen_or signed x y
  | xor => exact widen_xor signed x y
  | shr =>
    simp only [Ir.BinOp.eval, number_widen _ hw]
    exact widen_ofInt hpos (hx.div_two_pow _)

theorem setWidth_eval_unary (hw : w ≤ 64) (op : Ir.UnOp) (x : BitVec w) :
    (op.eval signed (widen signed x)).setWidth w = op.eval signed x := by
  cases op with
  | neg => simp only [Ir.UnOp.eval, number_widen _ hw, setWidth_ofInt hw]
  | not => simp only [Ir.UnOp.eval, setWidth_not hw, setWidth_widen _ hw]

theorem toNat_mod_sixtyFour (signed : Bool) (y : BitVec 64) : y.toNat % 64 = (number signed y % 64).toNat := by
  have hmod : number signed y % 64 = (y.toNat : Int) % 64 := by
    cases signed with
    | true =>
      change y.toInt % 64 = _
      rw [toInt_eq_toNat_cond]
      split <;> omega
    | false => rfl
  omega

end

section

variable (signed : Bool) {w : Nat}

section

variable (x y : BitVec w)

include x y

theorem eval_add : Ir.BinOp.add.eval signed x y = x + y := by
  simp only [Ir.BinOp.eval, ofInt_add, ofInt_number]

theorem eval_sub : Ir.BinOp.sub.eval signed x y = x - y := by
  simp only [Ir.BinOp.eval, ofInt_sub, ofInt_number]

theorem eval_mul : Ir.BinOp.mul.eval signed x y = x * y := by
  simp only [Ir.BinOp.eval, ofInt_mul, ofInt_number]

theorem eval_div : Ir.BinOp.div.eval signed x y = if signed then x.sdiv y else x / y := by
  cases signed with
  | true => exact (sdiv_eq_ofInt x y).symm
  | false => exact (udiv_eq_ofInt x y).symm

theorem eval_rem : Ir.BinOp.rem.eval signed x y = x - Ir.BinOp.div.eval signed x y * y := by
  have hmod : Ir.BinOp.rem.eval signed x y =
      BitVec.ofInt w (number signed x - (number signed x).tdiv (number signed y) * number signed y) := by
    simp only [Ir.BinOp.eval, Int.tmod_def, Int.mul_comm]
  rw [hmod, ofInt_sub, ofInt_mul, ofInt_number, ofInt_number]
  rfl

end

theorem eval_shl (x y : BitVec 64) : Ir.BinOp.shl.eval signed x y = x <<< (y.toNat % 64) := by
  rw [toNat_mod_sixtyFour signed, shiftLeft_eq_ofInt signed]
  rfl

theorem eval_shr (x y : BitVec 64) : Ir.BinOp.shr.eval signed x y =
    if signed then x.sshiftRight (y.toNat % 64) else x >>> (y.toNat % 64) := by
  rw [toNat_mod_sixtyFour signed]
  cases signed with
  | true => exact (sshiftRight_eq_ofInt x _).symm
  | false => exact (ushiftRight_eq_ofInt x _).symm

theorem eval_neg (x : BitVec w) : Ir.UnOp.neg.eval signed x = -x := by
  simp only [Ir.UnOp.eval, ofInt_neg, ofInt_number]

end

namespace Instr

variable {s : Machine} {origin : BitVec 64} {rd rn rm a b : Reg} {types : TypeTable} {ty : TypeId}
  {w : Nat} {i : Instr} {op : Op}

theorem sets_add (hrd : rd ≠ xzr) : s.Sets rd (s.x rn + s.x rm) [rd] ((add rd rn rm).exec origin s) := by
  apply sets_exec _ hrd
  rw [← shiftLeft_zero (s.x rm)]
  rfl

theorem sets_sub (hrd : rd ≠ xzr) : s.Sets rd (s.x rn - s.x rm) [rd] ((sub rd rn rm).exec origin s) := by
  apply sets_exec _ hrd
  rw [← AddSub.apply_sub, ← shiftLeft_zero (s.x rm)]
  rfl

theorem sets_dataProc2 (op : DataOp2) (hrd : rd ≠ xzr) :
    s.Sets rd (op.apply (s.x rn) (s.x rm)) [rd] ((dataProc2 op rd rn rm).exec origin s) := sets_exec rfl hrd

theorem sets_dataProc3 (op : DataOp3) {ra : Reg} (hrd : rd ≠ xzr) :
    s.Sets rd (op.apply (s.x rn) (s.x rm) (s.x ra)) [rd] ((dataProc3 op rd rn rm ra).exec origin s) :=
  sets_exec rfl hrd

theorem sets_mul (hrd : rd ≠ xzr) : s.Sets rd (s.x rn * s.x rm) [rd] ((mul rd rn rm).exec origin s) := by
  have h : s.Sets rd (s.x xzr + s.x rn * s.x rm) [rd] ((mul rd rn rm).exec origin s) :=
    sets_dataProc3 .madd hrd
  rwa [Machine.x_xzr, BitVec.zero_add] at h

theorem sets_neg (hrd : rd ≠ xzr) : s.Sets rd (-s.x rn) [rd] ((neg rd rn).exec origin s) := by
  have h : s.Sets rd (s.x xzr - s.x rn) [rd] ((neg rd rn).exec origin s) := sets_sub hrd
  rwa [Machine.x_xzr] at h

theorem sets_mvn (hrd : rd ≠ xzr) : s.Sets rd (~~~s.x rn) [rd] ((mvn rd rn).exec origin s) := by
  have h : s.Sets rd (s.x xzr ||| ~~~s.x rn) [rd] ((mvn rd rn).exec origin s) := sets_exec rfl hrd
  rwa [Machine.x_xzr, zero_or] at h

theorem sets_remainder (op : DataOp2) (hrd : rd ≠ xzr) (ha : a ≠ scratch) (hb : b ≠ scratch) :
    s.Sets rd (s.x a - op.apply (s.x a) (s.x b) * s.x b) [rd, scratch]
      (execAll origin [dataProc2 op scratch a b, msub rd scratch b a] s) := by
  have hquot : s.Sets scratch (op.apply (s.x a) (s.x b)) [scratch]
      ((dataProc2 op scratch a b).exec origin s) := sets_dataProc2 op (by decide)
  generalize hs' : (dataProc2 op scratch a b).exec origin s = s' at hquot
  obtain ⟨hq, hdiff⟩ := hquot
  have hrem : s'.Sets rd (s'.x a - s'.x scratch * s'.x b) [rd] ((msub rd scratch b a).exec origin s') :=
    sets_dataProc3 .msub hrd
  rw [hq, hdiff.others a (mem_singleton.not.mpr ha), hdiff.others b (mem_singleton.not.mpr hb)] at hrem
  change s.Sets rd _ _ ((msub rd scratch b a).exec origin ((dataProc2 op scratch a b).exec origin s))
  rw [hs']
  refine ⟨hrem.1, (hdiff.mono ?_).trans (hrem.2.mono ?_)⟩ <;> simp

theorem sets_binaryCore {signed : Bool} (op : Ir.BinOp) (hrd : rd ≠ xzr) (ha : a ≠ scratch)
    (hb : b ≠ scratch) : s.Sets rd (op.eval signed (s.x a) (s.x b)) [rd, scratch]
      (execAll origin (binaryCore (op.op signed) rd a b) s) := by
  -- all but the remainders take one instruction, which leaves the scratch register alone
  have hone : ∀ {i : Instr} {v : BitVec 64}, s.Sets rd v [rd] (i.exec origin s) →
      s.Sets rd v [rd, scratch] (execAll origin [i] s) :=
    fun h => h.mono (by simp)
  cases op with
  | add => exact eval_add signed _ _ ▸ hone (sets_add hrd)
  | sub => exact eval_sub signed _ _ ▸ hone (sets_sub hrd)
  | mul => exact eval_mul signed _ _ ▸ hone (sets_mul hrd)
  | div =>
    rw [eval_div]
    cases signed with
    | true => exact hone (sets_dataProc2 .sdiv hrd)
    | false => exact hone (sets_dataProc2 .udiv hrd)
  | rem =>
    rw [eval_rem, eval_div]
    cases signed with
    | true => exact sets_remainder .sdiv hrd ha hb
    | false => exact sets_remainder .udiv hrd ha hb
  | and | or | xor => exact hone (sets_exec rfl hrd)
  | shl => exact eval_shl signed _ _ ▸ hone (sets_dataProc2 .lslv hrd)
  | shr =>
    rw [eval_shr]
    cases signed with
    | true => exact hone (sets_dataProc2 .asrv hrd)
    | false => exact hone (sets_dataProc2 .lsrv hrd)

theorem sets_unaryCore {signed : Bool} (op : Ir.UnOp) (hrd : rd ≠ xzr) : s.Sets rd (op.eval signed (s.x a)) [rd]
      ((if op.op = .neg then neg rd a else mvn rd a).exec origin s) := by
  cases op with
  | neg => exact eval_neg signed _ ▸ sets_neg hrd
  | not => exact sets_mvn hrd

theorem topBit_eq (hpos : 0 < w) (hw : w ≤ 64) : topBit w = w - 1 := by
  rw [topBit]
  omega

theorem apply_bitfield (hpos : 0 < w) (hw : w ≤ 64) (op : Bitfield) (x : BitVec 64) :
    op.apply x 0 (topBit w) = widen (op == .sbfm) (x.setWidth w) := by
  have hbits : (topBit w + 1 - if 0 ≤ topBit w then 0 else 0) = w := by
    rw [if_pos (Nat.zero_le _), topBit_eq hpos hw]
    omega
  simp only [Bitfield.apply, if_pos (Nat.zero_le (topBit w)), shiftLeft_zero]
  rw [hbits, ← setWidth_eq_extractLsb' hw]
  cases op <;> rfl

theorem sets_extendTo (htypes : types.Made) (hty : types.isInteger ty) (hrd : rd ≠ xzr) :
    s.Sets rd (types.canonical ty ((s.x rd).setWidth (types.width ty))) [rd]
      (execAll origin (extendTo types ty rd) s) := by
  obtain ⟨hpos, hle⟩ := htypes.width_integer hty
  -- the two extensions, and the whole register, at any width
  have hext : ∀ (op : Bitfield) {w : Nat}, 0 < w → w ≤ 64 → s.Sets rd (widen (op == .sbfm) ((s.x rd).setWidth w)) [rd]
        ((bitfield op rd rd 0 (topBit w)).exec origin s) :=
    fun op w hpos hw => apply_bitfield hpos hw op (s.x rd) ▸ sets_exec rfl hrd
  have hwhole : ∀ {w : Nat} (signed : Bool), w = 64 → s.Sets rd (widen signed ((s.x rd).setWidth w)) [rd] s := by
    rintro w signed rfl
    refine ⟨?_, .refl s [rd]⟩
    rw [setWidth_eq, widen_self]
  rw [extendTo, canonical_setWidth]
  rw [width] at hpos hle
  cases hkind : types.kind ty with
  | int bits signed =>
    rw [hkind] at hpos hle
    dsimp only at hpos hle ⊢
    split
    · cases signed with
      | true => exact hext .sbfm hpos hle
      | false => exact hext .ubfm hpos hle
    · exact hwhole signed (by omega)
  | bool => exact hext .ubfm (by decide) (by decide)
  | ptr => exact hwhole false rfl
  | void | mem | slice | struct _ _ =>
    rw [isInteger, hkind] at hty
    cases hty

theorem sets_then_extendTo {s' : Machine} {v : BitVec 64} {rs : List Reg} (h : s.Sets rd v rs s')
    (hmem : rd ∈ rs) (htypes : types.Made) (hty : types.isInteger ty) (hrd : rd ≠ xzr) :
    s.Sets rd (types.canonical ty (v.setWidth (types.width ty))) rs (execAll origin (extendTo types ty rd) s') := by
  have hext : s'.Sets rd (types.canonical ty ((s'.x rd).setWidth _)) [rd]
      (execAll origin (extendTo types ty rd) s') := sets_extendTo htypes hty hrd
  rw [h.1] at hext
  exact ⟨hext.1, h.2.trans (hext.2.mono (by simpa using hmem))⟩

section

variable (htypes : types.Made) (hty : types.isInteger ty)

include htypes hty

theorem sets_binary (hrd : rd ≠ xzr) (ha : a ≠ scratch) (hb : b ≠ scratch) (op : Ir.BinOp)
    {x y : BitVec (types.width ty)} (hx : s.x a = types.canonical ty x) (hy : s.x b = types.canonical ty y) :
    s.Sets rd (types.canonical ty (op.eval (types.isSigned ty) x y)) [rd, scratch]
      (execAll origin (binary types (op.op (types.isSigned ty)) ty rd a b) s) := by
  obtain ⟨hpos, hle⟩ := htypes.width_integer hty
  have hcore : s.Sets rd (op.eval (types.isSigned ty) (s.x a) (s.x b)) [rd, scratch]
      (execAll origin (binaryCore (op.op (types.isSigned ty)) rd a b) s) := sets_binaryCore op hrd ha hb
  rw [hx, hy] at hcore
  rw [binary, execAll_append]
  split
  · -- the result may have left its range, and the extension takes its low bits alone
    rw [← setWidth_eval hle]
    exact sets_then_extendTo hcore mem_cons_self htypes hty hrd
  · rename_i hop
    rw [canonical, widen_eval hpos hle (Bool.not_eq_true _ ▸ hop)]
    exact hcore

theorem sets_unary (hrd : rd ≠ xzr) (op : Ir.UnOp) {x : BitVec (types.width ty)}
    (hx : s.x a = types.canonical ty x) : s.Sets rd (types.canonical ty (op.eval (types.isSigned ty) x)) [rd]
      (execAll origin (unary types op.op ty rd a) s) := by
  have hcore : s.Sets rd (op.eval (types.isSigned ty) (s.x a)) [rd]
      (exec origin s (if op.op = .neg then neg rd a else mvn rd a)) := sets_unaryCore op hrd
  rw [hx] at hcore
  rw [← setWidth_eval_unary (htypes.width_integer hty).2]
  exact sets_then_extendTo hcore mem_cons_self htypes hty hrd

end

theorem data_of_mem_extendTo (hi : i ∈ extendTo types ty rd) :
    i.isData ∧ (types.Made → types.isInteger ty → i.Fits) := by
  have hfits : ∀ (op : Bitfield) {w : Nat}, 0 < w → w ≤ 64 → (bitfield op rd rd 0 (topBit w)).Fits := by
    intro op w hpos hle
    refine ⟨by decide, ?_⟩
    rw [topBit_eq hpos hle]
    omega
  rw [extendTo] at hi
  split at hi
  · rename_i bits signed hkind
    split at hi
    · rw [mem_singleton.mp hi]
      refine ⟨by cases signed <;> rfl, fun htypes hty => ?_⟩
      obtain ⟨hpos, hle⟩ := htypes.width_integer hty
      rw [width, hkind] at hpos hle
      cases signed with
      | true => exact hfits .sbfm hpos hle
      | false => exact hfits .ubfm hpos hle
    · cases hi
  · rw [mem_singleton.mp hi]
    exact ⟨rfl, fun _ _ => hfits .ubfm (by decide) (by decide)⟩
  · cases hi

theorem data_of_mem_binary {op : Op} (hi : i ∈ binary types op ty rd a b) :
    i.isData ∧ (types.Made → types.isInteger ty → i.Fits) := by
  rcases mem_append.mp hi with hi | hi
  · cases op <;> simp only [binaryCore, mem_cons, not_mem_nil, or_false] at hi
    case srem | urem => rcases hi with rfl | rfl <;> exact ⟨rfl, fun _ _ => trivial⟩
    case add | sub => exact hi ▸ ⟨rfl, fun _ _ => (by decide : 0 < 64)⟩
    all_goals exact hi ▸ ⟨rfl, fun _ _ => trivial⟩
  · split at hi
    · exact data_of_mem_extendTo hi
    · cases hi

theorem data_of_mem_unary {op : Op} (hi : i ∈ unary types op ty rd a) :
    i.isData ∧ (types.Made → types.isInteger ty → i.Fits) := by
  rcases mem_cons.mp hi with rfl | hi
  · split
    · exact ⟨rfl, fun _ _ => (by decide : 0 < 64)⟩
    · exact ⟨rfl, fun _ _ => trivial⟩
  · exact data_of_mem_extendTo hi

end Instr

theorem computes_emitAll {is : List Instr} {Q : Machine → Machine → Prop} (h : ∀ i ∈ is, i.isData ∧ i.Fits)
    (hQ : ∀ origin s, Q s (Instr.execAll origin is s)) : Succeeds (emitAll is) ∧ Achieves (emitAll is) Q :=
  ⟨succeeds_emitAll fun i hi => (h i hi).2, achieves_emitAll (fun i hi => Instr.direct_of_isData (h i hi).1) hQ⟩

/-- The code of an arithmetic operation leaves its result, at the width of its type, in the register of the
value, whether or not that is the register of an operand. It changes no other register but the scratch
register, and neither memory nor the flags. -/
theorem arithmetic_stays_canonical {t : Target} {v : ValueId} {rd a : Reg} (htypes : t.types.Made)
    (hty : t.types.isInteger (t.func.value v).ty = true) (hd : t.InReg v rd)
    (ha : t.InReg (t.func.arg v 0) a) (hrd : rd ≠ Reg.xzr) (hscratch : a ≠ scratch) :
    (∀ op : Ir.UnOp, (t.func.value v).op = op.op →
      Succeeds (t.emitUnary v) ∧ Achieves (t.emitUnary v) fun s s' =>
        ∀ x, s.x a = t.types.canonical (t.func.value v).ty x → s.Sets rd (t.types.canonical (t.func.value v).ty
            (op.eval (t.types.isSigned (t.func.value v).ty) x)) [rd, scratch] s') ∧
    ∀ (op : Ir.BinOp) (b : Reg), (t.func.value v).op = op.op (t.types.isSigned (t.func.value v).ty) →
      t.InReg (t.func.arg v 1) b → b ≠ scratch →
      Succeeds (t.emitBinary v) ∧ Achieves (t.emitBinary v) fun s s' =>
        ∀ x y, s.x a = t.types.canonical (t.func.value v).ty x → s.x b = t.types.canonical (t.func.value v).ty y →
          s.Sets rd (t.types.canonical (t.func.value v).ty
            (op.eval (t.types.isSigned (t.func.value v).ty) x y)) [rd, scratch] s' := by
  constructor
  · intro op hop
    rw [Target.emitUnary, Target.reg_eq hd, Target.reg_eq ha, pure_bind, pure_bind, hop]
    apply computes_emitAll fun i hi => (Instr.data_of_mem_unary hi).imp_right fun h => h htypes hty
    intro origin s x hx
    exact (Instr.sets_unary htypes hty hrd op hx).mono (by simp)
  · intro op b hop hb hb'
    rw [Target.emitBinary, Target.reg_eq hd, Target.reg_eq ha, Target.reg_eq hb, pure_bind, pure_bind,
      pure_bind, hop]
    apply computes_emitAll fun i hi => (Instr.data_of_mem_binary hi).imp_right fun h => h htypes hty
    intro origin s x y hx hy
    exact Instr.sets_binary htypes hty hrd hscratch hb' op hx hy

/-- Two parameters of eight bits and their quotient, which takes the register of the dividend. -/
def narrowQuotient : Target where
  func := { Func.new "quotient" [TypeId.i8, TypeId.i8] TypeId.i8 with
      values := #[⟨.arg, TypeId.i8, ⟨0, 0⟩, .int 0, 1, 0, some (.reg 0)⟩,
        ⟨.arg, TypeId.i8, ⟨0, 0⟩, .int 1, 1, 0, some (.reg 1)⟩,
        ⟨.sdiv, TypeId.i8, ⟨0, 2⟩, .none, 1, 0, some (.reg 0)⟩]
      operands := #[0, 1] }
  types := .builtins
  frame := .layout [] 0 0 false false
  edgeMoves := #[]

/-- The least number divided by minus one wraps round to itself. -/
theorem narrowQuotient_stays_canonical :
    narrowQuotient.types.Made ∧ narrowQuotient.types.isInteger (narrowQuotient.func.value 2).ty = true ∧
    narrowQuotient.InReg 2 0 ∧ narrowQuotient.InReg (narrowQuotient.func.arg 2 0) 0 ∧
    narrowQuotient.InReg (narrowQuotient.func.arg 2 1) 1 ∧ Succeeds (narrowQuotient.emitBinary 2) ∧
    Achieves (narrowQuotient.emitBinary 2) fun s s' => s.x 0 = 0xFFFFFFFFFFFFFF80#64 →
      s.x 1 = 0xFFFFFFFFFFFFFFFF#64 → s.Sets 0 0xFFFFFFFFFFFFFF80#64 [0, scratch] s' := by
  have hd : narrowQuotient.InReg 2 0 := ⟨[0], ⟨.reg 0, rfl, rfl, rfl⟩, rfl⟩
  have ha : narrowQuotient.InReg (narrowQuotient.func.arg 2 0) 0 := ⟨[0], ⟨.reg 0, rfl, rfl, rfl⟩, rfl⟩
  have hb : narrowQuotient.InReg (narrowQuotient.func.arg 2 1) 1 := ⟨[1], ⟨.reg 1, rfl, rfl, rfl⟩, rfl⟩
  obtain ⟨hsucceeds, hachieves⟩ := (arithmetic_stays_canonical .builtins rfl hd ha (by decide)
    (by decide)).2 .div 1 rfl hb (by decide)
  refine ⟨.builtins, rfl, hd, ha, hb, hsucceeds, hachieves.mono ?_⟩
  intro s s' hsets hx hy
  exact hsets 0x80#8 0xFF#8 hx hy

end SsaCodegen
