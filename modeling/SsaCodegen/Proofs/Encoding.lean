import SsaCodegen.Machine.Encoding
import SsaCodegen.Proofs.Stateful

/-! Encoding and decoding are inverse to each other. A word is a sequence of bit fields, and the fixed fields of
the classes tell these apart. -/

namespace SsaCodegen

open List Option

namespace Word

@[simp] def width : List Nat → Nat
  | [] => 0
  | n :: ns => n + width ns

@[simp] def split (w : Word) : List Nat → List (Nat × Nat)
  | [] => []
  | n :: ns => (n, w.field (width ns) n) :: w.split ns

def value (fields : List (Nat × Nat)) : Nat :=
  fields.foldl (fun acc f => acc * Nat.pow 2 f.1 + f.2) 0

variable {w : Word} {fields : List (Nat × Nat)} {widths : List Nat}

theorem pow_width_cons (n : Nat) (ns : List Nat) :
    Nat.pow 2 (width (n :: ns)) = Nat.pow 2 (width ns) * Nat.pow 2 n := by
  rw [Nat.mul_comm]
  exact Nat.pow_add 2 n (width ns)

theorem foldl_fields (fields : List (Nat × Nat)) : ∀ a, fields.foldl (fun acc f => acc * Nat.pow 2 f.1 + f.2) a =
    a * Nat.pow 2 (width (fields.map Prod.fst)) + value fields := by
  induction fields with
  | nil => exact fun a => (Nat.mul_one a).symm
  | cons f fields ih =>
    intro a
    have hvalue : value (f :: fields) =
        (0 * Nat.pow 2 f.1 + f.2) * Nat.pow 2 (width (fields.map Prod.fst)) + value fields := by
      exact ih _
    rw [foldl_cons, ih, hvalue, map_cons, pow_width_cons, Nat.add_mul, Nat.add_mul,
      Nat.zero_mul, Nat.zero_mul, Nat.zero_add, Nat.mul_assoc, Nat.mul_comm (Nat.pow 2 f.1), Nat.add_assoc]

theorem value_cons (f : Nat × Nat) (fields : List (Nat × Nat)) :
    value (f :: fields) = f.2 * Nat.pow 2 (width (fields.map Prod.fst)) + value fields := by
  rw [value, foldl_cons, foldl_fields, Nat.zero_mul, Nat.zero_add]

theorem value_lt (h : ∀ f ∈ fields, f.2 < Nat.pow 2 f.1) :
    value fields < Nat.pow 2 (width (fields.map Prod.fst)) := by
  induction fields with
  | nil => exact Nat.one_pos
  | cons f fields ih =>
    obtain ⟨hf, hrest⟩ := forall_mem_cons.mp h
    rw [value_cons, map_cons, pow_width_cons]
    calc f.2 * Nat.pow 2 (width (fields.map Prod.fst)) + value fields
        < f.2 * Nat.pow 2 (width (fields.map Prod.fst)) + Nat.pow 2 (width (fields.map Prod.fst)) :=
          Nat.add_lt_add_left (ih hrest) _
      _ = (f.2 + 1) * Nat.pow 2 (width (fields.map Prod.fst)) := (Nat.succ_mul ..).symm
      _ ≤ Nat.pow 2 f.1 * Nat.pow 2 (width (fields.map Prod.fst)) := Nat.mul_le_mul_right _ hf
      _ = Nat.pow 2 (width (fields.map Prod.fst)) * Nat.pow 2 f.1 := Nat.mul_comm ..

theorem field_lt (w : Word) (lo n : Nat) : w.field lo n < Nat.pow 2 n :=
  Nat.mod_lt _ (Nat.pow_pos (by decide))

theorem field_sub (w : Word) (lo n k m : Nat) (h : k + m ≤ n) :
    w.field lo n / Nat.pow 2 k % Nat.pow 2 m = w.field (lo + k) m := by
  obtain ⟨r, rfl⟩ := Nat.exists_eq_add_of_le h
  have hpow : Nat.pow 2 (k + m + r) = Nat.pow 2 k * (Nat.pow 2 m * Nat.pow 2 r) := by
    rw [← Nat.mul_assoc]
    exact (Nat.pow_add 2 (k + m) r).trans (congrArg (· * Nat.pow 2 r) (Nat.pow_add 2 k m))
  have hlo : Nat.pow 2 (lo + k) = Nat.pow 2 lo * Nat.pow 2 k := Nat.pow_add 2 lo k
  rw [field, field, hpow, Nat.mod_mul_right_div_self, Nat.mod_mul_right_mod, Nat.div_div_eq_div_mul, hlo]

theorem mod_width_cons (w : Word) (n : Nat) (ns : List Nat) : w.toNat % Nat.pow 2 (width (n :: ns)) =
    w.field (width ns) n * Nat.pow 2 (width ns) + w.toNat % Nat.pow 2 (width ns) := by
  rw [pow_width_cons, Nat.mod_mul, Nat.add_comm, Nat.mul_comm (Nat.pow 2 (width ns))]
  rfl

theorem value_split (w : Word) (widths : List Nat) :
    value (w.split widths) = w.toNat % Nat.pow 2 (width widths) ∧ (w.split widths).map Prod.fst = widths := by
  induction widths with
  | nil => exact ⟨(Nat.mod_one _).symm, rfl⟩
  | cons n ns ih =>
    rw [split, value_cons, map_cons, mod_width_cons, ih.1, ih.2]
    exact ⟨rfl, rfl⟩

theorem split_of_mod (hfit : ∀ f ∈ fields, f.2 < Nat.pow 2 f.1)
    (h : w.toNat % Nat.pow 2 (width (fields.map Prod.fst)) = value fields) :
    w.split (fields.map Prod.fst) = fields := by
  induction fields with
  | nil => rfl
  | cons f fields ih =>
    obtain ⟨_, hrest⟩ := forall_mem_cons.mp hfit
    have hlt := value_lt hrest
    rw [map_cons, mod_width_cons, value_cons] at h
    have hrem := congrArg (· % Nat.pow 2 (width (fields.map Prod.fst))) h
    simp only [Nat.mul_add_mod_self_right, Nat.mod_mod, Nat.mod_eq_of_lt hlt] at hrem
    rw [hrem] at h
    have hfield := Nat.eq_of_mul_eq_mul_right (Nat.pow_pos Nat.two_pos) (Nat.add_right_cancel h)
    rw [map_cons, split, hfield, ih hrest hrem]

theorem split_ofFields (hfit : ∀ f ∈ fields, f.2 < Nat.pow 2 f.1)
    (hwidth : width (fields.map Prod.fst) = 32) : (ofFields fields).split (fields.map Prod.fst) = fields := by
  have hlt := value_lt hfit
  apply split_of_mod hfit
  rw [hwidth] at hlt ⊢
  change (BitVec.ofNat 32 (value fields)).toNat % _ = _
  rw [BitVec.toNat_ofNat, Nat.mod_mod]
  exact Nat.mod_eq_of_lt hlt

theorem ofFields_split (w : Word) (hwidth : width widths = 32) : ofFields (w.split widths) = w := by
  apply BitVec.eq_of_toNat_eq
  change (BitVec.ofNat 32 (value (w.split widths))).toNat = _
  rw [(value_split w widths).1, hwidth]
  exact (Nat.mod_mod ..).trans (Nat.mod_eq_of_lt w.isLt)

end Word

section

def FitsSigned (offset : Int) (scale bits : Nat) : Prop :=
  (scale : Int) ∣ offset ∧ -(Nat.pow 2 (bits - 1) : Nat) * (scale : Int) ≤ offset ∧
    offset < (Nat.pow 2 (bits - 1) : Nat) * (scale : Int)

def signedUnits (offset : Int) (scale bits : Nat) : Nat :=
  (offset / scale % (Nat.pow 2 bits : Nat)).toNat

variable {what : Immediate} {offset u : Int} {scale bits n : Nat}

theorem fitsSigned_mul (hscale : 0 < scale) : FitsSigned (u * scale) scale bits ↔
    -(Nat.pow 2 (bits - 1) : Nat) ≤ u ∧ u < (Nat.pow 2 (bits - 1) : Nat) := by
  have hpos := Int.natCast_pos.mpr hscale
  constructor
  · intro ⟨_, hle, hlt⟩
    exact ⟨Int.le_of_mul_le_mul_right hle hpos, Int.lt_of_mul_lt_mul_right hlt (Int.le_of_lt hpos)⟩
  · intro ⟨hle, hlt⟩
    exact ⟨Int.dvd_mul_left _ _, Int.mul_le_mul_of_nonneg_right hle (Int.le_of_lt hpos),
      Int.mul_lt_mul_of_pos_right hlt hpos⟩

theorem scaledSigned_eq_ok (hscale : 0 < scale) : scaledSigned what offset scale bits = .ok n ↔
    FitsSigned offset scale bits ∧ n = signedUnits offset scale bits := by
  have hne : (scale : Int) ≠ 0 := by omega
  rw [scaledSigned]
  by_cases hdvd : (scale : Int) ∣ offset
  · obtain ⟨u, rfl⟩ := hdvd
    rw [if_neg (not_not.mpr (Int.mul_emod_right _ _)), Int.mul_comm, fitsSigned_mul hscale, signedUnits,
      Int.mul_ediv_cancel _ hne]
    simp only
    split
    · next h =>
      refine ⟨fun heq => absurd heq nofun, fun ⟨⟨hle, hlt⟩, _⟩ => ?_⟩
      omega
    · next h =>
      rw [Except.ok.injEq]
      omega
  · rw [if_pos fun hzero => hdvd (Int.dvd_of_emod_eq_zero hzero)]
    exact ⟨fun heq => absurd heq nofun, fun h => absurd h.1.1 hdvd⟩

theorem two_pow_bits (hbits : 0 < bits) : Nat.pow 2 bits = 2 * Nat.pow 2 (bits - 1) := by
  obtain ⟨k, rfl⟩ := Nat.exists_eq_add_of_le hbits
  rw [Nat.add_comm]
  exact Nat.pow_succ'

theorem signedField_signedUnits (hscale : 0 < scale) (hbits : 0 < bits) (h : FitsSigned offset scale bits) :
    signedField bits (signedUnits offset scale bits) * scale = offset := by
  obtain ⟨u, hu⟩ := h.1
  rw [Int.mul_comm] at hu
  subst hu
  obtain ⟨hle, hlt⟩ := (fitsSigned_mul hscale).mp h
  have hunits : u * scale / scale = u := Int.mul_ediv_cancel _ (by omega)
  have hpow := two_pow_bits hbits
  rw [signedUnits, hunits, signedField]
  congr 1
  by_cases hneg : u < 0
  · have hmod : u % (Nat.pow 2 bits : Nat) = u + (Nat.pow 2 bits : Nat) := by
      rw [← Int.add_emod_right]
      exact Int.emod_eq_of_lt (by omega) (by omega)
    omega
  · rw [Int.emod_eq_of_lt (by omega) (by omega)]
    omega

theorem signedUnits_signedField (u : Int) (scale bits : Nat) (hu : u = scale) (hscale : 0 < scale) (hbits : 0 < bits)
    (hn : n < Nat.pow 2 bits) :
    FitsSigned (signedField bits n * u) scale bits ∧ signedUnits (signedField bits n * u) scale bits = n := by
  subst hu
  have hunits : signedField bits n * scale / scale = signedField bits n := Int.mul_ediv_cancel _ (by omega)
  have hpow := two_pow_bits hbits
  rw [fitsSigned_mul hscale, signedUnits, hunits, signedField]
  split
  · rw [Int.emod_eq_of_lt (by omega) (by omega)]
    omega
  · rw [Int.sub_emod_right, Int.emod_eq_of_lt (by omega) (by omega)]
    omega

theorem bounded_eq_ok {value max : Nat} : bounded what value max = .ok n ↔ value ≤ max ∧ n = value := by
  rw [bounded]
  split
  · next h => rw [Except.ok.injEq, eq_comm, and_iff_right h]
  · next h => exact ⟨fun heq => absurd heq nofun, fun hle => absurd hle.1 h⟩

end

/-- `bits` numbers the members of a type by `n` bits each, and `ofBits?` reads the numbers back. -/
structure FieldCode {α : Type} (n : Nat) (bits : α → Nat) (ofBits? : Nat → Option α) : Prop where
  lt : ∀ x, bits x < Nat.pow 2 n
  ofBits_bits : ∀ x, ofBits? (bits x) = some x
  bits_ofBits : ∀ k x, k < Nat.pow 2 n → ofBits? k = some x → bits x = k

theorem FieldCode.of_table {α : Type} {n : Nat} {bits : α → Nat} {ofBits? : Nat → Option α}
    (hbits : ∀ x, bits x < Nat.pow 2 n ∧ ofBits? (bits x) = some x)
    (hread : ∀ k < Nat.pow 2 n, ∀ x ∈ ofBits? k, bits x = k) : FieldCode n bits ofBits? :=
  ⟨fun x => (hbits x).1, fun x => (hbits x).2, fun k x hk hx => hread k hk x hx⟩

theorem AddSub.code : FieldCode 2 bits (fun k => some (ofBits k)) := .of_table (by rintro ⟨⟩ <;> decide) (by decide)

theorem Logic.code : FieldCode 2 bits (fun k => some (ofBits k)) := .of_table (by rintro ⟨⟩ <;> decide) (by decide)

theorem MovWide.code : FieldCode 2 bits ofBits? := .of_table (by rintro ⟨⟩ <;> decide) (by decide)

theorem DataOp2.code : FieldCode 6 bits ofBits? := .of_table (by rintro ⟨⟩ <;> decide) (by decide)

theorem DataOp3.code : FieldCode 1 bits (fun k => some (ofBits k)) := .of_table (by rintro ⟨⟩ <;> decide) (by decide)

theorem Bitfield.code : FieldCode 2 bits ofBits? := .of_table (by rintro ⟨⟩ <;> decide) (by decide)

theorem CondSelect.code : FieldCode 1 bits (fun k => some (ofBits k)) := .of_table (by rintro ⟨⟩ <;> decide) (by decide)

theorem MemSize.code : FieldCode 2 bits (fun k => some (ofBits k)) := .of_table (by rintro ⟨⟩ <;> decide) (by decide)

theorem PairMode.code : FieldCode 2 bits ofBits? := .of_table (by rintro ⟨⟩ <;> decide) (by decide)

theorem FlagCond.code : FieldCode 4 bits ofBits? := .of_table (by rintro ⟨⟩ <;> decide) (by decide)

theorem MemOp.ofBits?_bits (op : MemOp) (size : MemSize) : ofBits? (op.bits size) size =
    if op = .loadSigned ∧ size = .x then some .load else some op := by
  cases op <;> cases size <;> rfl

theorem MemOp.bits_of_ofBits? {k : Nat} {op : MemOp} {size : MemSize} (h : ofBits? k size = some op) :
    op.bits size = k := by
  unfold ofBits? at h
  split at h <;> cases h
  · rfl
  · cases size <;> rfl
  · cases size <;> first | rfl | contradiction

namespace Instr

/-- All immediates fit their fields, and offsets are multiples of the access size. -/
def Fits : Instr → Prop
  | addSubReg _ _ _ _ shift => shift < 64
  | addSubImm _ _ _ imm12 _ => imm12 < 4096
  | movWide _ _ _ hw => hw < 4
  | bitfield _ _ _ immr imms => immr < 64 ∧ imms < 64
  | loadStore _ size _ _ offset => size.bytes ∣ offset ∧ offset < 4096 * size.bytes
  | loadStorePair _ _ _ _ _ offset => FitsSigned offset 8 7
  | branch _ offset => FitsSigned offset 4 26
  | branchCond _ offset => FitsSigned offset 4 19
  | compareBranch _ _ offset => FitsSigned offset 4 19
  | adrp _ pages => FitsSigned pages 1 21
  | logical .. | dataProc2 .. | dataProc3 .. | condSelect .. | ret .. => True

/-- The fields of the word of an instruction, from the highest down. -/
def layout : Instr → List (Nat × Nat)
  | addSubReg op rd rn rm shift =>
    [(1, 1), (2, op.bits), (5, 0b01011), (3, 0), (5, rm), (6, shift), (5, rn), (5, rd)]
  | addSubImm op rd rn imm12 shift12 =>
    [(1, 1), (2, op.bits), (5, 0b10001), (1, 0), (1, shift12.toNat), (12, imm12), (5, rn), (5, rd)]
  | logical op invert rd rn rm =>
    [(1, 1), (2, op.bits), (5, 0b01010), (2, 0), (1, invert.toNat), (5, rm), (6, 0), (5, rn), (5, rd)]
  | movWide op rd imm16 hw => [(1, 1), (2, op.bits), (6, 0b100101), (2, hw), (16, imm16.toNat), (5, rd)]
  | dataProc2 op rd rn rm => [(11, 0b10011010110), (5, rm), (6, op.bits), (5, rn), (5, rd)]
  | dataProc3 op rd rn rm ra =>
    [(11, 0b10011011000), (5, rm), (1, op.bits), (5, ra), (5, rn), (5, rd)]
  | bitfield op rd rn immr imms =>
    [(1, 1), (2, op.bits), (6, 0b100110), (1, 1), (6, immr), (6, imms), (5, rn), (5, rd)]
  | condSelect op rd rn rm cond =>
    [(11, 0b10011010100), (5, rm), (4, cond.bits), (1, 0), (1, op.bits), (5, rn), (5, rd)]
  | loadStore op size rt rn offset =>
    [(2, size.bits), (6, 0b111001), (2, op.bits size), (12, offset / size.bytes), (5, rn), (5, rt)]
  | loadStorePair load mode rt rt2 rn offset =>
    [(7, 0b1010100), (2, mode.bits), (1, load.toNat), (7, signedUnits offset 8 7), (5, rt2), (5, rn), (5, rt)]
  | branch link offset => [(1, link.toNat), (5, 0b00101), (26, signedUnits offset 4 26)]
  | branchCond cond offset => [(8, 0b01010100), (19, signedUnits offset 4 19), (1, 0), (4, cond.bits)]
  | compareBranch nonzero rt offset =>
    [(7, 0b1011010), (1, nonzero.toNat), (19, signedUnits offset 4 19), (5, rt)]
  | ret rn => [(22, 0b1101011001011111000000), (5, rn), (5, 0)]
  | adrp rd pages =>
    [(1, 1), (2, signedUnits pages 1 21 % 4), (5, 0b10000), (19, signedUnits pages 1 21 / 4), (5, rd)]

variable {i : Instr} {w : Word}

theorem encode_eq_ok : i.encode = .ok w ↔ i.Fits ∧ w = .ofFields i.layout := by
  have hpure : ∀ x : Word, (pure x : Except EncodingError Word) = .ok w ↔ w = x := by
    intro x
    exact ⟨fun h => (Except.ok.inj h).symm, fun h => congrArg Except.ok h.symm⟩
  cases i with
  | loadStore op size rt rn offset =>
    have hpos : 0 < size.bytes := by cases size <;> decide
    have hrange : offset / size.bytes ≤ 4095 ↔ offset < 4096 * size.bytes := by
      rw [← Nat.lt_succ_iff]
      exact Nat.div_lt_iff_lt_mul hpos
    rw [encode, Fits, Nat.dvd_iff_mod_eq_zero, ← hrange]
    by_cases hmod : offset % size.bytes = 0
    · rw [if_neg (not_not.mpr hmod)]
      simp only [except_bind_eq_ok, bounded_eq_ok, hpure, hmod, layout, and_assoc, exists_eq_left,
        exists_and_left, true_and]
    · rw [if_pos hmod]
      refine ⟨fun h => ?_, fun h => absurd h.1.1 hmod⟩
      cases h
  | _ =>
    simp only [encode, except_bind_eq_ok, bounded_eq_ok, hpure, Fits, layout, and_assoc, exists_eq_left,
      exists_and_left, scaledSigned_eq_ok (show 0 < 8 by decide), scaledSigned_eq_ok (show 0 < 4 by decide),
      scaledSigned_eq_ok (show 0 < 1 by decide), Nat.lt_add_one_iff, true_and]

theorem signedUnits_lt (offset : Int) (scale bits : Nat) : signedUnits offset scale bits < Nat.pow 2 bits := by
  have hpos : (0 : Int) < (Nat.pow 2 bits : Nat) := Int.natCast_pos.mpr (Nat.pow_pos Nat.two_pos)
  have hlt := Int.emod_lt_of_pos (offset / scale) hpos
  rw [signedUnits]
  omega

theorem layout_fits (h : i.Fits) : (∀ f ∈ i.layout, f.2 < Nat.pow 2 f.1) ∧
    Word.width (i.layout.map Prod.fst) = 32 := by
  have hreg : ∀ r : Reg, r.val < Nat.pow 2 5 := fun r => r.isLt
  have hbool : ∀ b : Bool, b.toNat < Nat.pow 2 1 := fun b => b.toNat_lt
  have hmem : ∀ (op : MemOp) size, op.bits size < Nat.pow 2 2 := by
    intro op size
    cases op <;> cases size <;> decide
  refine ⟨?_, by cases i <;> rfl⟩
  cases i <;> simp only [layout, forall_mem_cons, hreg, hbool, hmem, AddSub.code.lt,
    Logic.code.lt, MovWide.code.lt, DataOp2.code.lt, DataOp3.code.lt, Bitfield.code.lt, CondSelect.code.lt,
    MemSize.code.lt, PairMode.code.lt, FlagCond.code.lt, not_mem_nil, false_imp_iff, implies_true,
    and_true, true_and, Nat.pow_eq, Nat.reducePow, Nat.reduceLT]
  case addSubReg | addSubImm | bitfield => exact h
  case movWide imm16 hw => exact ⟨h, imm16.isLt⟩
  case loadStore size _ _ offset =>
    have hpos : 0 < size.bytes := by cases size <;> decide
    exact (Nat.div_lt_iff_lt_mul hpos).mpr h.2
  case loadStorePair | branch | branchCond | compareBranch => exact signedUnits_lt ..
  case adrp pages =>
    have hlt : signedUnits pages 1 21 < 2097152 := signedUnits_lt ..
    omega

end Instr

namespace Word

variable {w : Word} {lo : Nat}

@[simp] theorem val_reg (w : Word) (lo : Nat) : (w.reg lo).val = w.field lo 5 :=
  Nat.mod_eq_of_lt (w.field_lt lo 5)

theorem field_eq_reg {r : Reg} : w.field lo 5 = r ↔ w.reg lo = r := by
  rw [← val_reg, Fin.ext_iff]

@[simp] theorem toNat_flag (w : Word) (lo : Nat) : (w.flag lo).toNat = w.field lo 1 := by
  have hlt := w.field_lt lo 1
  rw [flag]
  rcases Nat.lt_succ_iff_lt_or_eq.mp hlt with h | h
  · rw [Nat.lt_one_iff.mp h]
    rfl
  · rw [h]
    rfl

theorem field_eq_flag {b : Bool} : w.field lo 1 = b.toNat ↔ w.flag lo = b := by
  rw [← toNat_flag]
  cases w.flag lo <;> cases b <;> decide

end Word

namespace Instr

variable {i : Instr} {w : Word} {c : Nat}

theorem opcode_fields (w : Word) : w.field 31 1 = w.field 24 8 / 128 ∧ w.field 29 2 = w.field 24 8 / 32 % 4 ∧
    w.field 24 5 = w.field 24 8 % 32 ∧ w.field 26 5 = w.field 24 8 / 4 % 32 ∧
    w.field 25 7 = w.field 24 8 / 2 ∧ w.field 24 6 = w.field 24 8 % 64 ∧
    w.field 10 22 / 16384 % 256 = w.field 24 8 := by
  have hlt : w.field 24 8 < 256 := w.field_lt 24 8
  have h31 : w.field 24 8 / 128 % 2 = w.field 31 1 := w.field_sub 24 8 7 1 (by decide)
  have h25 : w.field 24 8 / 2 % 128 = w.field 25 7 := w.field_sub 24 8 1 7 (by decide)
  have h24 : w.field 24 8 / 1 % 32 = w.field 24 5 := w.field_sub 24 8 0 5 (by decide)
  have h24' : w.field 24 8 / 1 % 64 = w.field 24 6 := w.field_sub 24 8 0 6 (by decide)
  refine ⟨by omega, (w.field_sub 24 8 5 2 (by decide)).symm, by omega,
    (w.field_sub 24 8 2 5 (by decide)).symm, by omega, by omega, w.field_sub 10 22 14 8 (by decide)⟩

theorem decode?_data (h31 : w.field 31 1 = 1) (h24 : w.field 24 5 = c)
    (hc : c ∈ [10, 11, 17, 18, 19, 26, 27]) : decode? w = decodeData w := by
  have htop := opcode_fields w
  simp only [mem_cons, not_mem_nil, or_false] at hc
  rw [decode?, if_neg (by omega), if_neg (by omega), if_neg (by omega), if_neg (by omega),
    if_neg (by omega), if_neg (by omega), if_neg (by omega), if_pos h31]

theorem fields_of_eleven (h : w.field 21 11 = c) : w.field 31 1 = c / 1024 % 2 ∧
    w.field 29 2 = c / 256 % 4 ∧ w.field 24 5 = c / 8 % 32 ∧ w.field 21 8 = c % 256 ∧ w.field 21 3 = c % 8 := by
  have h21 := w.field_sub 21 11 0 8 (by decide)
  have h21' := w.field_sub 21 11 0 3 (by decide)
  rw [Nat.div_one] at h21 h21'
  rw [← h]
  exact ⟨(w.field_sub 21 11 10 1 (by decide)).symm, (w.field_sub 21 11 8 2 (by decide)).symm,
    (w.field_sub 21 11 3 5 (by decide)).symm, h21.symm, h21'.symm⟩

theorem fields_of_six (h : w.field 23 6 = c) : w.field 24 5 = c / 2 % 32 ∧ w.field 23 1 = c % 2 := by
  have h23 := w.field_sub 23 6 0 1 (by decide)
  rw [Nat.div_one] at h23
  rw [← h]
  exact ⟨(w.field_sub 23 6 1 5 (by decide)).symm, h23.symm⟩

/-- The instruction that a word is read as. A signed load of 64 bits extends nothing, so it is read as
the plain load. -/
def plain : Instr → Instr
  | loadStore .loadSigned .x rt rn offset => loadStore .load .x rt rn offset
  | i => i

theorem decode?_of_split (h : i.Fits) (hw : w.split (i.layout.map Prod.fst) = i.layout) :
    decode? w = some i.plain := by
  have htop := opcode_fields w
  cases i
  all_goals
    simp only [layout, map_cons, map_nil, Word.split, Word.width, Nat.reduceAdd, List.cons.injEq,
      Prod.mk.injEq, true_and, and_true, Nat.add_zero, Word.field_eq_reg, Word.field_eq_flag] at hw
  case addSubReg op rd rn rm shift =>
    obtain ⟨h31, h29, h24, h21, h16, h10, h5, h0⟩ := hw
    have hop := some.inj (AddSub.code.ofBits_bits op)
    rw [decode?_data h31 h24 (by decide), decodeData, h24]
    simp only [h21, h29, h10, h16, h5, h0, hop, if_true, plain]
  case addSubImm op rd rn imm12 shift12 =>
    obtain ⟨h31, h29, h24, h23, h22, h10, h5, h0⟩ := hw
    have hop := some.inj (AddSub.code.ofBits_bits op)
    rw [decode?_data h31 h24 (by decide), decodeData, h24]
    simp only [h23, h29, h10, h22, h5, h0, hop, if_true, plain]
  case logical op invert rd rn rm =>
    obtain ⟨h31, h29, h24, h22, h21, h16, h10, h5, h0⟩ := hw
    have hop := some.inj (Logic.code.ofBits_bits op)
    rw [decode?_data h31 h24 (by decide), decodeData, h24]
    simp only [h22, h29, h10, h21, h16, h5, h0, hop, and_self, if_true, plain]
  case movWide op rd imm16 hw =>
    obtain ⟨h31, h29, h23, h21, h5, h0⟩ := hw
    obtain ⟨h24, h23'⟩ := fields_of_six h23
    have hop := MovWide.code.ofBits_bits op
    rw [decode?_data h31 h24 (by decide), decodeData, h24]
    simp only [h23', h29, h21, h5, h0, hop, BitVec.ofNat_toNat, BitVec.setWidth_eq]
    rfl
  case dataProc2 op rd rn rm =>
    obtain ⟨h21, h16, h10, h5, h0⟩ := hw
    obtain ⟨h31, h29, h24, h21', -⟩ := fields_of_eleven h21
    have hop := DataOp2.code.ofBits_bits op
    rw [decode?_data h31 h24 (by decide), decodeData, h24]
    simp only [h21', h29, h10, h16, h5, h0, hop]
    rfl
  case dataProc3 op rd rn rm ra =>
    obtain ⟨h21, h16, h15, h10, h5, h0⟩ := hw
    obtain ⟨h31, h29, h24, -, h21'⟩ := fields_of_eleven h21
    have hop := some.inj (DataOp3.code.ofBits_bits op)
    rw [decode?_data h31 h24 (by decide), decodeData, h24]
    simp only [h21', h29, h15, h16, h10, h5, h0, hop]
    rfl
  case bitfield op rd rn immr imms =>
    obtain ⟨h31, h29, h23, h22, h16, h10, h5, h0⟩ := hw
    obtain ⟨h24, h23'⟩ := fields_of_six h23
    have hop := Bitfield.code.ofBits_bits op
    rw [decode?_data h31 h24 (by decide), decodeData, h24]
    simp only [h23', h29, h22, h16, h10, h5, h0, hop]
    rfl
  case condSelect op rd rn rm cond =>
    obtain ⟨h21, h16, h12, h11, h10, h5, h0⟩ := hw
    obtain ⟨h31, h29, h24, h21', -⟩ := fields_of_eleven h21
    have hop := some.inj (CondSelect.code.ofBits_bits op)
    have hcond := FlagCond.code.ofBits_bits cond
    rw [decode?_data h31 h24 (by decide), decodeData, h24]
    simp only [h21', h29, h12, h11, h10, h16, h5, h0, hop, hcond]
    rfl
  case loadStore op size rt rn offset =>
    obtain ⟨h30, h24, h22, h10, h5, h0⟩ := hw
    have hsize := some.inj (MemSize.code.ofBits_bits size)
    rw [decode?, if_neg (by omega), if_neg (by omega), if_neg (by omega), if_neg (by omega),
      if_neg (by omega), if_pos h24]
    simp only [h30, hsize, h22, h10, h5, h0, MemOp.ofBits?_bits, Nat.div_mul_cancel h.1]
    cases op <;> cases size <;> rfl
  case loadStorePair load mode rt rt2 rn offset =>
    obtain ⟨h25, h23, h22, h15, h10, h5, h0⟩ := hw
    have hmode := PairMode.code.ofBits_bits mode
    have hoffset := signedField_signedUnits (by decide) (by decide) h
    rw [decode?, if_neg (by omega), if_neg (by omega), if_neg (by omega), if_neg (by omega),
      if_neg (by omega), if_neg (by omega), if_pos h25]
    simp only [h23, hmode, h22, h15, h10, h5, h0]
    exact congrArg (fun n => some (loadStorePair load mode rt rt2 rn n)) hoffset
  case branch link offset =>
    obtain ⟨h31, h26, h0⟩ := hw
    have hoffset := signedField_signedUnits (by decide) (by decide) h
    rw [decode?, if_neg (by omega), if_neg (by omega), if_pos h26, h31, h0]
    exact congrArg (fun n => some (branch link n)) hoffset
  case branchCond cond offset =>
    obtain ⟨h24, h5, h4, h0⟩ := hw
    have hcond := FlagCond.code.ofBits_bits cond
    have hoffset := signedField_signedUnits (by decide) (by decide) h
    rw [decode?, if_neg (by omega), if_neg (by omega), if_neg (by omega), if_pos ⟨h24, h4⟩, h0, hcond, h5]
    exact congrArg (fun n => some (branchCond cond n)) hoffset
  case compareBranch nonzero rt offset =>
    obtain ⟨h25, h24, h5, h0⟩ := hw
    have hoffset := signedField_signedUnits (by decide) (by decide) h
    rw [decode?, if_neg (by omega), if_neg (by omega), if_neg (by omega), if_neg (by omega), if_pos h25, h24, h5, h0]
    exact congrArg (fun n => some (compareBranch nonzero rt n)) hoffset
  case ret rn =>
    obtain ⟨h10, h5, h0⟩ := hw
    rw [decode?, if_pos ⟨h10, h0⟩, h5]
    rfl
  case adrp rd pages =>
    obtain ⟨h31, h29, h24, h5, h0⟩ := hw
    have hpages := signedField_signedUnits (by decide) (by decide) h
    rw [Int.natCast_one, Int.mul_one] at hpages
    rw [decode?, if_neg (by omega), if_pos ⟨h31, h24⟩, h29, h5, h0, Nat.mod_add_div, hpages]
    rfl

theorem split_of_decodeData (h31 : w.field 31 1 = 1) (h : decodeData w = some i) :
    i.Fits ∧ w.split (i.layout.map Prod.fst) = i.layout := by
  have h29 := w.field_lt 29 2
  have h11 : w.field 21 11 < 2048 := w.field_lt 21 11
  have heleven := fields_of_eleven (w := w) rfl
  have h6 : w.field 23 6 < 64 := w.field_lt 23 6
  have hsix := fields_of_six (w := w) rfl
  rw [decodeData] at h
  split at h
  · next h24 =>
    obtain ⟨h21, heq⟩ := ite_none_right_eq_some.mp h
    cases heq
    have hop := AddSub.code.bits_ofBits _ _ h29 rfl
    refine ⟨w.field_lt 10 6, ?_⟩
    simp [layout, h31, hop, h24, h21]
  · next h24 =>
    obtain ⟨h23, heq⟩ := ite_none_right_eq_some.mp h
    cases heq
    have hop := AddSub.code.bits_ofBits _ _ h29 rfl
    refine ⟨w.field_lt 10 12, ?_⟩
    simp [layout, h31, hop, h24, h23]
  · next h24 =>
    obtain ⟨⟨h22, h10⟩, heq⟩ := ite_none_right_eq_some.mp h
    cases heq
    have hop := Logic.code.bits_ofBits _ _ h29 rfl
    refine ⟨trivial, ?_⟩
    simp [layout, h31, hop, h24, h22, h10]
  · next h24 =>
    obtain ⟨h23, heq⟩ := ite_none_right_eq_some.mp h
    obtain ⟨op, hcode, heq⟩ := bind_eq_some_iff.mp heq
    cases heq
    have hop := MovWide.code.bits_ofBits _ _ h29 hcode
    have h23' : w.field 23 6 = 37 := by omega
    refine ⟨w.field_lt 21 2, ?_⟩
    simp [layout, h31, hop, h23', Nat.mod_eq_of_lt (show w.field 5 16 < 65536 from w.field_lt 5 16)]
  · next h24 =>
    obtain ⟨⟨h23, h22⟩, heq⟩ := ite_none_right_eq_some.mp h
    obtain ⟨op, hcode, heq⟩ := bind_eq_some_iff.mp heq
    cases heq
    have hop := Bitfield.code.bits_ofBits _ _ h29 hcode
    have h23' : w.field 23 6 = 38 := by omega
    refine ⟨⟨w.field_lt 16 6, w.field_lt 10 6⟩, ?_⟩
    simp [layout, h31, hop, h23', h22]
  · next h24 =>
    obtain ⟨⟨h21, hzero⟩, heq⟩ := ite_none_right_eq_some.mp h
    cases heq
    have hop := DataOp3.code.bits_ofBits _ _ (w.field_lt 15 1) rfl
    have h21' : w.field 21 11 = 1240 := by omega
    refine ⟨trivial, ?_⟩
    simp [layout, hop, h21']
  · next h24 =>
    split at h
    · next htest =>
      obtain ⟨op, hcode, heq⟩ := bind_eq_some_iff.mp h
      cases heq
      have hop := DataOp2.code.bits_ofBits _ _ (w.field_lt 10 6) hcode
      have h21' : w.field 21 11 = 1238 := by omega
      refine ⟨trivial, ?_⟩
      simp [layout, hop, h21']
    · obtain ⟨⟨h21, hzero, h11⟩, heq⟩ := ite_none_right_eq_some.mp h
      obtain ⟨cond, hcode, heq⟩ := bind_eq_some_iff.mp heq
      cases heq
      have hop := CondSelect.code.bits_ofBits _ _ (w.field_lt 10 1) rfl
      have hcond := FlagCond.code.bits_ofBits _ _ (w.field_lt 12 4) hcode
      have h21' : w.field 21 11 = 1236 := by omega
      refine ⟨trivial, ?_⟩
      simp [layout, hop, hcond, h21', h11]
  · cases h

theorem split_of_decode? (h : decode? w = some i) : i.Fits ∧ w.split (i.layout.map Prod.fst) = i.layout := by
  rw [decode?] at h
  split at h
  · next htest =>
    obtain ⟨h10, h0⟩ := htest
    cases h
    refine ⟨trivial, ?_⟩
    simp [layout, h10, h0]
  split at h
  · next htest =>
    obtain ⟨h31, h24⟩ := htest
    cases h
    have h29 : w.field 29 2 < 4 := w.field_lt 29 2
    have h5 : w.field 5 19 < 524288 := w.field_lt 5 19
    obtain ⟨hfits, hunits⟩ := signedUnits_signedField 1 1 21 rfl (by decide) (by decide)
      (show w.field 29 2 + 4 * w.field 5 19 < 2097152 by omega)
    rw [Int.mul_one] at hfits hunits
    have hlow : (w.field 29 2 + 4 * w.field 5 19) % 4 = w.field 29 2 := by omega
    have hhigh : (w.field 29 2 + 4 * w.field 5 19) / 4 = w.field 5 19 := by omega
    refine ⟨hfits, ?_⟩
    simp [layout, h31, h24, hunits, hlow, hhigh]
  split at h
  · next h26 =>
    cases h
    obtain ⟨hfits, hunits⟩ := signedUnits_signedField 4 4 26 rfl (by decide) (by decide) (w.field_lt 0 26)
    refine ⟨hfits, ?_⟩
    simp [layout, h26, hunits]
  split at h
  · next htest =>
    obtain ⟨h24, h4⟩ := htest
    obtain ⟨cond, hcode, heq⟩ := bind_eq_some_iff.mp h
    cases heq
    have hcond := FlagCond.code.bits_ofBits _ _ (w.field_lt 0 4) hcode
    obtain ⟨hfits, hunits⟩ := signedUnits_signedField 4 4 19 rfl (by decide) (by decide) (w.field_lt 5 19)
    refine ⟨hfits, ?_⟩
    simp [layout, h24, h4, hcond, hunits]
  split at h
  · next h25 =>
    cases h
    obtain ⟨hfits, hunits⟩ := signedUnits_signedField 4 4 19 rfl (by decide) (by decide) (w.field_lt 5 19)
    refine ⟨hfits, ?_⟩
    simp [layout, h25, hunits]
  split at h
  · next h24 =>
    obtain ⟨op, hcode, heq⟩ := bind_eq_some_iff.mp h
    cases heq
    have hsize := MemSize.code.bits_ofBits _ _ (w.field_lt 30 2) rfl
    have hop := MemOp.bits_of_ofBits? hcode
    have hpos : 0 < (MemSize.ofBits (w.field 30 2)).bytes := by
      cases MemSize.ofBits (w.field 30 2) <;> decide
    refine ⟨⟨Nat.dvd_mul_left _ _, Nat.mul_lt_mul_of_pos_right (w.field_lt 10 12) hpos⟩, ?_⟩
    simp [layout, h24, hsize, hop, Nat.mul_div_cancel _ hpos]
  split at h
  · next h25 =>
    obtain ⟨mode, hcode, heq⟩ := bind_eq_some_iff.mp h
    cases heq
    have hmode := PairMode.code.bits_ofBits _ _ (w.field_lt 23 2) hcode
    obtain ⟨hfits, hunits⟩ := signedUnits_signedField 8 8 7 rfl (by decide) (by decide) (w.field_lt 15 7)
    refine ⟨hfits, ?_⟩
    simp [layout, h25, hmode, hunits]
  · obtain ⟨h31, h⟩ := ite_none_right_eq_some.mp h
    exact split_of_decodeData h31 h

theorem decode?_of_encode (h : i.encode = .ok w) : decode? w = some i.plain := by
  obtain ⟨hfits, rfl⟩ := encode_eq_ok.mp h
  obtain ⟨hlayout, hwidth⟩ := layout_fits hfits
  exact decode?_of_split hfits (Word.split_ofFields hlayout hwidth)

theorem decode_eq_ok : decode w = .ok i ↔ decode? w = some i := by
  rw [decode]
  cases decode? w with
  | none => exact ⟨fun h => absurd h nofun, fun h => absurd h nofun⟩
  | some j => rw [Except.ok.injEq, some.injEq]

/-- An instruction has a word exactly if it fits. The word is read as the instruction, but for a signed
load of 64 bits, which is read as the plain load. A word that is read as an instruction is the word of
that instruction. -/
theorem decode_inverse_encode : (∀ i : Instr, (∃ w, i.encode = .ok w) ↔ i.Fits) ∧
    (∀ (i : Instr) (w : Word), (∀ rt rn offset, i ≠ loadStore .loadSigned .x rt rn offset) →
      i.encode = .ok w → decode w = .ok i) ∧
    (∀ (rt rn : Reg) (offset : Nat) (w : Word), encode (loadStore .loadSigned .x rt rn offset) = .ok w →
      decode w = .ok (loadStore .load .x rt rn offset)) ∧
    ∀ (w : Word) (i : Instr), decode w = .ok i → i.encode = .ok w := by
  have hdecode : ∀ {i : Instr} {w : Word}, i.encode = .ok w → decode w = .ok i.plain :=
    fun h => decode_eq_ok.mpr (decode?_of_encode h)
  refine ⟨fun i => ?_, fun i w hne h => ?_, fun rt rn offset w h => hdecode h, fun w i h => ?_⟩
  · constructor
    · intro ⟨w, h⟩
      exact (encode_eq_ok.mp h).1
    · intro h
      exact ⟨_, encode_eq_ok.mpr ⟨h, rfl⟩⟩
  · have hplain : i.plain = i := by
      rw [plain.eq_def]
      split
      · exact absurd rfl (hne _ _ _)
      · rfl
    rw [hdecode h, hplain]
  · obtain ⟨hfits, hsplit⟩ := split_of_decode? (decode_eq_ok.mp h)
    refine encode_eq_ok.mpr ⟨hfits, ?_⟩
    rw [← hsplit, Word.ofFields_split w (layout_fits hfits).2]

/-- The store that begins a frame goes through, and a signed load of 64 bits comes back as a plain
one. -/
theorem frame_record_reads_back : encode (loadStorePair false .preIndex .fp .lr .sp (-16)) = .ok 0xa9bf7bfd ∧
    decode 0xa9bf7bfd = .ok (loadStorePair false .preIndex .fp .lr .sp (-16)) ∧
    encode (loadStore .loadSigned .x 0 1 8) = .ok 0xf9400420 ∧
    decode 0xf9400420 = .ok (loadStore .load .x 0 1 8) ∧
    encode (loadStore .load .x 0 1 8) = .ok 0xf9400420 := by
  obtain ⟨_, hdecode, hsigned, hencode⟩ := decode_inverse_encode
  have hpair : encode (loadStorePair false .preIndex .fp .lr .sp (-16)) = .ok 0xa9bf7bfd := rfl
  have hload : encode (loadStore .loadSigned .x 0 1 8) = .ok 0xf9400420 := rfl
  have hplain := hsigned 0 1 8 0xf9400420 hload
  exact ⟨hpair, hdecode _ _ (fun _ _ _ => nofun) hpair, hload, hplain, hencode _ _ hplain⟩

end Instr

end SsaCodegen
