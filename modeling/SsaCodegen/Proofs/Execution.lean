import Mathlib.Algebra.Group.Nat.Defs
import Mathlib.Logic.Function.Basic
import Mathlib.Logic.Relation
import SsaCodegen.Machine.Assembly

/-! Execution of instruction words. Positions are counted in bytes from the start of the code, which is at the
address `origin`. -/

namespace SsaCodegen

/-- What comparisons leave behind. -/
structure Flags where
  negative : Bool
  zero : Bool
  carry : Bool
  overflow : Bool
  deriving DecidableEq

def FlagCond.holds (f : Flags) : FlagCond → Bool
  | eq => f.zero
  | ne => !f.zero
  | hs => f.carry
  | lo => !f.carry
  | mi => f.negative
  | pl => !f.negative
  | vs => f.overflow
  | vc => !f.overflow
  | hi => f.carry && !f.zero
  | ls => !(f.carry && !f.zero)
  | ge => f.negative == f.overflow
  | lt => f.negative != f.overflow
  | gt => !f.zero && f.negative == f.overflow
  | le => f.zero || f.negative != f.overflow
  | al => true

/-- The state of the machine. Register number 31 has no cell of its own: it is the stack pointer in some
operands, and reads as zero in the others. -/
structure Machine where
  regs : Reg → BitVec 64
  sp : BitVec 64
  flags : Flags
  memory : BitVec 64 → BitVec 8
  /-- The position of the next instruction. -/
  pc : Int

namespace Machine

def x (s : Machine) (r : Reg) : BitVec 64 := if r = Reg.xzr then 0 else s.regs r

def base (s : Machine) (r : Reg) : BitVec 64 := if r = Reg.sp then s.sp else s.regs r

def setX (s : Machine) (r : Reg) (v : BitVec 64) : Machine :=
  if r = Reg.xzr then s else { s with regs := Function.update s.regs r v }

def setBase (s : Machine) (r : Reg) (v : BitVec 64) : Machine :=
  if r = Reg.sp then { s with sp := v } else { s with regs := Function.update s.regs r v }

def load (s : Machine) (a : BitVec 64) : Nat → Nat
  | 0 => 0
  | n + 1 => (s.memory a).toNat + 256 * s.load (a + 1) n

def store (s : Machine) (a : BitVec 64) (n : Nat) (v : BitVec 64) : Machine :=
  { s with memory := fun b => if (b - a).toNat < n then v.extractLsb' (8 * (b - a).toNat) 8 else s.memory b }

end Machine

/-- The sum of two words and a carry, with the flags that it sets. -/
def addWithCarry (a b : BitVec 64) (carry : Bool) : BitVec 64 × Flags :=
  let sum := a.toNat + b.toNat + carry.toNat
  let result := BitVec.ofNat 64 sum
  (result, ⟨result.msb, result == 0, Nat.ble (Nat.pow 2 64) sum, result.toInt != a.toInt + b.toInt + carry.toNat⟩)

def AddSub.apply (a b : BitVec 64) : AddSub → BitVec 64 × Flags
  | add | adds => addWithCarry a b false
  | sub | subs => addWithCarry a (~~~b) true

def Logic.apply (a b : BitVec 64) : Logic → BitVec 64
  | and | ands => a &&& b
  | orr => a ||| b
  | eor => a ^^^ b

def MovWide.apply (old : BitVec 64) (imm16 : BitVec 16) (hw : Nat) : MovWide → BitVec 64
  | movn => ~~~(imm16.setWidth 64 <<< (16 * hw))
  | movz => imm16.setWidth 64 <<< (16 * hw)
  | movk => (old &&& ~~~(0xffff#64 <<< (16 * hw))) ||| (imm16.setWidth 64 <<< (16 * hw))

/-- Division by zero gives zero, and shifts go by the amount modulo the width. -/
def DataOp2.apply (a b : BitVec 64) : DataOp2 → BitVec 64
  | udiv => a / b
  | sdiv => a.sdiv b
  | lslv => a <<< (b.toNat % 64)
  | lsrv => a >>> (b.toNat % 64)
  | asrv => a.sshiftRight (b.toNat % 64)

def DataOp3.apply (a b c : BitVec 64) : DataOp3 → BitVec 64
  | madd => c + a * b
  | msub => c - a * b

/-- Bits `immr` to `imms` go to the bottom; if they wrap round, the bits up to `imms` go to the top. -/
def Bitfield.apply (a : BitVec 64) (immr imms : Nat) (op : Bitfield) : BitVec 64 :=
  let lo := if immr ≤ imms then immr else 0
  let up := if immr ≤ imms then 0 else 64 - immr
  let bits := a.extractLsb' lo (imms + 1 - lo)
  let extended : BitVec 64 := if op = sbfm then bits.signExtend 64 else bits.setWidth 64
  extended <<< up

def MemOp.extend (n : Nat) (size : MemSize) : MemOp → BitVec 64
  | loadSigned => (BitVec.ofNat (8 * size.bytes) n).signExtend 64
  | _ => BitVec.ofNat 64 n

namespace Instr

/-- What an instruction does to registers, flags and memory. -/
def effect (origin : BitVec 64) (s : Machine) : Instr → Machine
  | addSubReg op rd rn rm shift =>
    let (v, flags) := op.apply (s.x rn) (s.x rm <<< shift)
    (if op.setsFlags then { s with flags } else s).setX rd v
  | addSubImm op rd rn imm12 shift12 =>
    let (v, flags) := op.apply (s.base rn) (BitVec.ofNat 64 (if shift12 then imm12 * 4096 else imm12))
    if op.setsFlags then { s with flags }.setX rd v else s.setBase rd v
  | logical op invert rd rn rm =>
    let v := op.apply (s.x rn) (if invert then ~~~(s.x rm) else s.x rm)
    (if op = .ands then { s with flags := ⟨v.msb, v == 0, false, false⟩ } else s).setX rd v
  | movWide op rd imm16 hw => s.setX rd (op.apply (s.x rd) imm16 hw)
  | dataProc2 op rd rn rm => s.setX rd (op.apply (s.x rn) (s.x rm))
  | dataProc3 op rd rn rm ra => s.setX rd (op.apply (s.x rn) (s.x rm) (s.x ra))
  | bitfield op rd rn immr imms => s.setX rd (op.apply (s.x rn) immr imms)
  | condSelect op rd rn rm cond =>
    s.setX rd (if cond.holds s.flags then s.x rn else if op = .csinc then s.x rm + 1 else s.x rm)
  | loadStore op size rt rn offset =>
    let a := s.base rn + BitVec.ofNat 64 offset
    if op = .store then s.store a size.bytes (s.x rt) else s.setX rt (op.extend (s.load a size.bytes) size)
  | loadStorePair load mode rt rt2 rn offset =>
    let near := s.base rn
    let far := near + BitVec.ofInt 64 offset
    let a := if mode = .postIndex then near else far
    let accessed :=
      if load then
        (s.setX rt (BitVec.ofNat 64 (s.load a 8))).setX rt2 (BitVec.ofNat 64 (s.load (a + 8) 8))
      else (s.store a 8 (s.x rt)).store (a + 8) 8 (s.x rt2)
    if mode = .offset then accessed else accessed.setBase rn far
  | branch link _ => if link then s.setX Reg.lr (origin + BitVec.ofInt 64 (s.pc + 4)) else s
  | adrp rd pages =>
    s.setX rd (((origin + BitVec.ofInt 64 s.pc) >>> 12 <<< 12) + BitVec.ofInt 64 (pages * 4096))
  | branchCond _ _ | compareBranch _ _ _ | ret _ => s

/-- Where execution goes on. -/
def next (origin : BitVec 64) (s : Machine) : Instr → Int
  | branch _ offset => s.pc + offset
  | branchCond cond offset => if cond.holds s.flags then s.pc + offset else s.pc + 4
  | compareBranch nonzero rt offset => if (s.x rt != 0) == nonzero then s.pc + offset else s.pc + 4
  | ret rn => (s.x rn - origin).toInt
  | _ => s.pc + 4

def exec (origin : BitVec 64) (s : Machine) (i : Instr) : Machine :=
  { i.effect origin s with pc := i.next origin s }

end Instr

def fetch (code : List Word) (pc : Int) : Option Instr :=
  if 0 ≤ pc ∧ pc % 4 = 0 then code[(pc / 4).toNat]?.bind Instr.decode? else none

def StepsTo (origin : BitVec 64) (code : List Word) (s s' : Machine) : Prop :=
  ∃ i, fetch code s.pc = some i ∧ s' = i.exec origin s

def Executes (origin : BitVec 64) (code : List Word) : Machine → Machine → Prop :=
  Relation.ReflTransGen (StepsTo origin code)

/-! Where execution goes from an instruction. Instructions that do not jump are executed one after the
other. -/

namespace Instr

open List

def jump? : Instr → Option Int
  | branch false offset | branchCond _ offset | compareBranch _ _ offset => some offset
  | _ => none

def isReturn : Instr → Bool
  | ret _ => true
  | _ => false

def isCall : Instr → Bool
  | branch link _ => link
  | _ => false

/-- Instructions that the linker completes with the place of a symbol. -/
def isLinked : Instr → Bool
  | branch link _ => link
  | adrp .. => true
  | _ => false

/-- Inside a function, execution goes on with the next instruction or with the target of a jump. -/
theorem next_cases (origin : BitVec 64) (s : Machine) {i : Instr} (hcall : i.isCall = false)
    (hret : i.isReturn = false) : i.next origin s = s.pc + 4 ∨
      ∃ offset, i.jump? = some offset ∧ i.next origin s = s.pc + offset := by
  cases i with
  | branch link offset =>
    cases link with
    | true => cases hcall
    | false => exact .inr ⟨offset, rfl, rfl⟩
  | branchCond cond offset =>
    rw [next]
    split
    · exact .inr ⟨offset, rfl, rfl⟩
    · exact .inl rfl
  | compareBranch nonzero rt offset =>
    rw [next]
    split
    · exact .inr ⟨offset, rfl, rfl⟩
    · exact .inl rfl
  | ret => cases hret
  | _ => exact .inl rfl

def execAll (origin : BitVec 64) (is : List Instr) (s : Machine) : Machine := is.foldl (exec origin) s

theorem execAll_append (origin : BitVec 64) (is js : List Instr) (s : Machine) :
    execAll origin (is ++ js) s = execAll origin js (execAll origin is s) := foldl_append ..

def Passes (i : Instr) : Prop := i.jump? = none ∧ i.isCall = false ∧ i.isReturn = false

theorem executes_all {origin : BitVec 64} {words : List Word} : ∀ {is : List Instr} {n : Nat} {s : Machine},
    (∀ (k : Nat) i, is[k]? = some i → fetch words (4 * (n + k) : Nat) = some i) → (∀ i ∈ is, i.Passes) →
    s.pc = (4 * n : Nat) → Executes origin words s (execAll origin is s) ∧
      (execAll origin is s).pc = (4 * (n + is.length) : Nat) := by
  intro is
  induction is with
  | nil => exact fun _ _ hpc => ⟨.refl, hpc⟩
  | cons i is ih =>
    intro n s hfetch hpass hpc
    obtain ⟨hjump, hcall, hret⟩ := hpass i mem_cons_self
    have hstep : StepsTo origin words s (i.exec origin s) := ⟨i, hpc ▸ hfetch 0 i rfl, rfl⟩
    have hnext : (i.exec origin s).pc = (4 * (n + 1) : Nat) := by
      rcases next_cases origin s hcall hret with hnext | ⟨offset, hsome, -⟩
      · change i.next origin s = _
        omega
      · rw [hjump] at hsome
        cases hsome
    have hfetch' : ∀ (k : Nat) j, is[k]? = some j → fetch words (4 * (n + 1 + k) : Nat) = some j := by
      intro k j hk
      rw [Nat.add_assoc, Nat.add_comm 1]
      exact hfetch (k + 1) j hk
    obtain ⟨hrest, hend⟩ := ih hfetch' (fun j hj => hpass j (mem_cons_of_mem i hj)) hnext
    refine ⟨.head hstep hrest, hend.trans ?_⟩
    rw [length_cons, Nat.add_assoc, Nat.add_comm 1]

end Instr

/-! Words in memory, byte by byte, and what addition and subtraction compute. -/

open BitVec

namespace Machine

variable {s : Machine} {a : BitVec 64}

theorem load_eq_of_bytes (v : BitVec 64) : ∀ (n j : Nat) (a : BitVec 64),
    (∀ i < n, s.memory (a + BitVec.ofNat 64 i) = v.extractLsb' (8 * (j + i)) 8) →
    s.load a n = v.toNat / 256 ^ j % 256 ^ n := by
  intro n
  induction n with
  | zero =>
    intro j a _
    rw [Nat.pow_zero, Nat.mod_one]
    rfl
  | succ n ih =>
    intro j a h
    have hfirst : s.memory a = v.extractLsb' (8 * j) 8 := by
      simpa only [BitVec.add_zero, Nat.add_zero] using h 0 (Nat.succ_pos n)
    have hrest := ih (j + 1) (a + 1) fun i hi => by
      have hbyte := h (i + 1) (Nat.succ_lt_succ hi)
      rw [ofNat_add, BitVec.add_comm (BitVec.ofNat 64 i), ← BitVec.add_assoc] at hbyte
      rw [show j + 1 + i = j + (i + 1) by omega]
      exact hbyte
    calc (s.memory a).toNat + 256 * s.load (a + 1) n
        = v.toNat / 256 ^ j % 256 + 256 * (v.toNat / 256 ^ (j + 1) % 256 ^ n) := by
          rw [hfirst, hrest, extractLsb'_toNat, Nat.shiftRight_eq_div_pow, Nat.pow_mul]
      _ = v.toNat / 256 ^ j % 256 ^ (n + 1) := by
          rw [Nat.pow_succ 256 j, ← Nat.div_div_eq_div_mul, Nat.pow_succ 256 n, Nat.mul_comm (256 ^ n), Nat.mod_mul]

theorem word_eq_of_bytes {v : BitVec 64} (h : ∀ i < 8, s.memory (a + BitVec.ofNat 64 i) = v.extractLsb' (8 * i) 8) :
    BitVec.ofNat 64 (s.load a 8) = v := by
  have hload := load_eq_of_bytes v 8 0 a fun i hi => by
    rw [Nat.zero_add]
    exact h i hi
  apply eq_of_toNat_eq
  rw [toNat_ofNat]
  omega

theorem load_congr {t : Machine} {n : Nat}
    (h : ∀ i < n, t.memory (a + BitVec.ofNat 64 i) = s.memory (a + BitVec.ofNat 64 i)) :
    t.load a n = s.load a n := by
  induction n generalizing a with
  | zero => rfl
  | succ n ih =>
    have hfirst : t.memory a = s.memory a := by
      simpa only [BitVec.add_zero] using h 0 (Nat.succ_pos n)
    rw [load, load, hfirst, ih]
    intro i hi
    have hbyte := h (i + 1) (Nat.succ_lt_succ hi)
    rwa [ofNat_add, BitVec.add_comm (BitVec.ofNat 64 i), ← BitVec.add_assoc] at hbyte

theorem memory_store_self (v : BitVec 64) {i : Nat} (hi : i < 8) :
    (s.store a 8 v).memory (a + BitVec.ofNat 64 i) = v.extractLsb' (8 * i) 8 := by
  have hoff : (a + BitVec.ofNat 64 i - a).toNat = i := by bv_omega
  change (if _ then _ else _) = _
  rw [hoff, if_pos hi]

end Machine

theorem AddSub.apply_add (a b : BitVec 64) : (AddSub.add.apply a b).1 = a + b := by
  apply eq_of_toNat_eq
  change (BitVec.ofNat 64 (a.toNat + b.toNat + 0)).toNat = _
  rw [toNat_ofNat, toNat_add, Nat.add_zero]

theorem AddSub.apply_sub (a b : BitVec 64) : (AddSub.sub.apply a b).1 = a - b := by
  apply eq_of_toNat_eq
  change (BitVec.ofNat 64 (a.toNat + (~~~b).toNat + 1)).toNat = _
  rw [toNat_ofNat, toNat_sub, toNat_not]
  omega

end SsaCodegen
