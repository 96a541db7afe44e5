import SsaCodegen.Machine.Reg

/-!
The A64 instructions that the code generator uses, in their 64-bit forms, and the usual aliases
that spell them.
-/

namespace SsaCodegen

inductive FlagCond where
  | eq | ne | hs | lo | mi | pl | vs | vc | hi | ls | ge | lt | gt | le | al
  deriving DecidableEq, Repr

namespace FlagCond

def all : List FlagCond :=
  [eq, ne, hs, lo, mi, pl, vs, vc, hi, ls, ge, lt, gt, le, al]

def bits : FlagCond → Nat
  | eq => 0 | ne => 1 | hs => 2 | lo => 3 | mi => 4 | pl => 5 | vs => 6 | vc => 7
  | hi => 8 | ls => 9 | ge => 10 | lt => 11 | gt => 12 | le => 13 | al => 14

def ofBits? (n : Nat) : Option FlagCond := all[n]?

def invert : FlagCond → FlagCond
  | eq => ne | ne => eq | hs => lo | lo => hs | mi => pl | pl => mi | vs => vc | vc => vs
  | hi => ls | ls => hi | ge => lt | lt => ge | gt => le | le => gt | al => al

def name : FlagCond → String
  | eq => "eq" | ne => "ne" | hs => "hs" | lo => "lo" | mi => "mi" | pl => "pl"
  | vs => "vs" | vc => "vc" | hi => "hi" | ls => "ls" | ge => "ge" | lt => "lt"
  | gt => "gt" | le => "le" | al => "al"

def ofName? (s : String) : Option FlagCond := all.find? (·.name == s)

end FlagCond

/-- Addition and subtraction, with or without setting the flags. -/
inductive AddSub where
  | add | adds | sub | subs
  deriving DecidableEq, Repr

inductive Logic where
  | and | orr | eor | ands
  deriving DecidableEq, Repr

/-- Moves of a 16-bit immediate: inverted, zeroing the rest, keeping the rest. -/
inductive MovWide where
  | movn | movz | movk
  deriving DecidableEq, Repr

inductive DataOp2 where
  | udiv | sdiv | lslv | lsrv | asrv
  deriving DecidableEq, Repr

inductive DataOp3 where
  | madd | msub
  deriving DecidableEq, Repr

/-- Signed and unsigned bit-field moves. -/
inductive Bitfield where
  | sbfm | ubfm
  deriving DecidableEq, Repr

inductive CondSelect where
  | csel | csinc
  deriving DecidableEq, Repr

/-- A store, a zero-extending load, or a load that sign-extends into 64 bits. -/
inductive MemOp where
  | store | load | loadSigned
  deriving DecidableEq, Repr

inductive MemSize where
  | b | h | w | x
  deriving DecidableEq, Repr

namespace MemSize

def bytes : MemSize → Nat
  | b => 1 | h => 2 | w => 4 | x => 8

def ofBytes (n : Nat) : MemSize :=
  if n ≤ 1 then b else if n = 2 then h else if n ≤ 4 then w else x

end MemSize

/-- Addressing of a register pair: after the access, plain, before the access. -/
inductive PairMode where
  | postIndex | offset | preIndex
  deriving DecidableEq, Repr

/-- One instruction. Offsets are in bytes, page distances in pages of 4 KiB. -/
inductive Instr where
  /-- Shifted-register form; `shift` is a left shift of `rm`. -/
  | addSubReg (op : AddSub) (rd rn rm : Reg) (shift : Nat)
  | addSubImm (op : AddSub) (rd rn : Reg) (imm12 : Nat) (shift12 : Bool)
  /-- Shifted-register form without shift; `invert` complements `rm`. -/
  | logical (op : Logic) (invert : Bool) (rd rn rm : Reg)
  | movWide (op : MovWide) (rd : Reg) (imm16 : BitVec 16) (hw : Nat)
  | dataProc2 (op : DataOp2) (rd rn rm : Reg)
  | dataProc3 (op : DataOp3) (rd rn rm ra : Reg)
  | bitfield (op : Bitfield) (rd rn : Reg) (immr imms : Nat)
  | condSelect (op : CondSelect) (rd rn rm : Reg) (cond : FlagCond)
  /-- Access at an unsigned offset that is scaled by the access size. -/
  | loadStore (op : MemOp) (size : MemSize) (rt rn : Reg) (offset : Nat)
  | loadStorePair (load : Bool) (mode : PairMode) (rt rt2 rn : Reg) (offset : Int)
  | branch (link : Bool) (offset : Int)
  | branchCond (cond : FlagCond) (offset : Int)
  | compareBranch (nonzero : Bool) (rt : Reg) (offset : Int)
  | ret (rn : Reg)
  | adrp (rd : Reg) (pages : Int)
  deriving DecidableEq

namespace Instr

def withOffset (offset : Int) : Instr → Instr
  | branch link _ => branch link offset
  | branchCond cond _ => branchCond cond offset
  | compareBranch nonzero rt _ => compareBranch nonzero rt offset
  | i => i

def add (rd rn rm : Reg) : Instr := addSubReg .add rd rn rm 0

def sub (rd rn rm : Reg) : Instr := addSubReg .sub rd rn rm 0

def addImm (rd rn : Reg) (imm12 : Nat) : Instr := addSubImm .add rd rn imm12 false

def subImm (rd rn : Reg) (imm12 : Nat) : Instr := addSubImm .sub rd rn imm12 false

def mov (rd rm : Reg) : Instr :=
  if rd = Reg.sp ∨ rm = Reg.sp then addImm rd rm 0 else logical .orr false rd Reg.xzr rm

def cmp (rn rm : Reg) : Instr := addSubReg .subs Reg.xzr rn rm 0

def neg (rd rm : Reg) : Instr := sub rd Reg.xzr rm

def mvn (rd rm : Reg) : Instr := logical .orr true rd Reg.xzr rm

def logic (op : Logic) (rd rn rm : Reg) : Instr := logical op false rd rn rm

def mul (rd rn rm : Reg) : Instr := dataProc3 .madd rd rn rm Reg.xzr

def msub (rd rn rm ra : Reg) : Instr := dataProc3 .msub rd rn rm ra

def cset (rd : Reg) (cond : FlagCond) : Instr :=
  condSelect .csinc rd Reg.xzr Reg.xzr cond.invert

def topBit (bits : Nat) : Nat := (bits + 255) % 256

def signExtend (rd rn : Reg) (bits : Nat) : Instr := bitfield .sbfm rd rn 0 (topBit bits)

def zeroExtend (rd rn : Reg) (bits : Nat) : Instr := bitfield .ubfm rd rn 0 (topBit bits)

def load (size : MemSize) (signed : Bool) (rt rn : Reg) (offset : Nat) : Instr :=
  loadStore (if signed && size != .x then .loadSigned else .load) size rt rn offset

def store (size : MemSize) (rt rn : Reg) (offset : Nat) : Instr :=
  loadStore .store size rt rn offset

def ldr (rt rn : Reg) (offset : Nat) : Instr := load .x false rt rn offset

def str (rt rn : Reg) (offset : Nat) : Instr := store .x rt rn offset

def ldp (rt rt2 rn : Reg) (offset : Int) : Instr := loadStorePair true .offset rt rt2 rn offset

def stp (rt rt2 rn : Reg) (offset : Int) : Instr := loadStorePair false .offset rt rt2 rn offset

def b (offset : Int) : Instr := branch false offset

def bl (offset : Int) : Instr := branch true offset

def cbnz (rt : Reg) (offset : Int) : Instr := compareBranch true rt offset

def cbz (rt : Reg) (offset : Int) : Instr := compareBranch false rt offset

def retLink : Instr := ret Reg.lr

def halfword (value : BitVec 64) (i : Nat) : BitVec 16 := value.extractLsb' (16 * i) 16

/-- Loads a constant: one halfword that differs from the filler is moved with the rest set to the
filler, the others are inserted. The filler is all ones if more halfwords are all ones than zero. -/
def movImm (rd : Reg) (value : BitVec 64) : List Instr :=
  let halves := (List.range 4).map fun i => (i, halfword value i)
  let zeros := halves.countP (·.2 == 0#16)
  let ones := halves.countP (·.2 == 0xffff#16)
  let inverted := decide (zeros < ones)
  let filler := if inverted then 0xffff#16 else 0#16
  match halves.filter (·.2 != filler) with
  | [] => [movWide (if inverted then .movn else .movz) rd 0#16 0]
  | (hw, half) :: rest =>
    movWide (if inverted then .movn else .movz) rd (if inverted then ~~~half else half) hw ::
      rest.map fun (hw, half) => movWide .movk rd half hw

def isAddImm (value : Int) : Bool := 0 ≤ value && value < 4096

end Instr

end SsaCodegen
