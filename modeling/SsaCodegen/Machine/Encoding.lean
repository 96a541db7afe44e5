import SsaCodegen.Machine.Instr
import SsaCodegen.Text.Numeral

/-!
Instruction words. An instruction is encoded by writing its operands into the bit fields of its
class, once every immediate is known to fit; decoding reads them back.
-/

namespace SsaCodegen

abbrev Word := BitVec 32

inductive Immediate where
  | shiftAmount | addSub | halfword | immr | imms | loadStore | pair
  | branch | condBranch | compareBranch | adrp | frameSize
  deriving DecidableEq, Repr

def Immediate.name : Immediate → String
  | shiftAmount => "shift amount"
  | addSub => "add/sub immediate"
  | halfword => "halfword index"
  | immr => "immr"
  | imms => "imms"
  | loadStore => "load/store offset"
  | pair => "pair offset"
  | branch => "branch offset"
  | condBranch => "conditional branch offset"
  | compareBranch => "compare-and-branch offset"
  | adrp => "adrp page offset"
  | frameSize => "frame size"

inductive EncodingError where
  | outOfRange (what : Immediate) (value : Int)
  | misaligned (offset : Int) (align : Nat)
  | unknown (word : Word)
  deriving DecidableEq

open Text in
def EncodingError.message : EncodingError → String
  | outOfRange what value => s!"{what.name} {integer value} out of range"
  | misaligned offset align => s!"offset {integer offset} is not a multiple of {decimal align}"
  | unknown word => s!"unknown instruction word 0x{hexWord word.toNat}"

namespace Word

def ofFields (fields : List (Nat × Nat)) : Word :=
  BitVec.ofNat 32 (fields.foldl (fun acc f => acc * Nat.pow 2 f.1 + f.2) 0)

def field (w : Word) (lo width : Nat) : Nat := w.toNat / Nat.pow 2 lo % Nat.pow 2 width

def flag (w : Word) (bit : Nat) : Bool := w.field bit 1 == 1

def reg (w : Word) (lo : Nat) : Reg := Fin.ofNat 32 (w.field lo 5)

def bytes (w : Word) : List UInt8 :=
  (List.range 4).map fun i => UInt8.ofNat (w.field (8 * i) 8)

def ofBytes (bs : List UInt8) : Word :=
  BitVec.ofNat 32 ((bs.take 4).foldr (fun b acc => b.toNat + 256 * acc) 0)

end Word

def signedField (bits value : Nat) : Int :=
  if value < Nat.pow 2 (bits - 1) then (value : Int) else (value : Int) - (Nat.pow 2 bits : Nat)

/-- The contents of a `bits`-bit field for a signed offset in units of `scale` bytes. -/
def scaledSigned (what : Immediate) (offset : Int) (scale bits : Nat) : Except EncodingError Nat :=
  if offset % scale ≠ 0 then .error (.misaligned offset scale)
  else
    let units := offset / scale
    let limit : Int := (Nat.pow 2 (bits - 1) : Nat)
    if units < -limit ∨ limit ≤ units then .error (.outOfRange what offset)
    else .ok (units % (Nat.pow 2 bits : Nat)).toNat

def bounded (what : Immediate) (value max : Nat) : Except EncodingError Nat :=
  if value ≤ max then .ok value else .error (.outOfRange what value)

namespace AddSub

def bits : AddSub → Nat
  | add => 0 | adds => 1 | sub => 2 | subs => 3

def ofBits : Nat → AddSub
  | 0 => add | 1 => adds | 2 => sub | _ => subs

def setsFlags : AddSub → Bool
  | adds | subs => true
  | add | sub => false

end AddSub

namespace Logic

def bits : Logic → Nat
  | and => 0 | orr => 1 | eor => 2 | ands => 3

def ofBits : Nat → Logic
  | 0 => and | 1 => orr | 2 => eor | _ => ands

end Logic

namespace MovWide

def bits : MovWide → Nat
  | movn => 0 | movz => 2 | movk => 3

def ofBits? : Nat → Option MovWide
  | 0 => some movn | 2 => some movz | 3 => some movk | _ => none

end MovWide

namespace DataOp2

def bits : DataOp2 → Nat
  | udiv => 2 | sdiv => 3 | lslv => 8 | lsrv => 9 | asrv => 10

def ofBits? : Nat → Option DataOp2
  | 2 => some udiv | 3 => some sdiv | 8 => some lslv | 9 => some lsrv | 10 => some asrv
  | _ => none

end DataOp2

namespace DataOp3

def bits : DataOp3 → Nat
  | madd => 0 | msub => 1

def ofBits : Nat → DataOp3
  | 0 => madd | _ => msub

end DataOp3

namespace Bitfield

def bits : Bitfield → Nat
  | sbfm => 0 | ubfm => 2

def ofBits? : Nat → Option Bitfield
  | 0 => some sbfm | 2 => some ubfm | _ => none

end Bitfield

namespace CondSelect

def bits : CondSelect → Nat
  | csel => 0 | csinc => 1

def ofBits : Nat → CondSelect
  | 0 => csel | _ => csinc

end CondSelect

namespace MemSize

def bits : MemSize → Nat
  | b => 0 | h => 1 | w => 2 | x => 3

def ofBits : Nat → MemSize
  | 0 => b | 1 => h | 2 => w | _ => x

end MemSize

namespace MemOp

def bits : MemOp → MemSize → Nat
  | store, _ => 0
  | load, _ => 1
  | loadSigned, .x => 1
  | loadSigned, _ => 2

def ofBits? : Nat → MemSize → Option MemOp
  | 0, _ => some store
  | 1, _ => some load
  | 2, .x => none
  | 2, _ => some loadSigned
  | _, _ => none

end MemOp

namespace PairMode

def bits : PairMode → Nat
  | postIndex => 1 | offset => 2 | preIndex => 3

def ofBits? : Nat → Option PairMode
  | 1 => some postIndex | 2 => some offset | 3 => some preIndex | _ => none

end PairMode

namespace Instr

def encode : Instr → Except EncodingError Word
  | addSubReg op rd rn rm shift => do
    let imm6 ← bounded .shiftAmount shift 63
    return .ofFields
      [(1, 1), (2, op.bits), (5, 0b01011), (3, 0), (5, rm), (6, imm6), (5, rn), (5, rd)]
  | addSubImm op rd rn imm12 shift12 => do
    let imm ← bounded .addSub imm12 4095
    return .ofFields
      [(1, 1), (2, op.bits), (5, 0b10001), (1, 0), (1, shift12.toNat), (12, imm), (5, rn), (5, rd)]
  | logical op invert rd rn rm =>
    return .ofFields
      [(1, 1), (2, op.bits), (5, 0b01010), (2, 0), (1, invert.toNat), (5, rm), (6, 0), (5, rn),
        (5, rd)]
  | movWide op rd imm16 hw => do
    let hw ← bounded .halfword hw 3
    return .ofFields [(1, 1), (2, op.bits), (6, 0b100101), (2, hw), (16, imm16.toNat), (5, rd)]
  | dataProc2 op rd rn rm =>
    return .ofFields [(11, 0b10011010110), (5, rm), (6, op.bits), (5, rn), (5, rd)]
  | dataProc3 op rd rn rm ra =>
    return .ofFields [(11, 0b10011011000), (5, rm), (1, op.bits), (5, ra), (5, rn), (5, rd)]
  | bitfield op rd rn immr imms => do
    let immr ← bounded .immr immr 63
    let imms ← bounded .imms imms 63
    return .ofFields
      [(1, 1), (2, op.bits), (6, 0b100110), (1, 1), (6, immr), (6, imms), (5, rn), (5, rd)]
  | condSelect op rd rn rm cond =>
    return .ofFields
      [(11, 0b10011010100), (5, rm), (4, cond.bits), (1, 0), (1, op.bits), (5, rn), (5, rd)]
  | loadStore op size rt rn offset => do
    if offset % size.bytes ≠ 0 then throw (.misaligned offset size.bytes)
    let imm12 ← bounded .loadStore (offset / size.bytes) 4095
    return .ofFields
      [(2, size.bits), (6, 0b111001), (2, op.bits size), (12, imm12), (5, rn), (5, rt)]
  | loadStorePair load mode rt rt2 rn offset => do
    let imm7 ← scaledSigned .pair offset 8 7
    return .ofFields
      [(7, 0b1010100), (2, mode.bits), (1, load.toNat), (7, imm7), (5, rt2), (5, rn), (5, rt)]
  | branch link offset => do
    let imm26 ← scaledSigned .branch offset 4 26
    return .ofFields [(1, link.toNat), (5, 0b00101), (26, imm26)]
  | branchCond cond offset => do
    let imm19 ← scaledSigned .condBranch offset 4 19
    return .ofFields [(8, 0b01010100), (19, imm19), (1, 0), (4, cond.bits)]
  | compareBranch nonzero rt offset => do
    let imm19 ← scaledSigned .compareBranch offset 4 19
    return .ofFields [(7, 0b1011010), (1, nonzero.toNat), (19, imm19), (5, rt)]
  | ret rn =>
    return .ofFields [(22, 0b1101011001011111000000), (5, rn), (5, 0)]
  | adrp rd pages => do
    let imm21 ← scaledSigned .adrp pages 1 21
    return .ofFields [(1, 1), (2, imm21 % 4), (5, 0b10000), (19, imm21 / 4), (5, rd)]

/-- The 64-bit data-processing classes, told apart by bits 24 to 28. -/
def decodeData (w : Word) : Option Instr :=
  let rd := w.reg 0
  let rn := w.reg 5
  let rm := w.reg 16
  match w.field 24 5 with
  | 0b01011 =>
    if w.field 21 3 = 0 then
      some (addSubReg (.ofBits (w.field 29 2)) rd rn rm (w.field 10 6))
    else none
  | 0b10001 =>
    if w.field 23 1 = 0 then
      some (addSubImm (.ofBits (w.field 29 2)) rd rn (w.field 10 12) (w.flag 22))
    else none
  | 0b01010 =>
    if w.field 22 2 = 0 ∧ w.field 10 6 = 0 then
      some (logical (.ofBits (w.field 29 2)) (w.flag 21) rd rn rm)
    else none
  | 0b10010 =>
    if w.field 23 1 = 1 then do
      let op ← MovWide.ofBits? (w.field 29 2)
      return movWide op rd (BitVec.ofNat 16 (w.field 5 16)) (w.field 21 2)
    else none
  | 0b10011 =>
    if w.field 23 1 = 0 ∧ w.field 22 1 = 1 then do
      let op ← Bitfield.ofBits? (w.field 29 2)
      return bitfield op rd rn (w.field 16 6) (w.field 10 6)
    else none
  | 0b11011 =>
    if w.field 21 3 = 0 ∧ w.field 29 2 = 0 then
      some (dataProc3 (.ofBits (w.field 15 1)) rd rn rm (w.reg 10))
    else none
  | 0b11010 =>
    if w.field 21 8 = 0b11010110 ∧ w.field 29 2 = 0 then do
      let op ← DataOp2.ofBits? (w.field 10 6)
      return dataProc2 op rd rn rm
    else if w.field 21 8 = 0b11010100 ∧ w.field 29 2 = 0 ∧ w.field 11 1 = 0 then do
      let cond ← FlagCond.ofBits? (w.field 12 4)
      return condSelect (.ofBits (w.field 10 1)) rd rn rm cond
    else none
  | _ => none

def decode? (w : Word) : Option Instr :=
  let rd := w.reg 0
  let rn := w.reg 5
  if w.field 10 22 = 0b1101011001011111000000 ∧ w.field 0 5 = 0 then some (ret rn)
  else if w.field 31 1 = 1 ∧ w.field 24 5 = 0b10000 then
    some (adrp rd (signedField 21 (w.field 29 2 + 4 * w.field 5 19)))
  else if w.field 26 5 = 0b00101 then
    some (branch (w.flag 31) (signedField 26 (w.field 0 26) * 4))
  else if w.field 24 8 = 0b01010100 ∧ w.field 4 1 = 0 then do
    let cond ← FlagCond.ofBits? (w.field 0 4)
    return branchCond cond (signedField 19 (w.field 5 19) * 4)
  else if w.field 25 7 = 0b1011010 then
    some (compareBranch (w.flag 24) rd (signedField 19 (w.field 5 19) * 4))
  else if w.field 24 6 = 0b111001 then do
    let size := MemSize.ofBits (w.field 30 2)
    let op ← MemOp.ofBits? (w.field 22 2) size
    return loadStore op size rd rn (w.field 10 12 * size.bytes)
  else if w.field 25 7 = 0b1010100 then do
    let mode ← PairMode.ofBits? (w.field 23 2)
    return loadStorePair (w.flag 22) mode rd (w.reg 10) rn (signedField 7 (w.field 15 7) * 8)
  else if w.field 31 1 = 1 then decodeData w
  else none

def decode (w : Word) : Except EncodingError Instr :=
  match decode? w with
  | some i => .ok i
  | none => .error (.unknown w)

end Instr

end SsaCodegen
