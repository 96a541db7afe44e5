import SsaCodegen.Ssa.Op
import SsaCodegen.Types

/-!
Instructions for integers. A register holds a narrow integer extended to 64 bits, and a boolean as
zero or one. The registers `x16` and `x17` are free for intermediate results.
-/

namespace SsaCodegen

def scratch : Reg := Reg.ip0

def cycleTemp : Reg := Reg.ip1

namespace Instr

def movInt (rd : Reg) (value : Int) : List Instr := movImm rd (BitVec.ofInt 64 value)

/-- Adds or subtracts an amount below `2 ^ 24` in at most two steps of twelve bits. -/
def addSubSteps (op : AddSub) (rd rn : Reg) (amount : Nat) : List Instr :=
  let hi := amount / 4096
  let lo := amount % 4096
  let upper := if hi = 0 then [] else [addSubImm op rd rn hi true]
  let lower := if lo = 0 then [] else [addSubImm op rd (if hi = 0 then rn else rd) lo false]
  upper ++ lower

/-- `rd = rn + offset`, where `rd` is no stack pointer and `rn` may be one. -/
def addOffset (rd rn : Reg) (offset : Int) : List Instr :=
  if offset = 0 then
    if rd = rn then [] else [mov rd rn]
  else if offset.natAbs < 0x1000000 then
    addSubSteps (if offset < 0 then .sub else .add) rd rn offset.natAbs
  else if rn = Reg.sp then movInt scratch offset ++ [mov cycleTemp rn, add rd cycleTemp scratch]
  else movInt scratch offset ++ [add rd rn scratch]

variable (types : TypeTable)

/-- Brings a register into the form in which it holds values of a type. -/
def extendTo (ty : TypeId) (r : Reg) : List Instr :=
  match types.kind ty with
  | .int bits signed =>
    if bits < 64 then [if signed then signExtend r r bits else zeroExtend r r bits] else []
  | .bool => [zeroExtend r r 1]
  | _ => []

def binaryCore (op : Op) (rd a b : Reg) : List Instr :=
  match op with
  | .add => [add rd a b]
  | .sub => [sub rd a b]
  | .mul => [mul rd a b]
  | .sdiv => [dataProc2 .sdiv rd a b]
  | .udiv => [dataProc2 .udiv rd a b]
  | .srem => [dataProc2 .sdiv scratch a b, msub rd scratch b a]
  | .urem => [dataProc2 .udiv scratch a b, msub rd scratch b a]
  | .and => [logic .and rd a b]
  | .or => [logic .orr rd a b]
  | .xor => [logic .eor rd a b]
  | .shl => [dataProc2 .lslv rd a b]
  | .lshr => [dataProc2 .lsrv rd a b]
  | .ashr => [dataProc2 .asrv rd a b]
  | _ => []

def overflows : Op → Bool
  | .add | .sub | .mul | .sdiv | .shl => true
  | _ => false

def binary (op : Op) (ty : TypeId) (rd a b : Reg) : List Instr :=
  binaryCore op rd a b ++ if overflows op then extendTo types ty rd else []

def unary (op : Op) (ty : TypeId) (rd a : Reg) : List Instr :=
  (if op = .neg then neg rd a else mvn rd a) :: extendTo types ty rd

def compare (r : Relation) (rd a b : Reg) : List Instr := [cmp a b, cset rd r.flagCond]

/-- The first step of a conversion: the extension that the source does not have yet, or a copy. -/
def convertCore (op : Op) (source : TypeId) (rd rn : Reg) : List Instr :=
  let bits := types.bits source
  let copy := if rd = rn then [] else [mov rd rn]
  match op with
  | .signExt => if bits < 64 ∧ !types.isSigned source then [signExtend rd rn bits] else copy
  | .zeroExt => if bits < 64 ∧ types.isSigned source then [zeroExtend rd rn bits] else copy
  | _ => copy

def convert (op : Op) (source target : TypeId) (rd rn : Reg) : List Instr :=
  let settled := match op with
    | .signExt => types.isSigned target
    | .zeroExt => true
    | _ => false
  convertCore types op source rd rn ++ if settled then [] else extendTo types target rd

end Instr

end SsaCodegen
