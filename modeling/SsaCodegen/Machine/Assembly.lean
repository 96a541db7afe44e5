import SsaCodegen.Machine.Encoding

/-!
Instructions as assembly text, and listings of machine code.
-/

namespace SsaCodegen

open Text

namespace Reg

def name (r : Reg) : String :=
  if r = fp then "fp" else if r = lr then "lr" else if r = sp then "sp" else "x" ++ decimal r

def zeroOperand (r : Reg) : String :=
  if r = xzr then "xzr" else "x" ++ decimal r

def stackOperand (r : Reg) : String :=
  if r = sp then "sp" else "x" ++ decimal r

def halfOperand (r : Reg) : String :=
  if r = xzr then "wzr" else "w" ++ decimal r

end Reg

def AddSub.name : AddSub → String
  | add => "add" | adds => "adds" | sub => "sub" | subs => "subs"

def Logic.name : Logic → Bool → String
  | and, false => "and" | and, true => "bic"
  | orr, false => "orr" | orr, true => "orn"
  | eor, false => "eor" | eor, true => "eon"
  | ands, false => "ands" | ands, true => "bics"

def MovWide.name : MovWide → String
  | movn => "movn" | movz => "movz" | movk => "movk"

def DataOp2.name : DataOp2 → String
  | udiv => "udiv" | sdiv => "sdiv" | lslv => "lsl" | lsrv => "lsr" | asrv => "asr"

def DataOp3.name : DataOp3 → String
  | madd => "madd" | msub => "msub"

def Bitfield.name : Bitfield → String
  | sbfm => "sbfm" | ubfm => "ubfm"

def CondSelect.name : CondSelect → String
  | csel => "csel" | csinc => "csinc"

def MemOp.name : MemOp → MemSize → String
  | store, .b => "strb" | store, .h => "strh" | store, _ => "str"
  | load, .b => "ldrb" | load, .h => "ldrh" | load, _ => "ldr"
  | loadSigned, .b => "ldrsb" | loadSigned, .h => "ldrsh"
  | loadSigned, .w => "ldrsw" | loadSigned, .x => "ldrs"

namespace Instr

def transferOperand : MemOp → MemSize → Reg → String
  | .loadSigned, _, rt => rt.zeroOperand
  | _, .x, rt => rt.zeroOperand
  | _, _, rt => rt.halfOperand

/-- The instruction in assembly syntax; displacements are relative and signed. -/
def text : Instr → String
  | addSubReg op rd rn rm shift =>
    let operands := s!"{op.name} {rd.zeroOperand}, {rn.zeroOperand}, {rm.zeroOperand}"
    if shift = 0 then operands else s!"{operands}, lsl #{decimal shift}"
  | addSubImm op rd rn imm12 shift12 =>
    let rd := if op.setsFlags then rd.zeroOperand else rd.stackOperand
    let operands := s!"{op.name} {rd}, {rn.stackOperand}, #{decimal imm12}"
    if shift12 then s!"{operands}, lsl #12" else operands
  | logical op invert rd rn rm =>
    s!"{op.name invert} {rd.zeroOperand}, {rn.zeroOperand}, {rm.zeroOperand}"
  | movWide op rd imm16 hw =>
    s!"{op.name} {rd.zeroOperand}, #0x{hex imm16.toNat}, lsl #{decimal (hw * 16)}"
  | dataProc2 op rd rn rm =>
    s!"{op.name} {rd.zeroOperand}, {rn.zeroOperand}, {rm.zeroOperand}"
  | dataProc3 op rd rn rm ra =>
    s!"{op.name} {rd.zeroOperand}, {rn.zeroOperand}, {rm.zeroOperand}, {ra.zeroOperand}"
  | bitfield op rd rn immr imms =>
    s!"{op.name} {rd.zeroOperand}, {rn.zeroOperand}, #{decimal immr}, #{decimal imms}"
  | condSelect op rd rn rm cond =>
    s!"{op.name} {rd.zeroOperand}, {rn.zeroOperand}, {rm.zeroOperand}, {cond.name}"
  | loadStore op size rt rn offset =>
    s!"{op.name size} {transferOperand op size rt}, [{rn.stackOperand}, #{decimal offset}]"
  | loadStorePair load mode rt rt2 rn offset =>
    let name := if load then "ldp" else "stp"
    let regs := s!"{name} {rt.zeroOperand}, {rt2.zeroOperand}"
    match mode with
    | .offset => s!"{regs}, [{rn.stackOperand}, #{integer offset}]"
    | .preIndex => s!"{regs}, [{rn.stackOperand}, #{integer offset}]!"
    | .postIndex => s!"{regs}, [{rn.stackOperand}], #{integer offset}"
  | branch link offset =>
    let name := if link then "bl" else "b"
    s!"{name} {signed offset}"
  | branchCond cond offset => s!"b.{cond.name} {signed offset}"
  | compareBranch nonzero rt offset =>
    let name := if nonzero then "cbnz" else "cbz"
    s!"{name} {rt.zeroOperand}, {signed offset}"
  | ret rn => s!"ret {rn.zeroOperand}"
  | adrp rd pages => s!"adrp {rd.zeroOperand}, {signed pages}"

end Instr

def wordsOfBytes : List UInt8 → List Word
  | [] => []
  | a :: b :: c :: d :: rest => Word.ofBytes [a, b, c, d] :: wordsOfBytes rest
  | last => [Word.ofBytes last]

/-- One line for each instruction word of little-endian code, with its offset. -/
def disassemble (code : List UInt8) : List String :=
  (wordsOfBytes code).zipIdx.map fun (w, i) =>
    let line := match Instr.decode? w with
      | some instr => instr.text
      | none => s!".word 0x{hexWord w.toNat}"
    padLeft ' ' 6 (hex (i * 4)) ++ ": " ++ line

end SsaCodegen
