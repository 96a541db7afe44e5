import SsaCodegen.Allocation
import SsaCodegen.Emission.Code
import SsaCodegen.Emission.Memory

/-!
Code for one value. Stores, reloads and constants made anew are values like any others.
-/

namespace SsaCodegen

structure Target where
  func : Func
  types : TypeTable
  frame : Frame
  /-- For each block, the copies at its end. -/
  edgeMoves : Array (List WordMove)

namespace Target

def reject {α : Type} (t : Target) (fault : AllocationFault) : Emit α :=
  throw (.registerAllocation t.func.name fault)

variable (t : Target)

def location (v : ValueId) : Emit ValueLoc :=
  match (t.func.value v).loc with
  | some loc => return loc
  | none => t.reject (.noLocation v)

def regs (t : Target) (v : ValueId) : Emit (List Reg) := do
  let loc ← t.location v
  if loc.isReg then return loc.regs else t.reject (.notInRegister v loc)

def reg (v : ValueId) : Emit Reg := return (← t.regs v).headD 0

def intPayload (v : ValueId) : Emit Int :=
  match (t.func.value v).payload.int? with
  | some k => return k
  | none => t.reject (.noInteger v)

def natPayload (v : ValueId) : Emit Nat :=
  return ((← t.intPayload v) % 0x100000000).toNat

def moveWord (t : Target) (src dst : WordLoc) : Emit Unit :=
  match t.frame.moveWord src dst with
  | some is => emitAll is
  | none => t.reject (.moveIntoImmediate src)

def moveAll (moves : List WordMove) : Emit Unit :=
  (Moves.sequentialize moves (.reg cycleTemp)).forM fun m => t.moveWord m.src m.dst

def valueMoves (ty : TypeId) (src dst : ValueLoc) : List WordMove :=
  (List.range (t.types.parts ty)).map fun part => ⟨src.part part, dst.part part⟩

/-- Brings a parameter into the form of its type; the caller leaves the upper bits open. -/
def emitArg (v : ValueId) : Emit Unit := do
  let ty := (t.func.value v).ty
  if (Instr.extendTo t.types ty 0).isEmpty then return
  match ← t.location v with
  | .reg r => emitAll (Instr.extendTo t.types ty r)
  | .stack slot =>
    let (base, offset) := t.frame.address slot
    let size := MemSize.ofBytes (t.types.size ty)
    emitAll [.load size (t.types.isSigned ty) scratch base offset, .str scratch base offset]
  | _ => return

def emitConst (v : ValueId) : Emit Unit := do
  match ← t.location v with
  | .reg r => emitAll (Instr.movInt r (← t.intPayload v))
  | _ => return

def emitBinary (v : ValueId) : Emit Unit := do
  let x := t.func.value v
  let rd ← t.reg v
  let a ← t.reg (t.func.arg v 0)
  let b ← t.reg (t.func.arg v 1)
  emitAll (Instr.binary t.types x.op x.ty rd a b)

def emitUnary (v : ValueId) : Emit Unit := do
  let x := t.func.value v
  let rd ← t.reg v
  let a ← t.reg (t.func.arg v 0)
  emitAll (Instr.unary t.types x.op x.ty rd a)

def emitCompare (v : ValueId) : Emit Unit := do
  match (t.func.value v).payload with
  | .relation r =>
    let rd ← t.reg v
    let a ← t.reg (t.func.arg v 0)
    let b ← t.reg (t.func.arg v 1)
    emitAll (Instr.compare r rd a b)
  | _ => t.reject (.noRelation v)

def emitConvert (v : ValueId) : Emit Unit := do
  let x := t.func.value v
  let source := t.func.arg v 0
  let rd ← t.reg v
  let rn ← t.reg source
  emitAll (Instr.convert t.types x.op (t.func.value source).ty x.ty rd rn)

def emitCopy (v : ValueId) : Emit Unit := do
  let dst ← t.location v
  let src ← t.location (t.func.arg v 0)
  t.moveAll (t.valueMoves (t.func.value v).ty src dst)

def emitPack (v : ValueId) : Emit Unit := do
  let dst ← t.location v
  let moves ← (t.func.args v).zipIdx.mapM fun (a, part) => do
    let src ← t.location a
    return (⟨src.part 0, dst.part part⟩ : WordMove)
  t.moveAll moves

def emitExtract (v : ValueId) : Emit Unit := do
  let dst ← t.location v
  let src ← t.location (t.func.arg v 0)
  let index ← t.natPayload v
  t.moveAll [⟨src.part index, dst.part 0⟩]

def emitLocalAddr (v : ValueId) : Emit Unit := do
  match (t.func.value v).payload with
  | .slot l =>
    let rd ← t.reg v
    let (base, offset) := t.frame.localAddress l
    emitAll (Instr.addOffset rd base offset)
  | _ => t.reject (.noLocal v)

def emitGlobalAddr (v : ValueId) : Emit Unit := do
  match (t.func.value v).payload with
  | .symbol name =>
    let rd ← t.reg v
    emitReloc (.adrp rd 0) name .page
    emitReloc (.addImm rd rd 0) name .pageOffset
  | _ => t.reject (.noSymbol v)

def emitOffPtr (v : ValueId) : Emit Unit := do
  let rd ← t.reg v
  let rn ← t.reg (t.func.arg v 0)
  emitAll (Instr.addOffset rd rn (← t.intPayload v))

def emitLoad (v : ValueId) : Emit Unit := do
  let rs ← t.regs v
  let ptr ← t.reg (t.func.arg v 0)
  emitAll (Instr.loadValue t.types (t.func.value v).ty rs ptr)

def emitStore (v : ValueId) : Emit Unit := do
  let ptr ← t.reg (t.func.arg v 0)
  let stored := t.func.arg v 1
  let rs ← t.regs stored
  emitAll (Instr.storeValue (t.types.size (t.func.value stored).ty) rs ptr)

def emitZero (v : ValueId) : Emit Unit := do
  let ptr ← t.reg (t.func.arg v 0)
  emitAll (Instr.clearBytes (← t.natPayload v) ptr)

def emitMove (v : ValueId) : Emit Unit := do
  let target ← t.reg (t.func.arg v 0)
  let source ← t.reg (t.func.arg v 1)
  if target = source then return
  emitAll (Instr.copyBytes (← t.natPayload v) target source)

/-- Puts an argument word on the stack at once, and passes on the move of one that goes to a
register. -/
def emitStackArg (w : ArgWord) : Emit (List WordMove) := do
  let src := (← t.location w.value).part w.part
  match w.dest with
  | .stack _ =>
    t.moveWord src w.dest
    return []
  | _ => return [⟨src, w.dest⟩]

/-- Arguments on the stack come first, while every register is as it was. -/
def emitCall (v : ValueId) : Emit Unit := do
  match (t.func.value v).payload with
  | .callee callee =>
    let layout ← CallLayout.of t.func t.types v
    let moves ← layout.words.mapM t.emitStackArg
    t.moveAll moves.flatten
    emitReloc (.bl 0) callee.symbol .call
    match layout.result with
    | some (.reg r) => emitAll (Instr.extendTo t.types (t.func.value v).ty r)
    | _ => return
  | _ => t.reject (.noCallee v)

def emitStoreReg (v : ValueId) : Emit Unit := do
  let src ← t.location (t.func.arg v 0)
  match ← t.location v with
  | .stack slot =>
    let (base, offset) := t.frame.address slot
    let wordwise := (t.valueMoves (t.func.value v).ty src (.stack slot)).forM fun m =>
      t.moveWord m.src m.dst
    match src with
    | .pair lo hi => if offset ≤ maxPairOffset then emit (.stp lo hi base offset) else wordwise
    | _ => wordwise
  | _ => t.reject (.noSpillSlot v)

def emitLoadReg (v : ValueId) : Emit Unit := do
  let dst ← t.location v
  let src ← t.location (t.func.arg v 0)
  match src, dst with
  | .stack slot, .pair lo hi =>
    let (base, offset) := t.frame.address slot
    if offset ≤ maxPairOffset then emit (.ldp lo hi base offset)
    else
      t.moveWord (src.part 0) (.reg lo)
      t.moveWord (src.part 1) (.reg hi)
  | .stack slot, .reg r => t.moveWord (.stack slot) (.reg r)
  | _, _ => t.reject (.badReload v src dst)

def emitValue (v : ValueId) : Emit Unit :=
  match (t.func.value v).op with
  | .initMem | .phi | .resultPtr => return
  | .arg => t.emitArg v
  | .const => t.emitConst v
  | .add | .sub | .mul | .sdiv | .udiv | .srem | .urem | .and | .or | .xor | .shl | .lshr | .ashr =>
    t.emitBinary v
  | .neg | .not => t.emitUnary v
  | .cmp => t.emitCompare v
  | .signExt | .zeroExt | .trunc => t.emitConvert v
  | .copy => t.emitCopy v
  | .pack => t.emitPack v
  | .extract => t.emitExtract v
  | .localAddr => t.emitLocalAddr v
  | .globalAddr => t.emitGlobalAddr v
  | .offPtr => t.emitOffPtr v
  | .load => t.emitLoad v
  | .store => t.emitStore v
  | .zero => t.emitZero v
  | .move => t.emitMove v
  | .call => t.emitCall v
  | .storeReg => t.emitStoreReg v
  | .loadReg => t.emitLoadReg v
  | .ret => t.reject (.misplaced v .ret)

end Target

end SsaCodegen
