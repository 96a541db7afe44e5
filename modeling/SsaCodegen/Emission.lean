import SsaCodegen.Emission.Values

/-!
Code for a whole function: the frame is set up, the blocks follow in their order, and the branches
are patched.
-/

namespace SsaCodegen

structure Emitted where
  code : List UInt8
  relocs : List Reloc
  frameSize : Nat

/-- Moves the stack pointer; frames must be below `2 ^ 24` bytes. -/
def adjustStack (op : AddSub) (amount : Nat) : Emit Unit := do
  if 0x1000000 ≤ amount then throw (.encoding (.outOfRange .frameSize amount))
  emitAll (Instr.addSubSteps op Reg.sp Reg.sp amount)

namespace Target

def emitPrologue (t : Target) : Emit Unit := do
  if t.frame.hasRecord then
    emitAll Frame.saveRecord
    adjustStack .sub t.frame.bodySize

def emitReturn (t : Target) (ret : ValueId) : Emit Unit := do
  let moves ← match t.func.dataArgs ret with
    | [] => pure []
    | v :: _ => do
      let loc ← t.location v
      pure ((resultRegs.take (t.types.parts (t.func.value v).ty)).zipIdx.map fun (r, part) =>
        (⟨loc.part part, .reg r⟩ : WordMove))
  t.moveAll moves
  emitAll t.frame.leave

def emitChoice (cond : Reg) (yes no : BlockId) (next : Option BlockId) : Emit Unit := do
  if next = some yes then emitBranch (.cbz cond 0) no .compare
  else
    emitBranch (.cbnz cond 0) yes .compare
    if next ≠ some no then emitBranch (.b 0) no .jump

/-- Ends a block; `next` is the block that follows it in the code. -/
def emitControl (t : Target) (b : BlockId) (next : Option BlockId) : Emit Unit := do
  let k := t.func.block b
  let moves := t.edgeMoves.getD b []
  match k.kind, k.control with
  | .plain, _ =>
    t.moveAll moves
    match k.succs with
    | [] => t.reject (.noSuccessor b)
    | succ :: _ => if next ≠ some succ then emitBranch (.b 0) succ .jump
  | .branch, some c =>
    if !moves.isEmpty then t.reject (.branchCopies b)
    let cond ← t.reg c
    emitChoice cond (k.succs.getD 0 0) (k.succs.getD 1 0) next
  | .ret, some ret => t.emitReturn ret
  | _, none => t.reject (.noControl b)

def emitBlock (t : Target) (b : BlockId) (next : Option BlockId) : Emit Unit := do
  placeBlock b
  (t.func.block b).values.forM t.emitValue
  t.emitControl b next

def emitBlocks (t : Target) : List BlockId → Emit Unit
  | [] => return
  | b :: rest => do
    t.emitBlock b rest.head?
    t.emitBlocks rest

def emitFunction (t : Target) (layout : List BlockId) : Emit Unit := do
  t.emitPrologue
  t.emitBlocks layout

end Target

def Allocation.frame (a : Allocation) (f : Func) (types : TypeTable) : Frame :=
  Frame.layout (f.locals.toList.map fun l => (types.size l.ty, types.align l.ty)) a.spillSize
    a.outgoingSize (0 < a.callSites) a.signature.usesStack

/-- Emits the code of a function whose values have locations. -/
def generate (f : Func) (types : TypeTable) (a : Allocation) : Except CompileError Emitted := do
  let frame := a.frame f types
  let t : Target := { func := f, types, frame, edgeMoves := a.edgeMoves }
  let start : Code :=
    { words := #[], relocs := [], branches := [], starts := Array.replicate f.blocks.size none }
  let (_, c) ← (t.emitFunction a.layout).run start
  let c ← c.patchAll f.name
  return { code := c.bytes, relocs := c.relocs, frameSize := frame.size }

end SsaCodegen
