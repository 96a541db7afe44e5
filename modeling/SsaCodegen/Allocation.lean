import SsaCodegen.Allocation.Homes
import SsaCodegen.Moves

/-!
Register allocation, block by block in reverse postorder. A block with one predecessor starts with
the registers as that one left them, any other with its phis alone. In the end the operands of phis
become copies at the ends of the predecessors.
-/

namespace SsaCodegen

namespace Setting

def rename (v : ValueId) (operands : List ValueId) (u copy : ValueId) : Alloc Unit :=
  modify fun s =>
    let step (f : Func) (operand : ValueId × Nat) : Func :=
      if operand.1 = u then f.setArg v operand.2 copy else f
    { s with func := operands.zipIdx.foldl step s.func }

def distinctOperands (f : Func) (operands : List ValueId) : List ValueId :=
  operands.foldl (fun seen u =>
    if (f.value u).hasResult && !seen.contains u then seen ++ [u] else seen) []

variable (c : Setting)

def releaseDead (v : ValueId) : Alloc Unit :=
  modify fun s => if s.isLiveAfter c.live v then s else s.release v

def define (v : ValueId) : Alloc Unit := do
  let words ← c.parts v
  let rs ← c.takeRegs words ∅
  modify fun s => ((s.hold v v rs true).setLoc v (ValueLoc.ofRegs? rs)).emit v
  c.releaseDead v

/-- An instruction that reads registers and writes registers. Registers of operands that are not
needed afterwards may be taken for the result. -/
def allocateValue (v : ValueId) : Alloc Unit := do
  let f := (← get).func
  let operands := f.dataArgs v
  let distinct := distinctOperands f operands
  modify fun s => distinct.foldl (fun s u => s.lockAll (s.regs.regsOf u)) s
  distinct.forM fun u => do
    let copy ← c.useInReg u
    if copy ≠ u then rename v operands u copy
  distinct.forM c.releaseDead
  if (f.value v).hasResult then c.define v else modify (·.emit v)
  modify fun s => { s with regs := s.regs.unlockAll }

def useCopies (v : ValueId) : Alloc Unit := do
  let operands := (← get).func.dataArgs v
  operands.zipIdx.forM fun (u, k) => do
    let copy ← c.copyOf u
    if copy ≠ u then modify fun s => { s with func := s.func.setArg v k copy }

def saveLive : Alloc Unit := do
  (← get).regs.occupied.forM fun (r, o) => do
    let s ← get
    if s.regs.isDirty r && s.isLiveAfter c.live o.value then
      let _ ← c.home o.value

def allocateCall (v : ValueId) : Alloc Unit := do
  c.useCopies v
  c.saveLive
  let f := (← get).func
  let layout ← CallLayout.of f c.types v
  modify fun s =>
    { s with
      regs := s.regs.clear
      outgoingSize := max s.outgoingSize layout.stackSize
      callSites := s.callSites + 1 }.emit v
  match layout.result with
  | none => return
  | some loc =>
    modify fun s => (s.hold v v loc.regs true).setLoc v (some loc)
    c.releaseDead v

def allocateControl (b : BlockId) : Alloc Unit := do
  let k := (← get).func.block b
  match k.kind, k.control with
  | .branch, some cond =>
    let copy ← c.useInReg cond
    modify fun s =>
      { s with func := s.func.modifyBlock b ({ · with control := some copy }) }
  | .ret, some ret => c.useCopies ret
  | _, _ => return
  modify fun s => { s with regs := s.regs.unlockAll }

end Setting

/-- What register allocation says besides the locations in the function. -/
structure Allocation where
  /-- The order of the blocks in the code. -/
  layout : List BlockId
  /-- For each block, the copies at its end. -/
  edgeMoves : Array (List WordMove)
  spillSize : Nat
  spillSlots : Nat
  /-- Stores that were added. -/
  spills : Nat
  /-- Loads that were added. -/
  reloads : Nat
  /-- Constants that were made anew. -/
  remats : Nat
  callSites : Nat
  /-- Bytes of the largest area of outgoing arguments. -/
  outgoingSize : Nat
  signature : Signature

namespace Setting

/-- The uses in a block, by value and position; the end counts as the position after all values. -/
def usesIn (f : Func) (b : BlockId) : List (ValueId × Nat) :=
  let k := f.block b
  let body := k.values.zipIdx.flatMap fun (v, i) =>
    if f.isPhi v then [] else (f.dataArgs v).map (·, i)
  let ending := match k.kind, k.control with
    | .branch, some c => [c]
    | .ret, some ret => f.dataArgs ret
    | _, _ => []
  body ++ ending.map (·, k.values.length)

variable (c : Setting)

/-- Where a value of the entry arrives, if the caller passes it. -/
def arrival? (v : ValueId) : Alloc (Option ValueLoc) := do
  match ((← get).func.value v).op with
  | .arg =>
    let k ← intPayload v
    -- a negative index is read as a word in two's complement
    let index := (if k < 0 then k + 0x10000000000000000 else k).toNat
    match c.signature.paramLocation? index with
    | some loc => return some loc
    | none => reject (.noParameterLocation index)
  | .resultPtr => return some (.reg Reg.x8)
  | _ => return none

/-- Starts the function with its parameters where the caller put them. -/
def enterFunction (values : List ValueId) : Alloc Unit :=
  values.forM fun v => do
    match ← c.arrival? v with
    | none => return
    | some loc =>
      modify (·.setLoc v (some loc))
      if loc.isReg then
        modify fun s =>
          let s := s.hold v v loc.regs true
          if s.isLiveFrom c.live v 0 then s else s.release v
      else modify (·.setHome v v)

def inherit (b : BlockId) (state : List (Reg × Occupant)) : Alloc Unit :=
  modify fun s =>
    state.foldl (fun s (r, o) =>
      if (c.live.liveIn b).contains o.value then
        { s with regs := s.regs.assign r o !s.hasHome o.value }
      else s) s

/-- Gives a phi free registers, or else a slot on the stack. -/
def placePhi (phi : ValueId) : Alloc Unit := do
  let words ← c.parts phi
  modify fun s =>
    let free := (s.regs.allocatable.toList.filter fun r => !s.regs.inUse r).take words
    if free.length = words then (s.hold phi phi free true).setLoc phi (ValueLoc.ofRegs? free)
    else
      let (slot, s) := s.newSlot words
      (s.setLoc phi (some (.stack slot))).setHome phi phi

def joinPaths (b : BlockId) (values : List ValueId) : Alloc Unit := do
  values.forM fun v => do
    let x := (← get).func.value v
    if x.op = .phi ∧ x.hasResult then c.placePhi v
  modify fun s =>
    values.foldl (fun s v =>
      if s.func.isPhi v && !s.isLiveFrom c.live v 0 then s.release v else s) s
  (c.live.liveIn b).toList.forM fun v => do
    let _ ← c.home v

def enterBlock (b : BlockId) (values : List ValueId) : Alloc Unit := do
  modify fun s => { s with regs := s.regs.clear }
  let s ← get
  if b = s.func.entry then c.enterFunction values
  else
    match (s.func.block b).preds with
    | [p] =>
      match s.endStates.getD p none with
      | some state => c.inherit b state
      | none => c.joinPaths b values
    | _ => c.joinPaths b values

def allocateAt (v : ValueId) (pos : Nat) : Alloc Unit := do
  modify ({ · with pos })
  match ((← get).func.value v).op with
  | .phi | .arg | .resultPtr | .initMem => modify (·.emit v)
  | .const =>
    let k ← intPayload v
    modify fun s => (s.setLoc v (some (.imm k))).emit v
  | .call => c.allocateCall v
  | _ => c.allocateValue v

def allocateBlock (b : BlockId) : Alloc Unit := do
  let values := ((← get).func.block b).values
  modify fun s =>
    { s with current := some b, blockLen := values.length, out := [], uses := usesIn s.func b }
  c.enterBlock b values
  values.zipIdx.forM fun (v, i) => c.allocateAt v i
  modify ({ · with pos := values.length })
  c.allocateControl b
  modify fun s =>
    { s with
      func := s.func.modifyBlock b ({ · with values := s.out })
      endStates := s.endStates.setIfInBounds b (some s.regs.occupied) }

def copyAtEnd (pred : BlockId) (u : ValueId) : Alloc ValueId := do
  let state := ((← get).endStates.getD pred none).getD []
  match state.find? fun (_, o) => o.value == u with
  | some (_, o) => return o.copy
  | none => c.home u

/-- Lets operand `k` of a phi name its copy at the end of `pred`; the result is the moves that bring
it to the phi. -/
def phiMoves (pred : BlockId) (k : Nat) (phi : ValueId) : Alloc (List WordMove) := do
  let copy ← c.copyAtEnd pred ((← get).func.arg phi k)
  modify fun s => { s with func := s.func.setArg phi k copy }
  let f := (← get).func
  match (f.value copy).loc, (f.value phi).loc with
  | some src, some dst =>
    let words ← c.parts phi
    let moves := (List.range words).map fun part => (⟨src.part part, dst.part part⟩ : WordMove)
    return moves.filter fun m => m.src ≠ m.dst
  | _, _ => reject (.phiOperand phi copy)

def edgeMoves (pred succ : BlockId) : Alloc (List WordMove) := do
  let f := (← get).func
  match f.predIndex? succ pred with
  | none => return []
  | some k =>
    let phis := (f.phis succ).filter fun p => (f.value p).hasResult
    return (← phis.mapM (c.phiMoves pred k)).flatten

def blockMoves (pred : BlockId) : Alloc (List WordMove) := do
  let succs := ((← get).func.block pred).succs
  return (← succs.mapM (c.edgeMoves pred)).flatten

def resolveEdges (layout : List BlockId) : Alloc (Array (List WordMove)) := do
  let start := Array.replicate (← get).func.blocks.size []
  layout.foldlM (fun all b => return all.setIfInBounds b (← c.blockMoves b)) start

def allocateAll (layout : List BlockId) : Alloc (Array (List WordMove)) := do
  layout.forM c.allocateBlock
  modify ({ · with current := none })
  c.resolveEdges layout

end Setting

/-- Gives every value a location, with only the given registers handed out, and adds the stores and
loads that this takes. -/
def allocate (f : Func) (types : TypeTable) (allocatable : RegSet) :
    Except CompileError (Allocation × Func) := do
  let signature ← Signature.of types f
  let layout := f.reversePostorder
  let start : Allocator :=
    { func := f, regs := .new allocatable, homes := [],
      endStates := Array.replicate f.blocks.size none, current := none, out := [], uses := [],
      pos := 0, blockLen := 0, spillSize := 0, spillSlots := 0, spills := 0, reloads := 0,
      remats := 0, callSites := 0, outgoingSize := 0 }
  let c : Setting := { types, live := Liveness.compute f, signature }
  let (edgeMoves, s) ← (c.allocateAll layout).run start
  return ({ layout, edgeMoves, spillSize := s.spillSize, spillSlots := s.spillSlots,
            spills := s.spills, reloads := s.reloads, remats := s.remats, callSites := s.callSites,
            outgoingSize := s.outgoingSize, signature }, s.func.recountUses)

end SsaCodegen
