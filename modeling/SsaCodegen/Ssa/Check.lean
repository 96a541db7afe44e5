import SsaCodegen.Ssa.Dominators

/-!
Checks of SSA functions: consistent edges and blocks, definitions that dominate their uses, and
true use counts.
-/

namespace SsaCodegen

namespace Func

def successorsOf : BlockKind → Nat
  | .plain => 1 | .branch => 2 | .ret => 0

variable (f : Func)

def controlFits (k : Block) : Bool :=
  match k.kind, k.control with
  | .branch, some c => (f.value c).ty == TypeId.bool
  | .ret, some c => (f.value c).op == .ret
  | .plain, none => true
  | _, _ => false

def edgeListed (b s : BlockId) : Bool :=
  (f.block s).preds.count b == (f.block b).succs.count s

/-- Checks the values of a block in order; `leading` tells whether phis may still follow. -/
def checkValues (f : Func) (b : BlockId) : Bool → List ValueId → Except CfgFault Unit
  | _, [] => pure ()
  | leading, v :: rest => do
    let x := f.value v
    let preds := (f.block b).preds.length
    if x.block ≠ b then throw (.recordsBlock v x.block)
    if x.op = .phi then
      if !leading then throw (.latePhi v)
      if x.span.count ≠ preds then throw (.phiOperandCount v x.span.count preds)
    f.checkValues b (leading && x.op.isLeading) rest

def checkBlock (b : BlockId) : Except CfgFault Unit := do
  let k := f.block b
  if 2 < k.succs.length then throw .tooManySuccessors
  if k.succs.length ≠ successorsOf k.kind then throw (.successorCount k.kind k.succs.length)
  if !f.controlFits k then throw .controlMismatch
  if let some s := k.succs.find? fun s => !f.edgeListed b s then throw (.missingPredecessor s)
  if let some p := k.preds.find? fun p => !(f.block p).succs.contains b then
    throw (.missingSuccessor p)
  f.checkValues b true k.values

def checkCfg : Except CompileError Unit :=
  f.blockIds.forM fun b => (f.checkBlock b).mapError (.cfgInconsistent f.name b)

/-- A place in a function: before the value of that index in its block, or at the block's end. -/
structure Place where
  block : BlockId
  index : Option Nat

def positions : Array (Option (BlockId × Nat)) :=
  f.blockIds.foldl (fun ps b =>
    (f.block b).values.zipIdx.foldl (fun ps (v, i) => ps.setIfInBounds v (some (b, i))) ps)
    (Array.replicate f.values.size none)

/-- Whether a value that is computed at `p` is available at a place. -/
def availableAt (t : DomTree) (p : BlockId × Nat) (place : Place) : Bool :=
  if p.1 = place.block then
    match place.index with
    | none => true
    | some i => p.2 < i
  else t.dominates p.1 place.block

def valueReads (b : BlockId) (v : ValueId) (i : Nat) : List (ValueId × Place) :=
  if (f.value v).op = .phi then
    (f.args v).zipIdx.map fun (a, k) => (a, ⟨(f.block b).preds.getD k 0, none⟩)
  else (f.args v).map fun a => (a, ⟨b, some i⟩)

def controlReads (b : BlockId) : List (ValueId × Place) :=
  let k := f.block b
  match k.control with
  | none => []
  | some c => (if k.kind = .ret then f.args c else [c]).map fun a => (a, ⟨b, none⟩)

def blockReads (b : BlockId) : List (ValueId × Place) :=
  ((f.block b).values.zipIdx.flatMap fun (v, i) => f.valueReads b v i) ++ f.controlReads b

def checkDominance (t : DomTree) : Except CompileError Unit :=
  let positions := f.positions
  let reads := t.order.flatMap f.blockReads
  match reads.find? fun (a, place) => !(positions.getD a none).any (availableAt t · place) with
  | some (a, place) => throw (.ssaDominance f.name a place.block)
  | none => pure ()

def checkUseCounts : Except CompileError Unit :=
  let counted := f.recountUses
  match (List.range f.values.size).find? fun v => (f.value v).uses ≠ (counted.value v).uses with
  | some v => throw (.useCount f.name v (counted.value v).uses (f.value v).uses)
  | none => pure ()

def verify : Except CompileError Unit := do
  f.checkCfg
  f.checkDominance (DomTree.compute f)
  f.checkUseCounts

end Func

end SsaCodegen
