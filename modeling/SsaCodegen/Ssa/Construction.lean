import SsaCodegen.Convention
import SsaCodegen.Ir.Validity
import SsaCodegen.Ssa.Construction.Lowering
import SsaCodegen.Ssa.Construction.PhiGroups
import SsaCodegen.Ssa.Dominators

/-!
SSA form of input functions, without a separate placement of phis.
-/

namespace SsaCodegen

structure Built where
  func : Func
  /-- For each phi, the blocks that assign its variable. -/
  sites : List PhiSites
  phisCreated : Nat
  phisRemoved : Nat

namespace Ir.Func

/-- The blocks that a block leads to, each once in a row. -/
def distinctSuccessors (f : Func) (b : BlockId) : List BlockId :=
  match (f.block b).term with
  | none => []
  | some t =>
    match t.successors with
    | [x, y] => if x = y then [x] else [x, y]
    | succs => succs

def reachableBlocks (f : Func) : List BlockId :=
  let blocks := List.range f.blocks.size
  let found := reach f.distinctSuccessors blocks [0]
  blocks.filter found.contains

/-- How the block ends in SSA form. A branch with one target is no choice. -/
def kindOf (f : Func) (b : BlockId) : BlockKind :=
  match (f.block b).term with
  | some (.branch _ yes no) => if yes = no then .plain else .branch
  | some (.ret _) => .ret
  | _ => .plain

/-- An SSA function with the reachable blocks and their edges, and no values yet. -/
def skeleton (f : Func) : SsaCodegen.Func :=
  let sources := f.reachableBlocks
  let g := sources.foldl (fun g b => (g.addBlock (f.kindOf b) (f.block b).name).2)
    (SsaCodegen.Func.new f.name f.params f.result)
  sources.zipIdx.foldl (fun g (b, i) =>
    ((f.distinctSuccessors b).filterMap sources.idxOf?).foldl (fun g j => g.addEdge i j) g) g

/-- What tells where locals live: the types of all of them, and all nodes that take an address. -/
def checkLocals (f : Func) (types : TypeTable) : Except RangeFault Unit := do
  match f.locals.toList.zipIdx.find? fun (x, _) => !types.isValid x.ty with
  | some (x, l) => throw (.localType l x.ty)
  | none =>
    f.nodes.toList.zipIdx.forM fun (node, n) =>
      match node.kind with
      | .addrOf l => if l < f.locals.size then pure () else throw (.addressed n l)
      | _ => pure ()

def placeLocals (f : Func) (types : TypeTable) (g : SsaCodegen.Func) :
    Array (Option LocalId) × SsaCodegen.Func :=
  (f.locals.toList.zip (f.memoryLocals types)).foldl (fun (slots, g) (l, inMemory) =>
    if inMemory then
      let (slot, g) := g.addLocal l.name l.ty
      (slots.push (some slot), g)
    else (slots.push none, g)) (#[], g)

end Ir.Func

/-- Puts the memory state, the parameters and the address of an indirect result into the entry. -/
def enter (ir : Ir.Func) (types : TypeTable) : Task × Construction :=
  let (memoryLocals, f) := ir.placeLocals types ir.skeleton
  let (mem, f) := f.appendValue f.entry .initMem TypeId.mem [] .none
  let (params, f) := ir.params.zipIdx.foldl (fun (vs, f) (ty, i) =>
    let (v, f) := f.appendValue f.entry .arg (passedType types ty) [] (.int i)
    (vs ++ [v], f)) (([] : List ValueId), f)
  let (resultPtr, f) :=
    if types.isMemoryAggregate ir.result then
      let (v, f) := f.appendValue f.entry .resultPtr TypeId.ptr [] .none
      (some v, f)
    else (none, f)
  let s : Construction :=
    { func := f, defs := Array.replicate f.blocks.size [], sealedBlocks := [], filled := [],
      incomplete := [], forward := [], phiUsers := [], phiVars := [], assignments := [],
      consts := [], nodeValues := Array.replicate ir.nodes.size none, phisCreated := 0,
      phisRemoved := 0 }
  ({ ir, types, sources := ir.reachableBlocks.toArray, memoryLocals, params, resultPtr },
    s.assign .memory f.entry mem)

def trySeal (ir : Ir.Func) (b : BlockId) : Build Unit := do
  let s ← get
  if b ∉ s.sealedBlocks ∧ (s.func.block b).preds.all s.filled.contains then sealBlock ir b

def Task.visit (t : Task) (b : BlockId) : Build Unit := do
  trySeal t.ir b
  t.lowerBlock b
  modify fun s => { s with filled := b :: s.filled }
  ((← get).func.block b).succs.forM (trySeal t.ir)

def Task.lowerAll (t : Task) : Build Unit := do
  let f := (← get).func
  sealBlock t.ir f.entry
  f.reversePostorder.forM t.visit
  let s ← get
  match f.blockIds.find? (!s.sealedBlocks.contains ·) with
  | some b => throw (.cfgInconsistent f.name b .neverSealed)
  | none => return

namespace Construction

def substitute (s : Construction) : Func :=
  { s.func with
    operands := s.func.operands.map s.resolve
    blocks := s.func.blocks.map fun k =>
      { k with values := k.values.filter (!s.isReplaced ·), control := k.control.map s.resolve } }

def insertAfterLeading (f : Func) (vs : List ValueId) : Func :=
  f.modifyBlock f.entry fun k =>
    let leading := k.values.takeWhile fun v => (f.value v).op.isLeading
    { k with values := leading ++ vs ++ k.values.drop leading.length }

def finish (s : Construction) : Built :=
  let s := s.collapse
  let f := (insertAfterLeading s.substitute (s.consts.map (·.2))).dropDeadPhis.recountUses
  let sites := (f.blockIds.flatMap f.phis).map fun phi =>
    { phi, blocks := ((s.phiVars.lookup phi).map s.sites).getD [] : PhiSites }
  { func := f, sites, phisCreated := s.phisCreated, phisRemoved := s.phisRemoved }

end Construction

def buildUnchecked (ir : Ir.Func) (types : TypeTable) : Except CompileError Built := do
  (ir.checkLocals types).mapError (.outOfRange ir.name)
  let (t, s) := enter ir types
  let (_, s) ← t.lowerAll.run s
  return s.finish

def buildSsa (ir : Ir.Func) (types : TypeTable) : Except CompileError Built := do
  ir.validate types
  buildUnchecked ir types

end SsaCodegen
