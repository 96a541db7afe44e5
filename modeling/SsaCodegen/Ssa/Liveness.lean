import SsaCodegen.Ssa.Func
import SsaCodegen.Ssa.ValueSet

/-!
Which values are still needed at the two ends of each block. An operand of a phi is needed at the
end of the predecessor that it comes from.
-/

namespace SsaCodegen

namespace Func

def dataUses (f : Func) (v : ValueId) : List ValueId :=
  (f.dataArgs v).filter fun a => (f.value a).hasResult

/-- What the end of a block reads: the condition of a branch, or the operands of a return. -/
def controlUses (f : Func) (b : BlockId) : List ValueId :=
  let k := f.block b
  match k.kind, k.control with
  | .branch, some c => [c]
  | .ret, some c => f.dataUses c
  | _, _ => []

def isPhi (f : Func) (v : ValueId) : Bool := (f.value v).op == .phi

def blockUses (f : Func) (b : BlockId) : List ValueId :=
  ((f.block b).values.filter (!f.isPhi ·)).flatMap f.dataUses ++ f.controlUses b

/-- The operands of phis that flow along an edge. -/
def edgeUses (f : Func) (pred succ : BlockId) : List ValueId :=
  match f.predIndex? succ pred with
  | none => []
  | some i =>
    (((f.phis succ).filter fun phi => (f.value phi).hasResult).map (f.arg · i)).filter
      fun a => (f.value a).hasResult

end Func

structure BlockEffect where
  block : BlockId
  /-- Read before any definition in the block. -/
  exposed : ValueSet
  /-- Defined in the block, phis included. -/
  defined : ValueSet
  /-- Handed to the phis of the successors. -/
  handed : ValueSet

namespace BlockEffect

def before (f : Func) (v : ValueId) (needed : ValueSet) : ValueSet :=
  let needed := if (f.value v).hasResult then needed.erase v else needed
  if f.isPhi v then needed else needed.insertAll (f.dataUses v)

def of (f : Func) (b : BlockId) : BlockEffect :=
  let k := f.block b
  let empty := ValueSet.withCapacity f.values.size
  { block := b
    exposed := k.values.foldr (before f) (empty.insertAll (f.controlUses b))
    defined := empty.insertAll (k.values.filter fun v => (f.value v).hasResult)
    handed := empty.insertAll (k.succs.flatMap (f.edgeUses b)) }

end BlockEffect

structure Liveness where
  liveIns : Array ValueSet
  liveOuts : Array ValueSet
  effects : List BlockEffect
  rounds : Nat

namespace Liveness

def liveIn (l : Liveness) (b : BlockId) : ValueSet := l.liveIns.getD b ∅

def liveOut (l : Liveness) (b : BlockId) : ValueSet := l.liveOuts.getD b ∅

def update (f : Func) (l : Liveness) (e : BlockEffect) : Liveness :=
  let out := (f.block e.block).succs.foldl (fun s b => s.union (l.liveIn b)) e.handed
  { l with
    liveOuts := l.liveOuts.setIfInBounds e.block out
    liveIns := l.liveIns.setIfInBounds e.block ((out.diff e.defined).union e.exposed) }

def round (f : Func) (l : Liveness) : Liveness :=
  let l := l.effects.foldl (update f) l
  { l with rounds := l.rounds + 1 }

def agrees (l m : Liveness) : Bool :=
  l.effects.all fun e =>
    (l.liveIn e.block).sameMembers (m.liveIn e.block) &&
      (l.liveOut e.block).sameMembers (m.liveOut e.block)

def isStable (f : Func) (l : Liveness) : Bool := l.agrees (round f l)

def settle (f : Func) : Nat → Liveness → Liveness
  | 0, l => l
  | fuel + 1, l =>
    let next := round f l
    if l.agrees next then next else settle f fuel next

/-- The least live sets. Every pass but the last one adds a value to a set, which bounds their
number. -/
def compute (f : Func) : Liveness :=
  let n := f.blocks.size
  let empty := Array.replicate n (ValueSet.withCapacity f.values.size)
  settle f (2 * n * (f.values.size + n) + 2)
    { liveIns := empty, liveOuts := empty, effects := f.postorder.map (BlockEffect.of f),
      rounds := 0 }

end Liveness

end SsaCodegen
