import SsaCodegen.Ssa.Func

/-!
Splitting critical edges. An edge from a block with two successors to one with several predecessors
gets an empty block of its own, where the copies for phis have their place.
-/

namespace SsaCodegen.Func

def choices (f : Func) : List (BlockId × Nat) :=
  f.blockIds.flatMap fun b =>
    let n := (f.block b).succs.length
    if n < 2 then [] else (List.range n).map (b, ·)

/-- Puts an empty block on an edge if its target has several predecessors. -/
def splitEdge? (f : Func) (edge : BlockId × Nat) : Option Func :=
  let (pred, i) := edge
  let succ := (f.block pred).succs.getD i 0
  if (f.block succ).preds.length < 2 then none
  else
    let (b, g) := f.addBlock .plain ((f.block pred).name ++ "." ++ (f.block succ).name)
    let g := g.modifyBlock pred fun k => { k with succs := k.succs.set i b }
    let g := g.modifyBlock b fun k => { k with preds := [pred], succs := [succ] }
    some <| match g.predIndex? succ pred with
      | none => g
      | some j => g.modifyBlock succ fun k => { k with preds := k.preds.set j b }

def countSplit (s : Func × Nat) (edge : BlockId × Nat) : Func × Nat :=
  ((s.1.splitEdge? edge).map (·, s.2 + 1)).getD s

/-- The function after all critical edges have been split, and how many blocks it got. -/
def split (f : Func) : Func × Nat := f.choices.foldl countSplit (f, 0)

def splitCriticalEdges (f : Func) : Func := f.split.1

def criticalEdgeCount (f : Func) : Nat := f.split.2

end SsaCodegen.Func
