import SsaCodegen.Error

/-!
The dominator tree. Every block but the entry gets the nearest common ancestor of those predecessors
that are in the tree already, until nothing changes. Its frontiers tell where phis can stand.
-/

namespace SsaCodegen

/-- When blocks are entered and left on a walk over the tree. -/
structure Clock where
  pre : List (BlockId × Nat) := []
  post : List (BlockId × Nat) := []
  time : Nat := 0

namespace Clock

def entered? (c : Clock) (b : BlockId) : Option Nat := c.pre.lookup b

def left? (c : Clock) (b : BlockId) : Option Nat := c.post.lookup b

def enter (c : Clock) (b : BlockId) : Clock := { c with pre := (b, c.time) :: c.pre, time := c.time + 1 }

def leave (c : Clock) (b : BlockId) : Clock := { c with post := (b, c.time) :: c.post, time := c.time + 1 }

end Clock

structure DomTree where
  entry : BlockId
  order : List BlockId
  idoms : Array (Option BlockId)
  rounds : Nat
  clock : Clock := {}

namespace DomTree

variable (t : DomTree)

def idom? (b : BlockId) : Option BlockId := t.idoms.getD b none

def isReachable (b : BlockId) : Bool := b == t.entry || (t.idom? b).isSome

/-- `b`, its parent, and so on upwards for at most `fuel` blocks. -/
def ancestorsWithin (t : DomTree) : Nat → BlockId → List BlockId
  | 0, _ => []
  | fuel + 1, b =>
    b :: match t.idom? b with
      | none => []
      | some d => t.ancestorsWithin fuel d

def ancestors (b : BlockId) : List BlockId := t.ancestorsWithin (t.idoms.size + 1) b

def parent (b : BlockId) : BlockId := (t.idom? b).getD t.entry

/-- The number of steps up to the entry. -/
def depthIn (t : DomTree) : Nat → BlockId → Nat
  | 0, _ => 0
  | fuel + 1, b => if b = t.entry then 0 else t.depthIn fuel (t.parent b) + 1

def lift (t : DomTree) : Nat → BlockId → BlockId
  | 0, b => b
  | n + 1, b => t.lift n (t.parent b)

/-- Where the ways up from two blocks of the same depth meet. -/
def meet (t : DomTree) : Nat → BlockId → BlockId → BlockId
  | 0, a, _ => a
  | fuel + 1, a, b => if a = b then a else t.meet fuel (t.parent a) (t.parent b)

/-- The nearest common ancestor: the deeper block is lifted to the depth of the other one first. -/
def nearestCommon (a b : BlockId) : BlockId :=
  let fuel := t.idoms.size + 1
  let da := t.depthIn fuel a
  let db := t.depthIn fuel b
  t.meet (da + 1) (t.lift (da - db) a) (t.lift (db - da) b)

def parentOf? (f : Func) (b : BlockId) : Option BlockId :=
  match (f.block b).preds.filter t.isReachable with
  | [] => none
  | p :: rest => some (rest.foldl (fun d q => t.nearestCommon q d) p)

def update (f : Func) (t : DomTree) (b : BlockId) : DomTree :=
  match t.parentOf? f b with
  | none => t
  | some d => { t with idoms := t.idoms.setIfInBounds b (some d) }

def round (f : Func) (t : DomTree) : DomTree :=
  let t := t.order.tail.foldl (update f) t
  { t with rounds := t.rounds + 1 }

def settle (f : Func) : Nat → DomTree → DomTree
  | 0, t => t
  | fuel + 1, t =>
    let next := round f t
    if next.idoms = t.idoms then next else settle f fuel next

def children (b : BlockId) : List BlockId :=
  t.order.tail.filter fun c => t.idom? c == some b

def tour : Search Clock where
  next := t.children
  isNew _ _ := true
  enter := Clock.enter
  meet c _ _ := c
  leave c b _ := c.leave b

/-- The dominator tree of a function. Every pass but the last one puts a block into the tree or
takes an ancestor away from one, which bounds their number. -/
def compute (f : Func) : DomTree :=
  let n := f.blocks.size
  let t := settle f ((n + 1) * (n + 1) + 1)
    { entry := f.entry, order := f.reversePostorder, idoms := Array.replicate n none, rounds := 0 }
  { t with clock := t.tour.explore t.order {} t.entry }

/-- A block dominates those that are entered after it and left before it. -/
def dominates (a b : BlockId) : Bool :=
  match t.clock.entered? a, t.clock.entered? b, t.clock.left? a, t.clock.left? b with
  | some preA, some preB, some postA, some postB => preA ≤ preB && postB ≤ postA
  | _, _, _, _ => false

def strictlyDominates (a b : BlockId) : Bool := a != b && t.dominates a b

def depths : Array Nat :=
  t.order.tail.foldl (fun ds b =>
    match t.idom? b with
    | none => ds
    | some d => ds.setIfInBounds b (ds.getD d 0 + 1)) (Array.replicate t.idoms.size 0)

def depth (b : BlockId) : Nat := t.depths.getD b 0

def runners (b p : BlockId) : List BlockId :=
  (t.ancestors p).takeWhile fun r => t.idom? b != some r

def inFrontier (f : Func) (a b : BlockId) : Bool :=
  let preds := (f.block b).preds
  2 ≤ preds.length && preds.any fun p => t.isReachable p && (t.runners b p).contains a

def frontiers (f : Func) : Array (List BlockId) :=
  (f.blockIds.map fun a => t.order.filter (t.inFrontier f a)).toArray

end DomTree

def iteratedFrontier (frontiers : Array (List BlockId)) (blocks : List BlockId) : List BlockId :=
  let next (b : BlockId) := frontiers.getD b []
  reach next (List.range frontiers.size) (blocks.flatMap next)

structure PhiSites where
  phi : ValueId
  blocks : List BlockId
  deriving DecidableEq

def checkPhiPlacement (f : Func) (t : DomTree) (sites : List PhiSites) :
    Except CompileError Unit :=
  let frontiers := t.frontiers f
  let misplaced := sites.find? fun s =>
    !(iteratedFrontier frontiers s.blocks).contains (f.value s.phi).block
  match misplaced with
  | some s => throw (.phiPlacement f.name s.phi (f.value s.phi).block)
  | none => pure ()

end SsaCodegen
