import SsaCodegen.Location
import SsaCodegen.Reach
import SsaCodegen.Ssa.Op
import SsaCodegen.Types

/-!
Functions in SSA form. Operand `k` of a phi belongs to the `k`-th predecessor of its block, and the
memory state is an ordinary value of the type `mem`. The operands of
all values stand in one pool, those of each value next to each other.
-/

namespace SsaCodegen

structure Span where
  start : Nat
  count : Nat
  deriving DecidableEq

abbrev OperandPool := Array ValueId

namespace OperandPool

variable (p : OperandPool)

def read (s : Span) : List ValueId :=
  (p.extract s.start (s.start + s.count)).toList

def add (args : List ValueId) : Span × OperandPool :=
  (⟨p.size, args.length⟩, p ++ args)

/-- Writes one cell. Cells are counted from the start of a stretch and may lie past its end. -/
def write (s : Span) (i : Nat) (a : ValueId) : OperandPool :=
  p.setIfInBounds (s.start + i) a

def fill (s : Span) (args : List ValueId) : OperandPool :=
  args.zipIdx.foldl (fun p (a, i) => p.write s i a) p

def replace (s : Span) (args : List ValueId) : Span × OperandPool :=
  if args.length = s.count then (s, p.fill s args) else p.add args

end OperandPool

structure Callee where
  symbol : String
  /-- Arguments from this index on are variadic. -/
  fixedArgs : Nat
  /-- Whether the first argument is the address for an indirect result. -/
  indirectResult : Bool
  deriving DecidableEq

/-- What a value carries besides its operands. -/
inductive Payload where
  | none
  | int (value : Int)
  | symbol (name : String)
  | relation (r : Relation)
  | slot (l : LocalId)
  | callee (c : Callee)
  deriving DecidableEq

def Payload.int? : Payload → Option Int
  | int value => some value
  | _ => Option.none

structure Value where
  op : Op
  ty : TypeId
  /-- Where its operands stand in the pool of the function. -/
  span : Span
  payload : Payload
  /-- Number of places that refer to the value. -/
  uses : Nat
  block : BlockId
  loc : Option ValueLoc
  deriving DecidableEq

instance : Inhabited Value := ⟨⟨.initMem, TypeId.mem, ⟨0, 0⟩, .none, 0, 0, none⟩⟩

namespace Value

def isMemory (v : Value) : Bool := v.ty == TypeId.mem

def hasResult (v : Value) : Bool := v.ty != TypeId.mem && v.ty != TypeId.void

end Value

/-- How a block ends: it goes on to one successor, chooses between two by its control, or returns
by its control. -/
inductive BlockKind where
  | plain
  | branch
  | ret
  deriving DecidableEq, Repr

structure Block where
  kind : BlockKind
  values : List ValueId
  control : Option ValueId
  preds : List BlockId
  succs : List BlockId
  name : String
  deriving DecidableEq

instance : Inhabited Block := ⟨⟨.plain, [], none, [], [], ""⟩⟩

structure MemoryLocal where
  name : String
  ty : TypeId
  deriving DecidableEq

structure Func where
  name : String
  params : List TypeId
  result : TypeId
  values : Array Value
  operands : OperandPool
  blocks : Array Block
  locals : Array MemoryLocal
  entry : BlockId

namespace Func

def new (name : String) (params : List TypeId) (result : TypeId) : Func :=
  { name, params, result, values := #[], operands := #[], blocks := #[], locals := #[]
    entry := 0 }

instance : Inhabited Func := ⟨new "" [] TypeId.void⟩

variable (f : Func)

def value (v : ValueId) : Value := f.values.getD v default

def block (b : BlockId) : Block := f.blocks.getD b default

def blockIds : List BlockId := List.range f.blocks.size

def modifyValue (v : ValueId) (g : Value → Value) : Func :=
  { f with values := f.values.modify v g }

def modifyBlock (b : BlockId) (g : Block → Block) : Func :=
  { f with blocks := f.blocks.modify b g }

def addBlock (kind : BlockKind) (name : String) : BlockId × Func :=
  (f.blocks.size, { f with blocks := f.blocks.push ⟨kind, [], none, [], [], name⟩ })

def addEdge (a b : BlockId) : Func :=
  let f := f.modifyBlock a fun k => { k with succs := k.succs ++ [b] }
  f.modifyBlock b fun k => { k with preds := k.preds ++ [a] }

def addLocal (name : String) (ty : TypeId) : LocalId × Func :=
  (f.locals.size, { f with locals := f.locals.push ⟨name, ty⟩ })

def newValue (b : BlockId) (op : Op) (ty : TypeId) (args : List ValueId)
    (payload : Payload) : ValueId × Func :=
  let (span, operands) := f.operands.add args
  (f.values.size,
    { f with values := f.values.push ⟨op, ty, span, payload, 0, b, none⟩, operands })

def appendValue (b : BlockId) (op : Op) (ty : TypeId) (args : List ValueId)
    (payload : Payload) : ValueId × Func :=
  let (v, f) := f.newValue b op ty args payload
  (v, f.modifyBlock b fun k => { k with values := k.values ++ [v] })

def args (v : ValueId) : List ValueId := f.operands.read (f.value v).span

def arg (v : ValueId) (i : Nat) : ValueId := (f.args v).getD i 0

/-- Writes an operand. An index past the operands of the value reaches the cells that follow them in
the pool. -/
def setArg (v : ValueId) (i : Nat) (a : ValueId) : Func :=
  { f with operands := f.operands.write (f.value v).span i a }

def setArgs (v : ValueId) (args : List ValueId) : Func :=
  let (span, operands) := f.operands.replace (f.value v).span args
  { f.modifyValue v ({ · with span }) with operands }

def setLoc (v : ValueId) (loc : Option ValueLoc) : Func :=
  f.modifyValue v ({ · with loc })

def dataArgs (v : ValueId) : List ValueId :=
  let x := f.value v
  if x.op = .phi ∧ x.isMemory then []
  else if x.op.takesMem then (f.args v).dropLast
  else f.args v

def memArg? (v : ValueId) : Option ValueId :=
  if (f.value v).op.takesMem then (f.args v).getLast? else none

def phis (b : BlockId) : List ValueId :=
  ((f.block b).values.takeWhile fun v => (f.value v).op.isLeading).filter fun v =>
    (f.value v).op == .phi

def predIndex? (b pred : BlockId) : Option Nat := (f.block b).preds.idxOf? pred

def phiCount : Nat := (f.blockIds.flatMap f.phis).length

/-- The values that a block refers to, each place counted: the operands of the values it lists, its
control, and the operands of a control that it does not list. -/
def blockRefs (b : BlockId) : List ValueId :=
  let k := f.block b
  k.values.flatMap f.args ++
    match k.control with
    | none => []
    | some c => c :: if c ∈ k.values then [] else f.args c

def recountUses : Func :=
  let zero := { f with values := f.values.map ({ · with uses := 0 }) }
  (f.blockIds.flatMap f.blockRefs).foldl
    (fun g v => g.modifyValue v fun x => { x with uses := x.uses + 1 }) zero

end Func

/-- A depth-first walk: the blocks entered so far, and those left, the last one first. -/
structure Walk where
  seen : List BlockId
  left : List BlockId

namespace Func

/-- A block is marked when it comes on the stack, and listed when all its successors have been dealt
with. -/
def depthFirst (f : Func) : Search Walk where
  next b := (f.block b).succs
  isNew w b := b ∉ w.seen
  enter w b := { w with seen := b :: w.seen }
  meet w _ _ := w
  leave w b _ := { w with left := b :: w.left }

def targets (f : Func) : List BlockId := f.blockIds.flatMap fun b => (f.block b).succs

def reversePostorder (f : Func) : List BlockId :=
  (f.depthFirst.explore (f.entry :: f.targets) ⟨[], []⟩ f.entry).left

def postorder (f : Func) : List BlockId := f.reversePostorder.reverse

end Func

end SsaCodegen
