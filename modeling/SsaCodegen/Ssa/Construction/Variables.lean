import SsaCodegen.Error

/-!
Renaming of variables. A block that does not know the value of a variable asks its predecessor; one
with several gets a phi, whose operands are then asked for. As long as a block may still get
predecessors it is open, and its phis stay without operands until it is sealed.
-/

namespace SsaCodegen

/-- What is renamed: the locals that do not live in memory, and the memory state. -/
inductive Var where
  | slot (l : Ir.LocalId)
  | memory
  deriving DecidableEq

namespace Var

def type (ir : Ir.Func) : Var → TypeId
  | slot l => (ir.locals.getD l default).ty
  | memory => TypeId.mem

def name (ir : Ir.Func) : Var → String
  | slot l => (ir.locals.getD l default).name
  | memory => "<memory>"

end Var

structure Construction where
  func : Func
  /-- For each block, the values of variables at its end, the newest first. -/
  defs : Array (List (Var × ValueId))
  /-- The blocks whose predecessors have all been lowered. -/
  sealedBlocks : List BlockId
  filled : List BlockId
  /-- The phis that wait for their block to be sealed, in order. -/
  incomplete : List (BlockId × Var × ValueId)
  /-- What replaces each removed phi. -/
  forward : List (ValueId × ValueId)
  /-- Values with the phis that have them as operands, in order. -/
  phiUsers : List (ValueId × ValueId)
  /-- The variable that each phi merges. -/
  phiVars : List (ValueId × Var)
  /-- The blocks that assign each variable, in order. -/
  assignments : List (Var × BlockId)
  /-- The constants of each type and value, in order. -/
  consts : List ((TypeId × Int) × ValueId)
  nodeValues : Array (Option ValueId)
  phisCreated : Nat
  phisRemoved : Nat

abbrev Build := StateT Construction (Except CompileError)

namespace Construction

variable (s : Construction)

def def? (var : Var) (b : BlockId) : Option ValueId :=
  (s.defs.getD b []).lookup var

def record (var : Var) (b : BlockId) (v : ValueId) : Construction :=
  { s with defs := s.defs.modify b ((var, v) :: ·) }

def sites (var : Var) : List BlockId :=
  (s.assignments.filter (·.1 == var)).map (·.2)

def assign (var : Var) (b : BlockId) (v : ValueId) : Construction :=
  let s := s.record var b v
  if (s.sites var).getLast? == some b then s
  else { s with assignments := s.assignments ++ [(var, b)] }

def isReplaced (v : ValueId) : Bool := (s.forward.lookup v).isSome

/-- Follows at most `fuel` replacements. -/
def resolveWithin (forward : List (ValueId × ValueId)) : Nat → ValueId → ValueId
  | 0, v => v
  | fuel + 1, v =>
    match forward.lookup v with
    | none => v
    | some w => resolveWithin forward fuel w

def resolve (v : ValueId) : ValueId :=
  resolveWithin s.forward s.forward.length v

/-- Puts a phi after those at the top of a block. It is its own operand until others are known. -/
def newPhi (ir : Ir.Func) (s : Construction) (var : Var) (b : BlockId) : ValueId × Construction :=
  let phi := s.func.values.size
  let args := (s.func.block b).preds.map fun _ => phi
  let (phi, f) := s.func.newValue b .phi (var.type ir) args .none
  let f := f.modifyBlock b fun k => { k with values := k.values.insertIdx (f.phis b).length phi }
  (phi, { s with
    func := f, phiVars := (phi, var) :: s.phiVars, phisCreated := s.phisCreated + 1 })

def addOperand (phi : ValueId) (i : Nat) (v : ValueId) : Construction :=
  { s with
    func := s.func.setArg phi i v
    phiUsers := if v = phi then s.phiUsers else s.phiUsers ++ [(v, phi)] }

def soleOperand? (phi : ValueId) : Option ValueId :=
  match ((s.func.args phi).map s.resolve).filter (· != phi) with
  | [] => none
  | v :: rest => if rest.all (· == v) then some v else none

/-- Replaces a phi by `v`. The phis that used it now use `v`; they are the result. -/
def replacePhi (phi v : ValueId) : List ValueId × Construction :=
  let s := { s with forward := (phi, v) :: s.forward, phisRemoved := s.phisRemoved + 1 }
  let (mine, others) := s.phiUsers.partition (·.1 == phi)
  let users := (mine.map (·.2)).filter (!s.isReplaced ·)
  (users, { s with phiUsers := others ++ users.map (v, ·) })

/-- Replaces the phis in `work` that have a sole operand, and then those that used them, the last
one first. -/
def simplifyWithin : Nat → List ValueId → Construction → Construction
  | 0, _, s => s
  | _, [], s => s
  | fuel + 1, phi :: work, s =>
    if s.isReplaced phi then simplifyWithin fuel work s
    else
      match s.soleOperand? phi with
      | none => simplifyWithin fuel work s
      | some v =>
        let (users, s) := s.replacePhi phi v
        simplifyWithin fuel (users.reverse ++ work) s

/-- Replaces `phi` if it has a sole operand. A phi is replaced once, and its users are looked at
again only then, which bounds the work. -/
def simplify (phi : ValueId) : Construction :=
  simplifyWithin ((s.phiUsers.length + 1) * (s.func.values.size + 1) + 1) [phi] s

def settlePhi (var : Var) (b : BlockId) (phi : ValueId) :
    ValueId × Construction :=
  let s := s.simplify phi
  let v := s.resolve phi
  (v, if s.def? var b == some phi then s.record var b v else s)

end Construction

/-- The value of a variable at the end of `b`, asked for on behalf of `start`. -/
def readWithin (ir : Ir.Func) (var : Var) : Nat → BlockId → BlockId → Build ValueId
  | 0, start, _ => do
    let f := (← get).func
    throw (.undefinedVariable f.name (var.name ir) (f.block start).name)
  | fuel + 1, start, b => do
    let s ← get
    match s.def? var b with
    | some v => return s.resolve v
    | none =>
      if b ∉ s.sealedBlocks then
        let (phi, s) := s.newPhi ir var b
        set ({ s with incomplete := s.incomplete ++ [(b, var, phi)] }.record var b phi)
        return phi
      else
        match (s.func.block b).preds with
        | [] => throw (.undefinedVariable s.func.name (var.name ir) (s.func.block start).name)
        | [p] =>
          let v ← readWithin ir var fuel start p
          modify (·.record var b v)
          return v
        | preds =>
          let (phi, s) := s.newPhi ir var b
          set (s.record var b phi)
          preds.zipIdx.forM fun (p, i) => do
            let v ← readWithin ir var fuel p p
            modify (·.addOperand phi i v)
          modifyGet (·.settlePhi var b phi)

/-- The value of a variable at the end of a block. A chain of questions asks every block with several
predecessors once, and no other block twice between two of these. -/
def readVar (ir : Ir.Func) (var : Var) (b : BlockId) : Build ValueId := do
  let blocks := (← get).func.blocks.size
  readWithin ir var ((blocks + 1) * (blocks + 1)) b b

/-- Finds the operands of a phi whose block has been sealed. -/
def completePhi (ir : Ir.Func) (var : Var) (b : BlockId) (phi : ValueId) : Build Unit := do
  let preds := ((← get).func.block b).preds
  preds.zipIdx.forM fun (p, i) => do
    let v ← readVar ir var p
    modify (·.addOperand phi i v)
  modify fun s => (s.settlePhi var b phi).2

def sealBlock (ir : Ir.Func) (b : BlockId) : Build Unit := do
  let s ← get
  let (pending, others) := s.incomplete.partition (·.1 == b)
  set { s with sealedBlocks := b :: s.sealedBlocks, incomplete := others }
  pending.forM fun (_, var, phi) => completePhi ir var b phi

end SsaCodegen
