import SsaCodegen.Ssa.Construction.Variables

/-!
Lowering of input nodes to SSA values, block by block. Values too wide for registers are handled by
the address of their storage.
-/

namespace SsaCodegen

structure Task where
  ir : Ir.Func
  types : TypeTable
  /-- The input block of each block. -/
  sources : Array Ir.BlockId
  /-- The memory local of each input local that lives in memory. -/
  memoryLocals : Array (Option LocalId)
  params : List ValueId
  resultPtr : Option ValueId

/-- An integer as a value of a type holds it: as wide as the type, and signed if the type is. -/
def normalize (types : TypeTable) (ty : TypeId) (value : Int) : Int :=
  let bits := types.bits ty
  if ty = TypeId.bool then value % 2
  else if 0 < bits ∧ bits < 64 then
    if types.isSigned ty then value.bmod (Nat.pow 2 bits) else value % (Nat.pow 2 bits : Nat)
  else value

/-- The operation of an arithmetic node on operands of a signed or unsigned type. -/
def Ir.BinOp.op (signed : Bool) : Ir.BinOp → Op
  | add => .add
  | sub => .sub
  | mul => .mul
  | div => if signed then .sdiv else .udiv
  | rem => if signed then .srem else .urem
  | and => .and
  | or => .or
  | xor => .xor
  | shl => .shl
  | shr => if signed then .ashr else .lshr

def Ir.UnOp.op : Ir.UnOp → Op
  | neg => .neg
  | not => .not

def Ir.Conv.op : Ir.Conv → Op
  | signExt => .signExt
  | zeroExt => .zeroExt
  | trunc => .trunc

namespace Task

open Text

def invalid {α : Type} (t : Task) (fault : Ir.Fault) : Build α :=
  throw (.invalidIr t.ir.name fault)

def unsupported {α : Type} (t : Task) (fault : TypeFault) : Build α :=
  throw (.unsupportedType t.ir.name fault)

variable (t : Task)

def nodeValue (n : Ir.NodeId) : Build ValueId := do
  match (← get).nodeValues.getD n none with
  | some v => return v
  | none => t.invalid (.noValue n)

def append (b : BlockId) (op : Op) (ty : TypeId) (args : List ValueId) (payload : Payload) :
    Build ValueId :=
  modifyGet fun s =>
    let (v, func) := s.func.appendValue b op ty args payload
    (v, { s with func })

/-- The constant of that type and value; each is made once. -/
def constant (ty : TypeId) (value : Int) : Build ValueId :=
  modifyGet fun s =>
    let key := (ty, normalize t.types ty value)
    match s.consts.lookup key with
    | some c => (c, s)
    | none =>
      let (c, func) := s.func.newValue s.func.entry .const ty [] (.int key.2)
      (c, { s with func, consts := s.consts ++ [(key, c)] })

/-- Appends a value that reads the memory state and makes a new one. -/
def effect (b : BlockId) (op : Op) (ty : TypeId) (args : List ValueId)
    (payload : Payload) : Build ValueId := do
  let mem ← readVar t.ir .memory b
  let v ← append b op ty (args ++ [mem]) payload
  modify (·.assign .memory b v)
  return v

def load (t : Task) (b : BlockId) (ty : TypeId) (ptr : ValueId) : Build ValueId := do
  let mem ← readVar t.ir .memory b
  append b .load ty [ptr, mem] .none

def hiddenLocal (stem : String) (ty : TypeId) : Build LocalId :=
  modifyGet fun s =>
    let (l, func) := s.func.addLocal (stem ++ decimal s.func.locals.size) ty
    (l, { s with func })

def localAddr (b : BlockId) (l : LocalId) : Build ValueId :=
  append b .localAddr TypeId.ptr [] (.slot l)

def moveTo (b : BlockId) (ty : TypeId) (target source : ValueId) : Build ValueId :=
  t.effect b .move TypeId.mem [target, source] (.int (t.types.size ty))

def snapshot (b : BlockId) (ty : TypeId) (source : ValueId) : Build ValueId := do
  let target ← localAddr b (← hiddenLocal "tmp" ty)
  let _ ← t.moveTo b ty target source
  return target

def fetch (b : BlockId) (ty : TypeId) (ptr : ValueId) : Build ValueId :=
  if t.types.isMemoryAggregate ty then t.snapshot b ty ptr else t.load b ty ptr

def storeTo (b : BlockId) (ptr : ValueId) (ty : TypeId) (v : ValueId) : Build Unit := do
  let _ ← if t.types.isMemoryAggregate ty then t.moveTo b ty ptr v
    else t.effect b .store TypeId.mem [ptr, v] .none

def fieldAddr (b : BlockId) (ty : TypeId) (base : ValueId) (i : Nat) :
    Build ValueId := do
  match t.types.fieldOffset? ty i with
  | none => t.invalid (.noField (t.types.name ty) i)
  | some offset => append b .offPtr TypeId.ptr [base] (.int offset)

/-- Builds an aggregate of its fields: in a hidden local if it is wide, or else in registers. -/
def lowerAggregate (b : BlockId) (ty : TypeId) (fields : List Ir.NodeId) :
    Build ValueId := do
  let values ← fields.mapM t.nodeValue
  if t.types.isMemoryAggregate ty then
    let base ← localAddr b (← hiddenLocal "tmp" ty)
    (fields.zip values).zipIdx.forM fun ((n, v), i) => do
      let ptr ← t.fieldAddr b ty base i
      t.storeTo b ptr (t.ir.nodeType n) v
    return base
  else if t.types.isWordPartitioned ty then append b .pack ty values .none
  else t.unsupported (.build (t.types.name ty))

/-- Takes a field of type `ty` out of an aggregate. -/
def lowerExtract (b : BlockId) (ty : TypeId) (n : Ir.NodeId) (i : Nat) :
    Build ValueId := do
  let whole := t.ir.nodeType n
  let v ← t.nodeValue n
  if t.types.isMemoryAggregate whole then
    let ptr ← t.fieldAddr b whole v i
    if t.types.isMemoryAggregate ty then return ptr else t.load b ty ptr
  else if t.types.isWordPartitioned whole then append b .extract ty [v] (.int i)
  else t.unsupported (.extract (t.types.name whole))

def lowerArgument (b : BlockId) (n : Ir.NodeId) : Build ValueId := do
  let v ← t.nodeValue n
  let ty := t.ir.nodeType n
  if t.types.isMemoryAggregate ty then t.snapshot b ty v else return v

/-- Lowers a call; a wide result comes back in a hidden local. -/
def lowerCall (b : BlockId) (ty : TypeId) (callee : String) (args : List Ir.NodeId)
    (fixed : Nat) : Build (Option ValueId) := do
  if t.types.isMemoryAggregate ty then
    let addr ← localAddr b (← hiddenLocal "ret" ty)
    let values ← args.mapM (t.lowerArgument b)
    let _ ← t.effect b .call TypeId.void (addr :: values) (.callee ⟨callee, fixed + 1, true⟩)
    return some addr
  else
    let values ← args.mapM (t.lowerArgument b)
    let call ← t.effect b .call ty values (.callee ⟨callee, fixed, false⟩)
    return if ty = TypeId.void then none else some call

/-- Lowers a node; stores and calls without a result have no value. -/
def lowerNode (b : BlockId) (n : Ir.NodeId) : Build (Option ValueId) := do
  let ty := t.ir.nodeType n
  match (t.ir.node n).kind with
  | .param i => return some (t.params.getD i 0)
  | .const value => some <$> t.constant ty value
  | .binary op x y =>
    let x ← t.nodeValue x
    let y ← t.nodeValue y
    some <$> append b (op.op (t.types.isSigned ty)) ty [x, y] .none
  | .unary op x =>
    let x ← t.nodeValue x
    some <$> append b op.op ty [x] .none
  | .cmp r x y =>
    let x ← t.nodeValue x
    let y ← t.nodeValue y
    some <$> append b .cmp TypeId.bool [x, y] (.relation r)
  | .convert c x =>
    let x ← t.nodeValue x
    some <$> append b c.op ty [x] .none
  | .loadLocal l =>
    match t.memoryLocals.getD l none with
    | none => some <$> readVar t.ir (.slot l) b
    | some slot =>
      let addr ← localAddr b slot
      some <$> t.fetch b ty addr
  | .storeLocal l x =>
    let x ← t.nodeValue x
    match t.memoryLocals.getD l none with
    | none => modify (·.assign (.slot l) b x)
    | some slot =>
      let addr ← localAddr b slot
      t.storeTo b addr (Var.type t.ir (.slot l)) x
    return none
  | .addrOf l =>
    match t.memoryLocals.getD l none with
    | none => t.invalid (.addressOfRegisterLocal l)
    | some slot => some <$> localAddr b slot
  | .load ptr =>
    let ptr ← t.nodeValue ptr
    some <$> t.fetch b ty ptr
  | .store ptr x =>
    let xType := t.ir.nodeType x
    let ptr ← t.nodeValue ptr
    let x ← t.nodeValue x
    t.storeTo b ptr xType x
    return none
  | .offset ptr bytes =>
    let ptr ← t.nodeValue ptr
    some <$> append b .offPtr TypeId.ptr [ptr] (.int bytes)
  | .global name => some <$> append b .globalAddr TypeId.ptr [] (.symbol name)
  | .call callee args fixed => t.lowerCall b ty callee args fixed
  | .aggregate fields => some <$> t.lowerAggregate b ty fields
  | .extract x i => some <$> t.lowerExtract b ty x i
  | .zero ptr zeroed =>
    let ptr ← t.nodeValue ptr
    let _ ← t.effect b .zero TypeId.mem [ptr] (.int (t.types.size zeroed))
    return none
  | .copy x =>
    let x ← t.nodeValue x
    if t.types.isMemoryAggregate ty then return some x else some <$> append b .copy ty [x] .none

def setControl (b : BlockId) (v : ValueId) : Build Unit :=
  modify fun s => { s with func := s.func.modifyBlock b ({ · with control := some v }) }

/-- The operands of a return. A wide result is copied to the address that the caller gave. -/
def returnArgs (b : BlockId) (value : Option Ir.NodeId) : Build (List ValueId) := do
  let mem ← readVar t.ir .memory b
  match value with
  | none => return [mem]
  | some n =>
    let v ← t.nodeValue n
    let ty := t.ir.nodeType n
    match t.resultPtr with
    | some ptr =>
      if t.types.isMemoryAggregate ty then return [← t.moveTo b ty ptr v] else return [v, mem]
    | none => return [v, mem]

def lowerTerminator (b : BlockId) (source : Ir.Block) : Build Unit := do
  match source.term with
  | none => t.invalid (.noTerminator source.name)
  | some (.jump _) => return
  | some (.branch cond _ _) =>
    if ((← get).func.block b).kind = .branch then setControl b (← t.nodeValue cond)
  | some (.ret value) =>
    let args ← t.returnArgs b value
    let ret ← modifyGet fun s =>
      let (v, func) := s.func.newValue b .ret TypeId.void args .none
      (v, { s with func })
    setControl b ret

def lowerBlock (b : BlockId) : Build Unit := do
  let source := t.ir.block (t.sources.getD b 0)
  source.nodes.forM fun n => do
    let v ← t.lowerNode b n
    modify fun s => { s with nodeValues := s.nodeValues.setIfInBounds n v }
  t.lowerTerminator b source

end Task

end SsaCodegen
