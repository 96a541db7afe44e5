import SsaCodegen.Error

/-!
The rules that an input function must meet.
-/

namespace SsaCodegen.Ir

namespace Func

def isValueType (types : TypeTable) (ty : TypeId) : Bool := types.isValid ty && ty != TypeId.mem

def convertible (types : TypeTable) (c : Conv) (source target : TypeId) : Bool :=
  types.isInteger source && types.isInteger target &&
    match c with
    | .signExt | .zeroExt => types.size source ≤ types.size target
    | .trunc => types.size target ≤ types.size source

def wellTyped (f : Func) (types : TypeTable) (node : Node) : Bool :=
  let ty := node.ty
  match node.kind with
  | .param i => f.params[i]? == some ty
  | .const _ => types.isInteger ty
  | .binary _ a b => types.isInteger ty && f.nodeType a == ty && f.nodeType b == ty
  | .unary _ a => types.isInteger ty && f.nodeType a == ty
  | .cmp _ a b =>
    ty == TypeId.bool && types.isInteger (f.nodeType a) && f.nodeType a == f.nodeType b
  | .convert c a => convertible types c (f.nodeType a) ty
  | .loadLocal l => (f.localAt? l).any (·.ty == ty)
  | .storeLocal l v => (f.localAt? l).any (·.ty == f.nodeType v) && ty == TypeId.void
  | .addrOf l => (f.localAt? l).isSome && ty == TypeId.ptr
  | .load ptr => f.nodeType ptr == TypeId.ptr && ty != TypeId.void
  | .store ptr _ => f.nodeType ptr == TypeId.ptr && ty == TypeId.void
  | .offset ptr _ => f.nodeType ptr == TypeId.ptr && ty == TypeId.ptr
  | .global name => !name.isEmpty && ty == TypeId.ptr
  | .call callee args fixed => !callee.isEmpty && fixed ≤ args.length
  | .aggregate fields =>
    types.fieldCount ty == fields.length &&
      fields.zipIdx.all fun (a, i) => types.fieldType? ty i == some (f.nodeType a)
  | .extract a i => types.fieldType? (f.nodeType a) i == some ty
  | .zero ptr zeroed => f.nodeType ptr == TypeId.ptr && ty == TypeId.void && types.isValid zeroed
  | .copy a => f.nodeType a == ty

/-- Checks a node against those placed in earlier blocks and those before it in its own block. -/
def checkNode (f : Func) (types : TypeTable) (block : Block) (earlier here : List NodeId)
    (n : NodeId) : Except Fault Unit :=
  match f.nodes[n]? with
  | none => throw (.missingNode block.name n)
  | some node =>
    match node.kind.operands.find? (!here.contains ·) with
    | some operand => throw (.undefinedOperand n operand block.name)
    | none =>
      if !isValueType types node.ty then throw (.invalidType n node.ty)
      else if !f.wellTyped types node then throw (.illTyped n node.kind)
      else if here.contains n || earlier.contains n then throw (.placedTwice n)
      else pure ()

/-- Checks the nodes of a block in order; `here` are those before them in the block. The result
holds all nodes of the block. -/
def checkNodes (f : Func) (types : TypeTable) (block : Block) (earlier : List NodeId) :
    List NodeId → List NodeId → Except Fault (List NodeId)
  | here, [] => pure here
  | here, n :: rest => do
    f.checkNode types block earlier here n
    f.checkNodes types block earlier (n :: here) rest

def checkTerminator (f : Func) (block : Block) (here : List NodeId) : Except Fault Unit :=
  match block.term with
  | none => throw (.noTerminator block.name)
  | some t =>
    match t.successors.find? (f.blocks.size ≤ ·) with
    | some target => throw (.missingTarget block.name target)
    | none =>
      match t with
      | .jump _ => pure ()
      | .branch cond _ _ =>
        if here.contains cond && f.nodeType cond == TypeId.bool then pure ()
        else throw (.badCondition block.name)
      | .ret none =>
        if f.result == TypeId.void then pure () else throw (.returnArity block.name)
      | .ret (some v) =>
        if f.result == TypeId.void then throw (.returnArity block.name)
        else if here.contains v && f.nodeType v == f.result then pure ()
        else throw (.badReturnValue block.name)

/-- Checks blocks in order; `earlier` are the nodes of the blocks before them. -/
def checkBlocks (f : Func) (types : TypeTable) : List NodeId → List Block → Except Fault Unit
  | _, [] => pure ()
  | earlier, block :: rest => do
    let here ← f.checkNodes types block earlier [] block.nodes
    f.checkTerminator block here
    f.checkBlocks types (here ++ earlier) rest

def checkSignature (f : Func) (types : TypeTable) : Except Fault Unit :=
  match (f.params ++ [f.result]).find? (!isValueType types ·) with
  | some ty => throw (.badSignatureType ty)
  | none => if f.params.contains TypeId.void then throw .voidParameter else pure ()

def check (f : Func) (types : TypeTable) : Except Fault Unit := do
  if f.blocks.isEmpty then throw .noBlocks
  f.checkSignature types
  unless (f.predecessors 0).isEmpty do throw .entryHasPredecessors
  f.checkBlocks types [] f.blocks.toList

def validate (f : Func) (types : TypeTable) : Except CompileError Unit :=
  (f.check types).mapError (.invalidIr f.name)

end Func

end SsaCodegen.Ir
