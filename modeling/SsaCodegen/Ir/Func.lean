import SsaCodegen.Ssa.Op
import SsaCodegen.Types

/-!
The input form: functions of named blocks. A node is visible only in the block that computes it;
what flows between blocks goes through locals.
-/

namespace SsaCodegen.Ir

open Text

abbrev NodeId := Nat

def NodeId.text (n : NodeId) : String := "%" ++ decimal n

abbrev BlockId := Nat

def BlockId.text (b : BlockId) : String := "bb" ++ decimal b

abbrev LocalId := Nat

/-- Arithmetic and logic; the operand type tells whether division, remainder and right shift are
signed. -/
inductive BinOp where
  | add | sub | mul | div | rem | and | or | xor | shl | shr
  deriving DecidableEq, Repr

inductive UnOp where
  | neg | not
  deriving DecidableEq, Repr

/-- Conversions between integer widths; the type of the node is the target. -/
inductive Conv where
  | signExt | zeroExt | trunc
  deriving DecidableEq, Repr

inductive NodeKind where
  | param (index : Nat)
  | const (value : Int)
  | binary (op : BinOp) (a b : NodeId)
  | unary (op : UnOp) (a : NodeId)
  | cmp (r : Relation) (a b : NodeId)
  | convert (c : Conv) (a : NodeId)
  | loadLocal (l : LocalId)
  | storeLocal (l : LocalId) (value : NodeId)
  | addrOf (l : LocalId)
  /-- A value of the node's type at a pointer. -/
  | load (ptr : NodeId)
  | store (ptr value : NodeId)
  /-- A pointer plus a constant number of bytes. -/
  | offset (ptr : NodeId) (bytes : Int)
  | global (name : String)
  /-- Arguments from index `fixed` on are variadic. -/
  | call (callee : String) (args : List NodeId) (fixed : Nat)
  | aggregate (fields : List NodeId)
  | extract (value : NodeId) (index : Nat)
  /-- Clears the bytes of a value of type `ty` at a pointer. -/
  | zero (ptr : NodeId) (ty : TypeId)
  | copy (value : NodeId)
  deriving DecidableEq

structure Node where
  ty : TypeId
  kind : NodeKind
  deriving DecidableEq

instance : Inhabited Node := ⟨⟨TypeId.void, .const 0⟩⟩

def NodeKind.operands : NodeKind → List NodeId
  | param _ | const _ | loadLocal _ | addrOf _ | global _ => []
  | binary _ a b | cmp _ a b | store a b => [a, b]
  | unary _ a | convert _ a | storeLocal _ a | load a | offset a _ | extract a _ | copy a
  | zero a _ => [a]
  | call _ args _ | aggregate args => args

inductive Terminator where
  | jump (target : BlockId)
  | branch (cond : NodeId) (yes no : BlockId)
  | ret (value : Option NodeId)
  deriving DecidableEq

def Terminator.successors : Terminator → List BlockId
  | jump target => [target]
  | branch _ yes no => [yes, no]
  | ret _ => []

structure Block where
  name : String
  nodes : List NodeId
  term : Option Terminator
  deriving DecidableEq

instance : Inhabited Block := ⟨⟨"", [], none⟩⟩

structure Local where
  name : String
  ty : TypeId
  deriving DecidableEq

instance : Inhabited Local := ⟨⟨"", TypeId.void⟩⟩

/-- A function; block 0 is its entry. -/
structure Func where
  name : String
  params : List TypeId
  result : TypeId
  locals : Array Local
  blocks : Array Block
  nodes : Array Node
  deriving DecidableEq

namespace Func

variable (f : Func)

def node (n : NodeId) : Node := f.nodes.getD n default

def block (b : BlockId) : Block := f.blocks.getD b default

def nodeType (n : NodeId) : TypeId := (f.node n).ty

def localAt? (l : LocalId) : Option Local := f.locals[l]?

def isAddressTaken (l : LocalId) : Bool :=
  f.nodes.any fun n => n.kind == .addrOf l

def memoryLocals (types : TypeTable) : List Bool :=
  f.locals.toList.zipIdx.map fun (x, l) => !types.isRegisterValue x.ty || f.isAddressTaken l

def predecessors (b : BlockId) : List BlockId :=
  (List.range f.blocks.size).flatMap fun p =>
    match (f.block p).term with
    | none => []
    | some t => (t.successors.filter (· == b)).map fun _ => p

end Func

/-- A function under construction, and the block that new nodes go to. -/
structure Builder where
  func : Func
  current : BlockId

namespace Builder

def new (name : String) (params : List TypeId) (result : TypeId) : Builder :=
  { func := { name, params, result, locals := #[], blocks := #[], nodes := #[] }, current := 0 }

def addLocal (b : Builder) (name : String) (ty : TypeId) : LocalId × Builder :=
  (b.func.locals.size, { b with func.locals := b.func.locals.push ⟨name, ty⟩ })

def addBlock (b : Builder) (name : String) : BlockId × Builder :=
  (b.func.blocks.size, { b with func.blocks := b.func.blocks.push ⟨name, [], none⟩ })

def switchTo (b : Builder) (block : BlockId) : Builder := { b with current := block }

def push (b : Builder) (ty : TypeId) (kind : NodeKind) : NodeId × Builder :=
  let n := b.func.nodes.size
  (n, { b with
    func.nodes := b.func.nodes.push ⟨ty, kind⟩
    func.blocks := b.func.blocks.modify b.current fun k => { k with nodes := k.nodes ++ [n] } })

def terminate (b : Builder) (t : Terminator) : Builder :=
  { b with func.blocks := b.func.blocks.modify b.current fun k => { k with term := some t } }

def param (b : Builder) (index : Nat) : NodeId × Builder :=
  b.push (b.func.params.getD index TypeId.void) (.param index)

def const (b : Builder) (ty : TypeId) (value : Int) : NodeId × Builder := b.push ty (.const value)

def binary (b : Builder) (op : BinOp) (x y : NodeId) : NodeId × Builder :=
  b.push (b.func.nodeType x) (.binary op x y)

def unary (b : Builder) (op : UnOp) (x : NodeId) : NodeId × Builder :=
  b.push (b.func.nodeType x) (.unary op x)

def cmp (b : Builder) (r : Relation) (x y : NodeId) : NodeId × Builder :=
  b.push TypeId.bool (.cmp r x y)

def convert (b : Builder) (c : Conv) (ty : TypeId) (x : NodeId) : NodeId × Builder :=
  b.push ty (.convert c x)

def loadLocal (b : Builder) (l : LocalId) : NodeId × Builder :=
  b.push ((b.func.locals.getD l default).ty) (.loadLocal l)

def storeLocal (b : Builder) (l : LocalId) (value : NodeId) : NodeId × Builder :=
  b.push TypeId.void (.storeLocal l value)

def addrOf (b : Builder) (l : LocalId) : NodeId × Builder := b.push TypeId.ptr (.addrOf l)

def load (b : Builder) (ty : TypeId) (ptr : NodeId) : NodeId × Builder := b.push ty (.load ptr)

def store (b : Builder) (ptr value : NodeId) : NodeId × Builder :=
  b.push TypeId.void (.store ptr value)

def offset (b : Builder) (ptr : NodeId) (bytes : Int) : NodeId × Builder :=
  b.push TypeId.ptr (.offset ptr bytes)

def global (b : Builder) (name : String) : NodeId × Builder := b.push TypeId.ptr (.global name)

def call (b : Builder) (ty : TypeId) (callee : String) (args : List NodeId) (fixed : Nat) :
    NodeId × Builder :=
  b.push ty (.call callee args fixed)

def aggregate (b : Builder) (ty : TypeId) (fields : List NodeId) : NodeId × Builder :=
  b.push ty (.aggregate fields)

def extract (b : Builder) (types : TypeTable) (value : NodeId) (index : Nat) : NodeId × Builder :=
  b.push ((types.fieldType? (b.func.nodeType value) index).getD TypeId.void) (.extract value index)

def zero (b : Builder) (ptr : NodeId) (ty : TypeId) : NodeId × Builder :=
  b.push TypeId.void (.zero ptr ty)

def copy (b : Builder) (value : NodeId) : NodeId × Builder :=
  b.push (b.func.nodeType value) (.copy value)

end Builder

end SsaCodegen.Ir
