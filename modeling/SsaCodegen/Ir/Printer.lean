import SsaCodegen.Ir.Func
import SsaCodegen.Text.Quoted

/-!
Input functions as text, one line for each node.
-/

namespace SsaCodegen

open Text

def Relation.longName : Relation → String
  | eq => "Eq" | ne => "Ne" | slt => "Slt" | sle => "Sle" | sgt => "Sgt" | sge => "Sge"
  | ult => "Ult" | ule => "Ule" | ugt => "Ugt" | uge => "Uge"

namespace Ir

namespace BinOp

def all : List BinOp := [add, sub, mul, div, rem, and, or, xor, shl, shr]

def name : BinOp → String
  | add => "add" | sub => "sub" | mul => "mul" | div => "div" | rem => "rem"
  | and => "and" | or => "or" | xor => "xor" | shl => "shl" | shr => "shr"

def ofName? (s : String) : Option BinOp := all.find? (·.name == s)

def longName : BinOp → String
  | add => "Add" | sub => "Sub" | mul => "Mul" | div => "Div" | rem => "Rem"
  | and => "And" | or => "Or" | xor => "Xor" | shl => "Shl" | shr => "Shr"

end BinOp

def UnOp.longName : UnOp → String
  | neg => "Neg" | not => "Not"

def Conv.longName : Conv → String
  | signExt => "SignExt" | zeroExt => "ZeroExt" | trunc => "Trunc"

def nodeRef (n : NodeId) : String := s!"NodeId({decimal n})"

def nodeRefs (ns : List NodeId) : String := "[" ++ joinWith ", " (ns.map nodeRef) ++ "]"

def localRef (l : LocalId) : String := s!"IrLocalId({decimal l})"

def blockRef (b : BlockId) : String := s!"IrBlockId({decimal b})"

def recordText (name : String) (fields : List (String × String)) : String :=
  name ++ " \x7b " ++ joinWith ", " (fields.map fun (k, v) => k ++ ": " ++ v) ++ " \x7d"

def NodeKind.text : NodeKind → String
  | param index => s!"Param({decimal index})"
  | const value => s!"Const({integer value})"
  | binary op a b => s!"Binary({op.longName}, {nodeRef a}, {nodeRef b})"
  | unary op a => s!"Unary({op.longName}, {nodeRef a})"
  | cmp r a b => s!"Cmp({r.longName}, {nodeRef a}, {nodeRef b})"
  | convert c a => s!"Convert({c.longName}, {nodeRef a})"
  | loadLocal l => s!"LoadLocal({localRef l})"
  | storeLocal l value => s!"StoreLocal({localRef l}, {nodeRef value})"
  | addrOf l => s!"AddrOf({localRef l})"
  | load ptr => s!"Load({nodeRef ptr})"
  | store ptr value => recordText "Store" [("ptr", nodeRef ptr), ("value", nodeRef value)]
  | offset ptr bytes => s!"Offset({nodeRef ptr}, {integer bytes})"
  | global name => s!"Global({quoteString name})"
  | call callee args fixed =>
    recordText "Call"
      [("callee", quoteString callee), ("args", nodeRefs args), ("fixed", decimal fixed)]
  | aggregate fields => s!"Aggregate({nodeRefs fields})"
  | extract value index => s!"Extract({nodeRef value}, {decimal index})"
  | zero ptr ty => recordText "Zero" [("ptr", nodeRef ptr), ("ty", s!"TypeId({decimal ty})")]
  | copy value => s!"Copy({nodeRef value})"

def Terminator.text : Terminator → String
  | jump target => s!"Jump({blockRef target})"
  | branch cond yes no =>
    recordText "Branch"
      [("cond", nodeRef cond), ("then_block", blockRef yes), ("else_block", blockRef no)]
  | ret none => "Ret(None)"
  | ret (some value) => s!"Ret(Some({nodeRef value}))"

def terminatorText : Option Terminator → String
  | none => "None"
  | some t => s!"Some({t.text})"

def Func.blockLines (f : Func) (b : BlockId) : List String :=
  let k := f.block b
  let nodes := k.nodes.map fun n =>
    let x := f.node n
    s!"  {NodeId.text n} = {x.kind.text} <{x.ty.text}>"
  s!"{b.text}: ; {k.name}" :: nodes ++ ["  " ++ terminatorText k.term]

def Func.lines (f : Func) : List String :=
  s!"func {f.name} ({decimal f.params.length} params) -> {f.result.text}" ::
    (List.range f.blocks.size).flatMap f.blockLines

end Ir

end SsaCodegen
