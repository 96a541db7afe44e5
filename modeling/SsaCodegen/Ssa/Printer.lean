import SsaCodegen.Ssa.Func

/-!
SSA functions as text, one line for each value.
-/

namespace SsaCodegen

open Text

def BlockKind.name : BlockKind → String
  | plain => "Plain" | branch => "If" | ret => "Ret"

def Payload.text : Payload → String
  | none => ""
  | int value => s!" [{integer value}]"
  | symbol name => " \x7b" ++ name ++ "\x7d"
  | relation r => s!" [{r.name}]"
  | slot l => " \x7b" ++ l.text ++ "\x7d"
  | callee c => " \x7b" ++ c.symbol ++ "\x7d"

namespace Func

/-- A value with its operation, type, operands, payload and location. -/
def valueText (f : Func) (types : TypeTable) (v : ValueId) : String :=
  let x := f.value v
  let args := String.join ((f.args v).map fun a => " " ++ ValueId.text a)
  let loc := match x.loc with
    | none => ""
    | some loc => " : " ++ loc.text
  s!"{v.text} = {x.op.name} <{types.name x.ty}>{args}{x.payload.text}{loc}"

def controlText (f : Func) (types : TypeTable) (k : Block) : String :=
  match k.kind, k.control with
  | .plain, _ =>
    match k.succs with
    | [] => "jump ?"
    | b :: _ => s!"jump {BlockId.text b}"
  | .branch, some c =>
    let target (i : Nat) : String := BlockId.text (k.succs.getD i 0)
    s!"if {c.text} -> {target 0} {target 1}"
  | .ret, some c => f.valueText types c
  | _, none => "<missing control>"

def blockLines (f : Func) (types : TypeTable) (b : BlockId) : List String :=
  let k := f.block b
  let preds := joinWith " " (k.preds.map BlockId.text)
  s!"{b.text}: ; {k.name} preds [{preds}]" ::
    (k.values.map fun v => "  " ++ f.valueText types v) ++ ["  " ++ f.controlText types k]

/-- The lines of a function: its signature, its memory locals, and its blocks in reverse
postorder. -/
def dump (f : Func) (types : TypeTable) : List String :=
  let params := joinWith ", " (f.params.map types.name)
  let locals := f.locals.toList.zipIdx.map fun (l, i) =>
    s!"  local {LocalId.text i}: {types.name l.ty} ; {l.name}"
  s!"func {f.name}({params}) -> {types.name f.result}" ::
    locals ++ f.reversePostorder.flatMap (f.blockLines types)

end Func

end SsaCodegen
