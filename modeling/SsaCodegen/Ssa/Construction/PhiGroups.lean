import SsaCodegen.Ssa.Construction.Variables

/-!
Redundant phis that are left when all operands are known. Phis of an irreducible loop can have one
value from outside in common although none of them has a sole operand.
-/

namespace SsaCodegen

namespace Construction

variable (s : Construction)

def operandsIn (group : List ValueId) (phi : ValueId) : List ValueId :=
  ((s.func.args phi).map s.resolve).filter group.contains

/-- The groups of phis that read each other, each after those that it has operands in. -/
def components (s : Construction) (group : List ValueId) : List (List ValueId) :=
  SsaCodegen.components (s.operandsIn group) group

def operandsOutside (members : List ValueId) (phi : ValueId) : List ValueId :=
  ((s.func.args phi).map s.resolve).filter (!members.contains ·)

def soleOutside? (members : List ValueId) : Option ValueId :=
  match members.flatMap (s.operandsOutside members) with
  | [] => none
  | v :: rest => if rest.all (· == v) then some v else none

def replaceAll (members : List ValueId) (v : ValueId) : Construction :=
  { s with
    forward := members.map (·, v) ++ s.forward
    phisRemoved := s.phisRemoved + members.length }

/-- Replaces the components of a group that read one value from outside. In any other component
the members that read nothing from outside may still be redundant among themselves. -/
def collapseWithin : Nat → List ValueId → Construction → Construction
  | 0, _, s => s
  | fuel + 1, group, s =>
    (s.components group).foldl (fun s members =>
      match s.soleOutside? members with
      | some v => s.replaceAll members v
      | none =>
        let inner := members.filter fun phi => (s.operandsOutside members phi).isEmpty
        if members.length > 1 && !inner.isEmpty then collapseWithin fuel inner s else s) s

/-- Replaces redundant groups among all phis. Inner groups get smaller, which bounds the nesting. -/
def collapse : Construction :=
  let phis := (s.func.blockIds.flatMap s.func.phis).filter (!s.isReplaced ·)
  collapseWithin (phis.length + 1) phis s

end Construction

namespace Func

def phiArgs (f : Func) (v : ValueId) : List ValueId :=
  (f.args v).filter fun a => (f.value a).op == .phi

def phiRoots (f : Func) : List ValueId :=
  f.blockIds.flatMap fun b =>
    let k := f.block b
    let readers := (k.values.filter fun v => (f.value v).op != .phi) ++ k.control.toList
    readers.flatMap f.phiArgs ++ k.control.toList.filter fun c => (f.value c).op == .phi

def dropDeadPhis (f : Func) : Func :=
  let live := reach f.phiArgs (List.range f.values.size) f.phiRoots
  { f with blocks := f.blocks.map fun k =>
    { k with values := k.values.filter fun v => (f.value v).op != .phi || live.contains v } }

end Func

end SsaCodegen
