import SsaCodegen.Error
import SsaCodegen.Frame

/-!
The procedure call standard for integers and pointers. Arguments take `x0` to `x7` and then the
stack; once one is on the stack no later one gets a register. Results of up to two words come back
in `x0` and `x1`, wider ones through the address in `x8`.
-/

namespace SsaCodegen

def argRegs : List Reg := [0, 1, 2, 3, 4, 5, 6, 7]

def resultRegs : List Reg := [Reg.x0, Reg.x1]

def minAllocatable : Nat := 4
def maxAllocatable : Nat := 16

def allocatableRegs (count : Nat) : RegSet :=
  RegSet.firstN (min (max count minAllocatable) maxAllocatable)

def calleeSaved : RegSet := RegSet.ofList ((List.finRange 32).filter fun r => 19 ≤ r ∧ r ≤ 28)

/-- How an argument is passed: by its turn, as the address of an indirect result, or beyond the
declared parameters. -/
inductive ArgRole where
  | plain
  | structReturn
  | variadic
  deriving DecidableEq, Repr

structure Placement where
  size : Nat
  align : Nat
  /-- The number of registers or stack words. -/
  words : Nat
  reg : Option Reg
  stack : Option Nat
  deriving DecidableEq

namespace Placement

def ofSize (size align : Nat) : Placement :=
  { size, align, words := max ((size + wordSize - 1) / wordSize) 1, reg := none, stack := none }

def ofType (types : TypeTable) (ty : TypeId) : Placement := ofSize (types.size ty) (types.align ty)

def regs (p : Placement) : List Reg :=
  match p.reg with
  | none => []
  | some first => (List.range p.words).map fun i => Fin.ofNat 32 (first.val + i)

def incoming? (p : Placement) : Option ValueLoc :=
  if p.reg.isSome then ValueLoc.ofRegs? p.regs else p.stack.map fun o => .stack (.incoming o)

def outgoing? (p : Placement) : Option ValueLoc :=
  if p.reg.isSome then ValueLoc.ofRegs? p.regs else p.stack.map fun o => .stack (.outgoing o)

end Placement

/-- What has been handed out: argument registers, stack bytes, result registers. -/
structure Assigner where
  args : Nat
  stack : Nat
  results : Nat
  deriving DecidableEq

namespace Assigner

def new : Assigner := ⟨0, 0, 0⟩

def assignStack (a : Assigner) (p : Placement) : Placement × Assigner :=
  let offset := alignTo a.stack (if 2 ≤ p.words then stackAlign else wordSize)
  ({ p with reg := none, stack := some offset },
    { a with stack := offset + p.words * wordSize })

def assignArg (a : Assigner) (role : ArgRole) (p : Placement) : Placement × Assigner :=
  match role with
  | .structReturn => ({ p with reg := some Reg.x8, stack := none }, a)
  | .variadic => a.assignStack p
  | .plain =>
    if a.args + p.words ≤ argRegs.length then
      ({ p with reg := argRegs[a.args]?, stack := none }, { a with args := a.args + p.words })
    else { a with args := argRegs.length }.assignStack p

def assignResult (a : Assigner) (p : Placement) : Placement × Assigner :=
  if a.results + p.words ≤ resultRegs.length then
    ({ p with reg := resultRegs[a.results]?, stack := none },
      { a with results := a.results + p.words })
  else ({ p with reg := none, stack := none }, a)

def stackSize (a : Assigner) : Nat := alignTo a.stack stackAlign

end Assigner

def passedType (types : TypeTable) (ty : TypeId) : TypeId :=
  if types.isMemoryAggregate ty then TypeId.ptr else ty

structure Signature where
  params : List Placement
  result : Option Placement
  indirectResult : Bool
  /-- Bytes of arguments on the stack. -/
  stackSize : Nat
  deriving DecidableEq

namespace Signature

/-- Assigns parameters in order; `index` is that of the first one. -/
def assignParams (func : String) (types : TypeTable) :
    Assigner → Nat → List TypeId → Except CompileError (List Placement × Assigner)
  | a, _, [] => .ok ([], a)
  | a, index, ty :: rest => do
    let ty := passedType types ty
    if types.parts ty = 0 then
      throw (.unsupportedType func (.parameter index (types.name ty)))
    let (p, a) := a.assignArg .plain (.ofType types ty)
    let (ps, a) ← assignParams func types a (index + 1) rest
    return (p :: ps, a)

def of (types : TypeTable) (f : Func) : Except CompileError Signature := do
  let (params, a) ← assignParams f.name types .new 0 f.params
  let stackSize := a.stackSize
  if f.result = TypeId.void then
    return { params, result := none, indirectResult := false, stackSize }
  else if types.isMemoryAggregate f.result then
    return { params, result := none, indirectResult := true, stackSize }
  else if types.parts f.result = 0 then
    throw (.unsupportedType f.name (.result (types.name f.result)))
  else
    let (p, _) := a.assignResult (.ofType types f.result)
    return { params, result := some p, indirectResult := false, stackSize }

def paramLocation? (s : Signature) (index : Nat) : Option ValueLoc :=
  s.params[index]?.bind Placement.incoming?

def usesStack (s : Signature) : Bool := s.params.any fun p => p.stack.isSome

end Signature

/-- One word of one argument of a call. -/
structure ArgWord where
  value : ValueId
  part : Nat
  dest : WordLoc
  deriving DecidableEq

def ArgWord.text (w : ArgWord) : String :=
  s!"{w.value.text}.{Text.decimal w.part}->{w.dest.text}"

structure CallLayout where
  words : List ArgWord
  /-- Bytes of arguments on the stack. -/
  stackSize : Nat
  result : Option ValueLoc
  deriving DecidableEq

namespace CallLayout

def argRole (callee : Callee) (index : Nat) : ArgRole :=
  if callee.indirectResult ∧ index = 0 then .structReturn
  else if callee.fixedArgs ≤ index then .variadic
  else .plain

/-- Assigns arguments in order; `index` is that of the first one. -/
def assignArgs (f : Func) (types : TypeTable) (call : ValueId) (callee : Callee) :
    Assigner → Nat → List ValueId → Except CompileError (List ArgWord × Assigner)
  | a, _, [] => .ok ([], a)
  | a, index, arg :: rest => do
    let ty := (f.value arg).ty
    if types.parts ty = 0 then
      throw (.unsupportedType f.name (.argument index call (types.name ty)))
    let (p, a) := a.assignArg (argRole callee index) (.ofType types ty)
    let words := match p.outgoing? with
      | none => []
      | some loc => (List.range (types.parts ty)).map fun part => ⟨arg, part, loc.part part⟩
    let (more, a) ← assignArgs f types call callee a (index + 1) rest
    return (words ++ more, a)

def of (f : Func) (types : TypeTable) (call : ValueId) : Except CompileError CallLayout := do
  let x := f.value call
  match x.op, x.payload with
  | .call, .callee callee =>
    let (words, a) ← assignArgs f types call callee .new 0 (f.dataArgs call)
    if x.hasResult then
      let (p, _) := a.assignResult (.ofType types x.ty)
      match p.outgoing? with
      | some loc => return { words, stackSize := a.stackSize, result := some loc }
      | none => throw (.unsupportedType f.name (.callResult call (types.name x.ty)))
    else return { words, stackSize := a.stackSize, result := none }
  | _, _ => throw (.unsupportedType f.name (.notACall call))

end CallLayout

end SsaCodegen
