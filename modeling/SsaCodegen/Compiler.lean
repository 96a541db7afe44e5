import SsaCodegen.Allocation.Check
import SsaCodegen.Emission
import SsaCodegen.Session
import SsaCodegen.Ssa.Check
import SsaCodegen.Ssa.Construction
import SsaCodegen.Ssa.CriticalEdges

/-!
From the input form to machine code, with checks in between that can be left out.
-/

namespace SsaCodegen

structure Options where
  registers : Nat
  verify : Bool

structure Artifacts where
  /-- The SSA form after register allocation. -/
  func : Func
  allocation : Allocation
  phisCreated : Nat
  phisRemoved : Nat
  compiled : CompiledFunction

structure Outcome where
  /-- The SSA forms before and after register allocation, as far as it got. -/
  forms : List Func
  result : Except CompileError Artifacts

namespace Options

/-- The SSA form that registers are allocated for. -/
def prepare (o : Options) (types : TypeTable) (ir : Ir.Func) : Except CompileError Built := do
  let built ← buildSsa ir types
  if o.verify then
    built.func.verify
    checkPhiPlacement built.func (DomTree.compute built.func) built.sites
  return { built with func := built.func.splitCriticalEdges }

def assignRegisters (o : Options) (types : TypeTable) (f : Func) :
    Except CompileError (Allocation × Func) := do
  let (a, f) ← allocate f types (allocatableRegs o.registers)
  if o.verify then
    f.verify
    f.checkAllocation
  return (a, f)

end Options

def Emitted.compiled (e : Emitted) (name : String) : CompiledFunction :=
  { name, code := e.code, relocs := e.relocs, frameSize := e.frameSize
    symbol := { name, offset := 0, size := e.code.length, visibility := .global } }

def compileFunction (o : Options) (types : TypeTable) (ir : Ir.Func) : Outcome :=
  match o.prepare types ir with
  | .error e => ⟨[], .error e⟩
  | .ok built =>
    match o.assignRegisters types built.func with
    | .error e => ⟨[built.func], .error e⟩
    | .ok (allocation, func) =>
      ⟨[built.func, func], do
        let emitted ← generate func types allocation
        return { func, allocation, phisCreated := built.phisCreated
                 phisRemoved := built.phisRemoved, compiled := emitted.compiled func.name }⟩

def Stats.addArtifacts (s : Stats) (a : Artifacts) : Stats :=
  let s := s.addFunction a.compiled.name a.compiled.code.length
  let s := s.addPhis a.phisCreated a.phisRemoved
  let s := s.addSpillCode a.allocation.spills a.allocation.reloads
  s.addCalls a.allocation.callSites

def Stats.addOutcome (s : Stats) (o : Outcome) : Stats :=
  match o.result with
  | .ok a => s.addArtifacts a
  | .error _ => s

def compileUntilFailure (o : Options) (types : TypeTable) : List Ir.Func → List Outcome
  | [] => []
  | ir :: rest =>
    let outcome := compileFunction o types ir
    match outcome.result with
    | .error _ => [outcome]
    | .ok _ => outcome :: compileUntilFailure o types rest

/-- What a module is compiled to: the functions up to the first one that fails, the counters, and
the object file if none failed. -/
structure ModuleOutcome where
  outcomes : List Outcome
  stats : Stats
  result : Except CompileError (List CompiledFunction)

def compileModule (o : Options) (types : TypeTable) (irs : List Ir.Func) : ModuleOutcome :=
  let outcomes := compileUntilFailure o types irs
  { outcomes
    stats := outcomes.foldl Stats.addOutcome .empty
    result := outcomes.mapM fun out => out.result.map Artifacts.compiled }

end SsaCodegen
