import SsaCodegen.Ir.Printer
import SsaCodegen.Ssa.Printer

/-!
Why a function cannot be compiled. Every error names the function and what in it is at fault.
-/

namespace SsaCodegen

open Text

namespace Source

/-- A cause for which a source text is rejected. A character that was found instead of the expected
one is missing at the end of the text. -/
inductive Fault where
  | expectedFunc
  | duplicateFunction (name : String)
  | expectedChar (expected : Char) (found : Option Char)
  | expectedName (found : Option Char)
  | expectedIdentifier (found : Option Char)
  | badInteger (digits : String) (cause : NumeralFault)
  | badIndex (value : Int)
  | unknownType (name : String)
  | endOfInput
  | instructionOutsideBlock
  | wordOutsideBlock (word : String)
  | valueDefinedTwice (name : String)
  | localDeclaredTwice (name : String)
  | blockDefinedTwice (name : String)
  | unexpected (found : Option Char)
  | noBlocks
  | undefinedBlock (name : String)
  | undefinedValue (name : String)
  | undeclaredLocal (name : String)
  | noParameter (index : Nat)
  | unknownRelation (name : String)
  | unknownInstruction (name : String)
  | ellipsisTwice
  deriving DecidableEq

def foundText : Option Char → String
  | none => "None"
  | some c => s!"Some({quoteChar c})"

def Fault.message : Fault → String
  | expectedFunc => "expected `func`"
  | duplicateFunction name => s!"duplicate function `{name}`"
  | expectedChar expected found =>
    s!"expected '{String.singleton expected}' but found {foundText found}"
  | expectedName found => s!"expected a name but found {foundText found}"
  | expectedIdentifier found => s!"expected identifier but found {foundText found}"
  | badInteger digits cause => s!"bad integer `{digits}`: {cause.message}"
  | badIndex value => s!"bad index {integer value}"
  | unknownType name => s!"unknown type `{name}`"
  | endOfInput => "unexpected end of input"
  | instructionOutsideBlock => "instruction outside a block"
  | wordOutsideBlock word => s!"`{word}` outside a block"
  | valueDefinedTwice name => s!"%{name} defined twice"
  | localDeclaredTwice name => s!"local `{name}` declared twice"
  | blockDefinedTwice name => s!"block `{name}` defined twice"
  | unexpected found => s!"unexpected {foundText found}"
  | noBlocks => "function has no blocks"
  | undefinedBlock name => s!"jump to undefined block `{name}`"
  | undefinedValue name => s!"undefined value %{name}"
  | undeclaredLocal name => s!"undeclared local `{name}`"
  | noParameter index => s!"no parameter {decimal index}"
  | unknownRelation name => s!"unknown condition `{name}`"
  | unknownInstruction name => s!"unknown instruction `{name}`"
  | ellipsisTwice => "`...` given twice"

end Source

namespace Ir

inductive Fault where
  | source (line : Nat) (fault : Source.Fault)
  | noBlocks
  | badSignatureType (ty : TypeId)
  | voidParameter
  | entryHasPredecessors
  | missingNode (block : String) (n : NodeId)
  | undefinedOperand (n operand : NodeId) (block : String)
  | invalidType (n : NodeId) (ty : TypeId)
  | illTyped (n : NodeId) (kind : NodeKind)
  | placedTwice (n : NodeId)
  | noTerminator (block : String)
  | missingTarget (block : String) (target : BlockId)
  | badCondition (block : String)
  | badReturnValue (block : String)
  | returnArity (block : String)
  | noValue (n : NodeId)
  | addressOfRegisterLocal (l : LocalId)
  | noField (typeName : String) (index : Nat)
  deriving DecidableEq

def Fault.message : Fault → String
  | source line fault => s!"line {decimal line}: {fault.message}"
  | noBlocks => "function has no blocks"
  | badSignatureType ty => s!"bad signature type {ty.text}"
  | voidParameter => "void parameter"
  | entryHasPredecessors => "entry block has predecessors"
  | missingNode block n => s!"block {block} refers to missing node {n.text}"
  | undefinedOperand n operand block =>
    s!"{n.text} uses {operand.text} which is not defined earlier in block {block}"
  | invalidType n ty => s!"{n.text} has invalid type {ty.text}"
  | illTyped n kind => s!"ill-typed node {n.text} ({kind.text})"
  | placedTwice n => s!"{n.text} placed twice"
  | noTerminator block => s!"block {block} has no terminator"
  | missingTarget block target => s!"block {block} jumps to missing {target.text}"
  | badCondition block => s!"bad branch condition in block {block}"
  | badReturnValue block => s!"bad return value in block {block}"
  | returnArity block => s!"return arity mismatch in block {block}"
  | noValue n => s!"node {n.text} has no value"
  | addressOfRegisterLocal l => s!"address of register local ${decimal l}"
  | noField typeName index => s!"{typeName} has no field {decimal index}"

end Ir

inductive CfgFault where
  | tooManySuccessors
  | successorCount (kind : BlockKind) (count : Nat)
  | controlMismatch
  | missingPredecessor (succ : BlockId)
  | missingSuccessor (pred : BlockId)
  | recordsBlock (v : ValueId) (b : BlockId)
  | latePhi (v : ValueId)
  | phiOperandCount (v : ValueId) (operands preds : Nat)
  | neverSealed
  deriving DecidableEq

def CfgFault.message : CfgFault → String
  | tooManySuccessors => "more than two successors"
  | successorCount kind count => s!"{kind.name} block with {decimal count} successors"
  | controlMismatch => "control value does not match block kind"
  | missingPredecessor succ => s!"edge to {succ.text} missing from its predecessor list"
  | missingSuccessor pred => s!"predecessor {pred.text} does not list it as successor"
  | recordsBlock v b => s!"{v.text} records block {b.text}"
  | latePhi v => s!"phi {v.text} after ordinary values"
  | phiOperandCount v operands preds =>
    s!"phi {v.text} has {decimal operands} operands for {decimal preds} predecessors"
  | neverSealed => "block was never sealed"

/-- A value that cannot be held or passed in registers; types are given by name. -/
inductive TypeFault where
  | parameter (index : Nat) (type : String)
  | result (type : String)
  | argument (index : Nat) (call : ValueId) (type : String)
  | notACall (v : ValueId)
  | callResult (call : ValueId) (type : String)
  | value (v : ValueId) (type : String)
  | build (type : String)
  | extract (type : String)
  deriving DecidableEq

def TypeFault.message : TypeFault → String
  | parameter index type => s!"parameter {decimal index} of type {type}"
  | result type => s!"result of type {type}"
  | argument index call type => s!"argument {decimal index} of {call.text} has type {type}"
  | notACall v => s!"{v.text} is not a call"
  | callResult call type => s!"{call.text} returns {type} in registers"
  | value v type => s!"{v.text} of type {type} cannot be held in registers"
  | build type => s!"cannot build {type} in registers"
  | extract type => s!"cannot extract from {type} in registers"

/-- A function that does not meet what register allocation or code emission relies on. -/
inductive AllocationFault where
  | noInteger (v : ValueId)
  | noParameterLocation (index : Nat)
  | nothingToSpill (v : ValueId)
  | noRegister (position : Nat) (b : BlockId)
  | lost (v : ValueId)
  | phiOperand (phi source : ValueId)
  | unplacedTarget (b : BlockId)
  | noLocation (v : ValueId)
  | notInRegister (v : ValueId) (loc : ValueLoc)
  | moveIntoImmediate (src : WordLoc)
  | noSuccessor (b : BlockId)
  | branchCopies (b : BlockId)
  | noControl (b : BlockId)
  | misplaced (v : ValueId) (op : Op)
  | noRelation (v : ValueId)
  | noLocal (v : ValueId)
  | noSymbol (v : ValueId)
  | noCallee (v : ValueId)
  | noSpillSlot (v : ValueId)
  | badReload (v : ValueId) (src dst : ValueLoc)
  deriving DecidableEq

def AllocationFault.message : AllocationFault → String
  | noInteger v => s!"{v.text} has no integer payload"
  | noParameterLocation index => s!"no location for parameter {decimal index}"
  | nothingToSpill v => s!"{v.text} has no location to spill from"
  | noRegister position b => s!"no register left at {decimal position} of {b.text}"
  | lost v => s!"{v.text} is neither in a register nor in memory"
  | phiOperand phi source => s!"phi {phi.text} operand {source.text} has no location"
  | unplacedTarget b => s!"branch to unplaced block {b.text}"
  | noLocation v => s!"{v.text} has no location"
  | notInRegister v loc => s!"{v.text} is used from {loc.text}, not a register"
  | moveIntoImmediate src => s!"move from {src.text} into an immediate"
  | noSuccessor b => s!"{b.text} has no successor"
  | branchCopies b => s!"{b.text} ends in a branch but carries edge copies"
  | noControl b => s!"{b.text} has no control value"
  | misplaced v op => s!"{v.text}: {op.name} inside a block body"
  | noRelation v => s!"{v.text}: compare without a condition"
  | noLocal v => s!"{v.text}: local address without a local"
  | noSymbol v => s!"{v.text}: global address without a symbol"
  | noCallee v => s!"{v.text}: call without a callee"
  | noSpillSlot v => s!"spill {v.text} has no stack slot"
  | badReload v src dst => s!"reload {v.text} from {src.text} into {dst.text}"

inductive RangeFault where
  | localType (l : Ir.LocalId) (ty : TypeId)
  | addressed (n : Ir.NodeId) (l : Ir.LocalId)
  deriving DecidableEq

def RangeFault.message : RangeFault → String
  | localType l ty => s!"local ${decimal l} has unknown type {ty.text}"
  | addressed n l => s!"{n.text} takes the address of unknown local ${decimal l}"

/-- Branch families by the width of their displacement. -/
inductive BranchKind where
  /-- Unconditional, 26 bits. -/
  | jump
  /-- On a flag condition, 19 bits. -/
  | cond
  /-- On a register being zero or not, 19 bits. -/
  | compare
  deriving DecidableEq, Repr

namespace BranchKind

def range : BranchKind → Nat
  | jump => 0x8000000
  | cond | compare => 0x100000

def name : BranchKind → String
  | jump => "b" | cond => "b.cond" | compare => "cbz/cbnz"

end BranchKind

inductive CompileError where
  | invalidIr (func : String) (fault : Ir.Fault)
  | outOfRange (func : String) (fault : RangeFault)
  | undefinedVariable (func variableName block : String)
  | cfgInconsistent (func : String) (b : BlockId) (fault : CfgFault)
  | ssaDominance (func : String) (v : ValueId) (b : BlockId)
  | useCount (func : String) (v : ValueId) (expected found : Nat)
  | phiPlacement (func : String) (v : ValueId) (b : BlockId)
  | registerAllocation (func : String) (fault : AllocationFault)
  | registerConflict (func : String) (a b : ValueId) (r : Reg)
  | branchOutOfRange (func : String) (offset : Nat) (displacement : Int) (kind : BranchKind)
  | unsupportedType (func : String) (fault : TypeFault)
  | encoding (e : EncodingError)
  deriving DecidableEq

def CompileError.message : CompileError → String
  | invalidIr func fault => s!"{func}: invalid IR: {fault.message}"
  | outOfRange func fault => s!"{func}: out of range: {fault.message}"
  | undefinedVariable func variableName block =>
    s!"{func}: local `{variableName}` read in {block} has no reaching definition"
  | cfgInconsistent func b fault => s!"{func}: inconsistent CFG at {b.text}: {fault.message}"
  | ssaDominance func v b =>
    s!"{func}: use of {v.text} in {b.text} is not dominated by its definition"
  | useCount func v expected found =>
    s!"{func}: {v.text} records {decimal found} uses, expected {decimal expected}"
  | phiPlacement func v b =>
    s!"{func}: phi {v.text} in {b.text} is outside the dominance frontier of its inputs"
  | registerAllocation func fault => s!"{func}: register allocation failed: {fault.message}"
  | registerConflict func a b r => s!"{func}: {a.text} and {b.text} are both live in {r.name}"
  | branchOutOfRange func offset displacement kind =>
    s!"{func}: branch at +0x{hex offset} cannot reach displacement {integer displacement} " ++
      s!"({kind.name})"
  | unsupportedType func fault => s!"{func}: unsupported type: {fault.message}"
  | encoding e => s!"encoding failed: {e.message}"

end SsaCodegen
