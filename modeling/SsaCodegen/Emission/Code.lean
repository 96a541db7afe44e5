import SsaCodegen.Error
import SsaCodegen.Object

/-!
Code under construction. Branches get their displacements when every block has its place.
-/

namespace SsaCodegen

structure PendingBranch where
  /-- Bytes from the start of the function. -/
  offset : Nat
  target : BlockId
  instr : Instr
  kind : BranchKind

def patchBranch (words : Array Word) (branch : PendingBranch) (displacement : Int) (func : String) :
    Except CompileError (Array Word) :=
  if branch.kind.range ≤ displacement.natAbs then
    throw (.branchOutOfRange func branch.offset displacement branch.kind)
  else
    match (branch.instr.withOffset displacement).encode with
    | .ok w => pure (words.setIfInBounds (branch.offset / 4) w)
    | .error e => throw (.encoding e)

structure Code where
  words : Array Word
  relocs : List Reloc
  branches : List PendingBranch
  /-- Where each block starts, for the blocks that have been placed. -/
  starts : Array (Option Nat)

abbrev Emit := StateT Code (Except CompileError)

namespace Code

def offset (c : Code) : Nat := 4 * c.words.size

def bytes (c : Code) : List UInt8 := c.words.toList.flatMap Word.bytes

def patchAll (c : Code) (func : String) : Except CompileError Code := do
  let words ← c.branches.foldlM (fun words branch =>
    match c.starts.getD branch.target none with
    | none => throw (.registerAllocation func (.unplacedTarget branch.target))
    | some start => patchBranch words branch ((start : Int) - branch.offset) func) c.words
  return { c with words }

end Code

def emit (i : Instr) : Emit Unit := do
  match i.encode with
  | .ok w => modify fun c => { c with words := c.words.push w }
  | .error e => throw (.encoding e)

def emitAll (is : List Instr) : Emit Unit := is.forM emit

def emitBranch (i : Instr) (target : BlockId) (kind : BranchKind) : Emit Unit := do
  modify fun c => { c with branches := c.branches ++ [⟨c.offset, target, i, kind⟩] }
  emit i

def emitReloc (i : Instr) (symbol : String) (kind : RelocKind) : Emit Unit := do
  modify fun c => { c with relocs := c.relocs ++ [⟨c.offset, symbol, kind, 0⟩] }
  emit i

def placeBlock (b : BlockId) : Emit Unit :=
  modify fun c => { c with starts := c.starts.setIfInBounds b (some c.offset) }

end SsaCodegen
