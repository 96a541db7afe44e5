import SsaCodegen.Machine.Assembly

/-!
Where values live: registers, pairs of registers, stack slots, and constants that are rebuilt where
they are needed. The unit that moves copy is one machine word.
-/

namespace SsaCodegen

open Text

/-- A place on the stack, by the area it belongs to and its byte offset there. -/
inductive StackSlot where
  | spill (offset : Nat)
  /-- Among the arguments that the caller passed on the stack. -/
  | incoming (offset : Nat)
  /-- Among the arguments passed to a callee on the stack. -/
  | outgoing (offset : Nat)
  deriving DecidableEq

namespace StackSlot

def word (part : Nat) : StackSlot → StackSlot
  | spill o => spill (o + part * 8)
  | incoming o => incoming (o + part * 8)
  | outgoing o => outgoing (o + part * 8)

def text : StackSlot → String
  | spill o => s!"spill+{decimal o}"
  | incoming o => s!"in+{decimal o}"
  | outgoing o => s!"out+{decimal o}"

end StackSlot

inductive WordLoc where
  | reg (r : Reg)
  | stack (slot : StackSlot)
  | imm (value : Int)
  deriving DecidableEq

def WordLoc.text : WordLoc → String
  | reg r => r.name
  | stack slot => s!"[{slot.text}]"
  | imm value => s!"#{integer value}"

/-- The location of a value of one or two words. -/
inductive ValueLoc where
  | reg (r : Reg)
  /-- A two-word value, the low word first. -/
  | pair (lo hi : Reg)
  | stack (slot : StackSlot)
  | imm (value : Int)
  deriving DecidableEq

namespace ValueLoc

/-- The location of word `part`; registers and constants have no further words than they hold. -/
def part : ValueLoc → Nat → WordLoc
  | reg r, _ => .reg r
  | pair lo _, 0 => .reg lo
  | pair _ hi, _ => .reg hi
  | stack slot, p => .stack (slot.word p)
  | imm value, _ => .imm value

def regs : ValueLoc → List Reg
  | reg r => [r]
  | pair lo hi => [lo, hi]
  | stack _ | imm _ => []

def isReg : ValueLoc → Bool
  | reg _ | pair _ _ => true
  | stack _ | imm _ => false

def ofRegs? : List Reg → Option ValueLoc
  | [r] => some (reg r)
  | [lo, hi] => some (pair lo hi)
  | _ => none

def text : ValueLoc → String
  | reg r => r.name
  | pair lo hi => s!"{lo.name}:{hi.name}"
  | stack slot => s!"[{slot.text}]"
  | imm value => s!"#{integer value}"

end ValueLoc

end SsaCodegen
