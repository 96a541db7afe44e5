import SsaCodegen.Machine.Instr
import SsaCodegen.Text.Numeral

/-!
The operations of the SSA form, the relations that comparisons test, and the numbers of values, blocks
and memory locals inside a function.
-/

namespace SsaCodegen

open Text

abbrev ValueId := Nat

def ValueId.text (v : ValueId) : String := "v" ++ decimal v

abbrev BlockId := Nat

def BlockId.text (b : BlockId) : String := "b" ++ decimal b

abbrev LocalId := Nat

def LocalId.text (l : LocalId) : String := "l" ++ decimal l

/-- Relations between two integers; `s` reads them as signed, `u` as unsigned. -/
inductive Relation where
  | eq | ne | slt | sle | sgt | sge | ult | ule | ugt | uge
  deriving DecidableEq, Repr

namespace Relation

def all : List Relation := [eq, ne, slt, sle, sgt, sge, ult, ule, ugt, uge]

def name : Relation → String
  | eq => "eq" | ne => "ne" | slt => "slt" | sle => "sle" | sgt => "sgt" | sge => "sge"
  | ult => "ult" | ule => "ule" | ugt => "ugt" | uge => "uge"

def ofName? (s : String) : Option Relation := all.find? (·.name == s)

def swapped : Relation → Relation
  | eq => eq | ne => ne
  | slt => sgt | sle => sge | sgt => slt | sge => sle
  | ult => ugt | ule => uge | ugt => ult | uge => ule

def isSigned : Relation → Bool
  | slt | sle | sgt | sge => true
  | _ => false

def flagCond : Relation → FlagCond
  | eq => .eq | ne => .ne
  | slt => .lt | sle => .le | sgt => .gt | sge => .ge
  | ult => .lo | ule => .ls | ugt => .hi | uge => .hs

end Relation

inductive Op where
  | arg
  | initMem
  | const
  | add
  | sub
  | mul
  | sdiv
  | udiv
  | srem
  | urem
  | and
  | or
  | xor
  | shl
  | lshr
  | ashr
  | neg
  | not
  /-- A comparison that yields a boolean; the payload is the relation. -/
  | cmp
  | signExt
  | zeroExt
  | trunc
  | copy
  | phi
  /-- The address of a memory local; the payload is the local. -/
  | localAddr
  | globalAddr
  /-- A pointer plus a constant; the payload is the byte offset. -/
  | offPtr
  /-- Operands: pointer, memory. -/
  | load
  /-- Operands: pointer, value, memory. -/
  | store
  /-- Operands: pointer, memory; the payload is the byte count. -/
  | zero
  /-- Operands: destination, source, memory; the payload is the byte count. -/
  | move
  /-- Operands: arguments, memory; the payload describes the callee. -/
  | call
  /-- A two-word aggregate made of its fields. -/
  | pack
  /-- A field of a two-word aggregate; the payload is its index. -/
  | extract
  /-- Operands: results, memory. The control of a returning block. -/
  | ret
  | storeReg
  | loadReg
  /-- The address of an indirect result, supplied by the caller. -/
  | resultPtr
  deriving DecidableEq, Repr

namespace Op

def all : List Op :=
  [arg, initMem, const, add, sub, mul, sdiv, udiv, srem, urem, and, or, xor, shl, lshr, ashr, neg,
    not, cmp, signExt, zeroExt, trunc, copy, phi, localAddr, globalAddr, offPtr, load, store,
    zero, move, call, pack, extract, ret, storeReg, loadReg, resultPtr]

def name : Op → String
  | arg => "Arg" | initMem => "InitMem" | const => "Const" | add => "Add" | sub => "Sub"
  | mul => "Mul" | sdiv => "SDiv" | udiv => "UDiv" | srem => "SRem" | urem => "URem"
  | and => "And" | or => "Or" | xor => "Xor" | shl => "Shl" | lshr => "LShr" | ashr => "AShr"
  | neg => "Neg" | not => "Not" | cmp => "Cmp" | signExt => "SignExt" | zeroExt => "ZeroExt"
  | trunc => "Trunc" | copy => "Copy" | phi => "Phi" | localAddr => "LocalAddr"
  | globalAddr => "GlobalAddr" | offPtr => "OffPtr" | load => "Load" | store => "Store"
  | zero => "Zero" | move => "Move" | call => "Call" | pack => "Pack" | extract => "Extract"
  | ret => "Ret" | storeReg => "StoreReg" | loadReg => "LoadReg" | resultPtr => "ResultPtr"

def ofName? (s : String) : Option Op := all.find? (·.name == s)

def takesMem : Op → Bool
  | load | store | zero | move | call | ret => true
  | _ => false

def makesMem : Op → Bool
  | initMem | store | zero | move | call => true
  | _ => false

def isCommutative : Op → Bool
  | add | mul | and | or | xor => true
  | _ => false

def isBinary : Op → Bool
  | add | sub | mul | sdiv | udiv | srem | urem | and | or | xor | shl | lshr | ashr => true
  | _ => false

def isLeading : Op → Bool
  | phi | arg | initMem | resultPtr => true
  | _ => false

end Op

end SsaCodegen
