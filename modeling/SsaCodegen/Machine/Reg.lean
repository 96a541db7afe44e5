/-!
General-purpose registers and sets of them.
-/

namespace SsaCodegen

/-- A general-purpose register by its five-bit number. Number 31 is the stack pointer or the zero
register, as the instruction field decides. -/
abbrev Reg := Fin 32

/-- There are registers at all, which lets numerals stand for them. -/
instance regCount_neZero : @NeZero Nat Zero.ofOfNat0 32 := ⟨Nat.succ_ne_zero 31⟩

namespace Reg

def ofInt (n : Int) : Reg := Fin.ofNat 32 (n % 32).toNat

def x0 : Reg := 0
def x1 : Reg := 1
/-- Carries the address of an indirect result. -/
def x8 : Reg := 8
/-- First scratch register between procedures, never allocated. -/
def ip0 : Reg := 16
/-- Second scratch register, which breaks cycles of moves. -/
def ip1 : Reg := 17
def fp : Reg := 29
def lr : Reg := 30
def sp : Reg := 31
def xzr : Reg := 31

end Reg

/-- A set of registers, one bit for each. -/
structure RegSet where
  bits : BitVec 32
  deriving DecidableEq

namespace RegSet

def empty : RegSet := ⟨0#32⟩

instance : EmptyCollection RegSet := ⟨empty⟩

instance : Inhabited RegSet := ⟨empty⟩

def firstN (n : Nat) : RegSet := ⟨BitVec.ofNat 32 (Nat.pow 2 n - 1)⟩

variable (s : RegSet)

def contains (r : Reg) : Bool := s.bits.getLsbD r

def insert (r : Reg) : RegSet := ⟨s.bits ||| (1#32 <<< r.val)⟩

def erase (r : Reg) : RegSet := ⟨s.bits &&& ~~~(1#32 <<< r.val)⟩

def union (s t : RegSet) : RegSet := ⟨s.bits ||| t.bits⟩

def diff (s t : RegSet) : RegSet := ⟨s.bits &&& ~~~t.bits⟩

def toList : List Reg := (List.finRange 32).filter s.contains

def ofList (rs : List Reg) : RegSet := rs.foldl insert empty

def isEmpty : Bool := s.bits == 0#32

def size : Nat := s.toList.length

def first? : Option Reg := s.toList.head?

@[simp] theorem contains_empty (r : Reg) : contains ∅ r = false := BitVec.getLsbD_zero

theorem getLsbD_one_shiftLeft (q r : Reg) : (1#32 <<< q.val).getLsbD r = (r == q) := by
  rw [BitVec.getLsbD_shiftLeft, BitVec.getLsbD_one, Bool.eq_iff_iff]
  simp [Fin.ext_iff]
  omega

@[simp] theorem contains_insert (q r : Reg) : (s.insert q).contains r = (s.contains r || r == q) := by
  rw [contains, insert, BitVec.getLsbD_or, getLsbD_one_shiftLeft, contains]

@[simp] theorem contains_erase (q r : Reg) : (s.erase q).contains r = (s.contains r && r != q) := by
  rw [contains, erase, BitVec.getLsbD_and, BitVec.getLsbD_not, getLsbD_one_shiftLeft, contains]
  simp [bne]

end RegSet

end SsaCodegen
