import SsaCodegen.Ssa.Op

/-!
What the registers hold while a function is being allocated.
-/

namespace SsaCodegen

/-- The contents of a register: word `part` of `value`, as defined by `copy`, which is the value
itself or a copy made of it later. -/
structure Occupant where
  value : ValueId
  copy : ValueId
  part : Nat
  deriving DecidableEq

/-- The state of all registers: which are in use, which of these the instruction at hand needs, which
hold a value with no copy in memory, and what each of them holds. -/
structure RegisterFile where
  allocatable : RegSet
  used : RegSet
  locked : RegSet
  dirty : RegSet
  occupants : Vector (Option Occupant) 32

namespace RegisterFile

def new (allocatable : RegSet) : RegisterFile := ⟨allocatable, ∅, ∅, ∅, Vector.replicate 32 none⟩

variable (f : RegisterFile)

def inUse (r : Reg) : Bool := f.used.contains r

def occupant? (r : Reg) : Option Occupant := f.occupants[r]

def isDirty (r : Reg) : Bool := f.dirty.contains r

def isLocked (r : Reg) : Bool := f.locked.contains r

def findFree? (exclude : RegSet) : Option Reg :=
  ((f.allocatable.diff f.used).diff exclude).first?

def freeCount : Nat := (f.allocatable.diff f.used).size

def evictable (exclude : RegSet) : List Reg :=
  ((f.used.diff f.locked).diff exclude).toList

def assign (r : Reg) (o : Occupant) (dirty : Bool) : RegisterFile :=
  { f with
    used := f.used.insert r
    dirty := if dirty then f.dirty.insert r else f.dirty.erase r
    occupants := f.occupants.set r (some o) }

def free (r : Reg) : RegisterFile :=
  { f with
    used := f.used.erase r
    locked := f.locked.erase r
    dirty := f.dirty.erase r
    occupants := f.occupants.set r none }

/-- The registers that hold a value, each with the part it holds. -/
def held (v : ValueId) : List (Nat × Reg) :=
  f.used.toList.filterMap fun r =>
    (f.occupant? r).bind fun o => if o.value = v then some (o.part, r) else none

def regsOf (v : ValueId) : List Reg :=
  ((f.held v).mergeSort fun a b => a.1 ≤ b.1).map Prod.snd

def markClean (v : ValueId) : RegisterFile :=
  { f with dirty := (f.regsOf v).foldl RegSet.erase f.dirty }

def lock (r : Reg) : RegisterFile :=
  { f with locked := if f.inUse r then f.locked.insert r else f.locked }

def unlockAll : RegisterFile := { f with locked := ∅ }

def occupied : List (Reg × Occupant) :=
  f.used.toList.filterMap fun r => (f.occupant? r).map (r, ·)

def clear : RegisterFile := new f.allocatable

/-- The bits fit the occupants: a register is in use if it holds something, and only then can it be
locked or dirty. -/
structure Consistent (f : RegisterFile) : Prop where
  used : ∀ r, f.inUse r = (f.occupant? r).isSome
  locked : ∀ r, f.isLocked r → f.inUse r
  dirty : ∀ r, f.isDirty r → f.inUse r

section

variable (f : RegisterFile) (r q : Reg) (o : Occupant) (v : ValueId)

theorem inUse_assign (dirty : Bool) : (f.assign r o dirty).inUse q = (f.inUse q || q == r) :=
  RegSet.contains_insert ..

theorem isDirty_assign (dirty : Bool) :
    (f.assign r o dirty).isDirty q = if q = r then dirty else f.isDirty q := by
  cases dirty <;> by_cases h : q = r <;> simp [isDirty, assign, h]

theorem occupant?_assign (dirty : Bool) :
    (f.assign r o dirty).occupant? q = if q = r then some o else f.occupant? q := by
  simp [occupant?, assign, Vector.getElem_set, Fin.ext_iff, eq_comm]

theorem inUse_free : (f.free r).inUse q = (f.inUse q && q != r) := RegSet.contains_erase ..

theorem isLocked_free : (f.free r).isLocked q = (f.isLocked q && q != r) := RegSet.contains_erase ..

theorem isDirty_free : (f.free r).isDirty q = (f.isDirty q && q != r) := RegSet.contains_erase ..

theorem occupant?_free : (f.free r).occupant? q = if q = r then none else f.occupant? q := by
  simp [occupant?, free, Vector.getElem_set, Fin.ext_iff, eq_comm]

theorem isLocked_lock : (f.lock r).isLocked q = (f.isLocked q || (q == r && f.inUse r)) := by
  cases h : f.inUse r <;> simp [isLocked, lock, h]

theorem isDirty_markClean : (f.markClean v).isDirty q = (f.isDirty q && !(f.regsOf v).contains q) := by
  have aux : ∀ (rs : List Reg) (s : RegSet),
      (rs.foldl RegSet.erase s).contains q = (s.contains q && !rs.contains q) := by
    intro rs
    induction rs with
    | nil => simp
    | cons r rs ih =>
      intro s
      rw [List.foldl_cons, ih, RegSet.contains_erase, List.contains_cons, Bool.not_or, Bool.and_assoc, bne]
  exact aux ..

end

namespace Consistent

protected theorem new (a : RegSet) : (new a).Consistent where
  used r := by simp [RegisterFile.new, inUse, occupant?]
  locked r h := by simp [RegisterFile.new, isLocked] at h
  dirty r h := by simp [RegisterFile.new, isDirty] at h

variable {f : RegisterFile} (h : f.Consistent)

include h

protected theorem assign (r : Reg) (o : Occupant) (dirty : Bool) : (f.assign r o dirty).Consistent where
  used q := by
    rw [inUse_assign, occupant?_assign, h.used]
    by_cases hq : q = r <;> simp [hq]
  locked q hq := by
    rw [inUse_assign, h.locked q hq, Bool.true_or]
  dirty q hq := by
    rw [isDirty_assign] at hq
    rw [inUse_assign]
    by_cases hr : q = r
    · simp [hr]
    · rw [if_neg hr] at hq
      rw [h.dirty q hq, Bool.true_or]

protected theorem free (r : Reg) : (f.free r).Consistent where
  used q := by
    rw [inUse_free, occupant?_free, h.used]
    by_cases hq : q = r <;> simp [hq]
  locked q hq := by
    rw [isLocked_free, Bool.and_eq_true] at hq
    rw [inUse_free, h.locked q hq.1, hq.2, Bool.true_and]
  dirty q hq := by
    rw [isDirty_free, Bool.and_eq_true] at hq
    rw [inUse_free, h.dirty q hq.1, hq.2, Bool.true_and]

protected theorem markClean (v : ValueId) : (f.markClean v).Consistent where
  used := h.used
  locked := h.locked
  dirty q hq := by
    rw [isDirty_markClean, Bool.and_eq_true] at hq
    exact h.dirty q hq.1

protected theorem lock (r : Reg) : (f.lock r).Consistent where
  used := h.used
  locked q hq := by
    rw [isLocked_lock, Bool.or_eq_true, Bool.and_eq_true, beq_iff_eq] at hq
    rcases hq with hq | ⟨rfl, hr⟩
    · exact h.locked q hq
    · exact hr
  dirty := h.dirty

protected theorem unlockAll : f.unlockAll.Consistent where
  used := h.used
  locked q hq := by
    rw [isLocked, RegisterFile.unlockAll, RegSet.contains_empty] at hq
    cases hq
  dirty := h.dirty

end Consistent

end RegisterFile

/-- A register file whose bits fit its occupants. -/
structure Registers extends RegisterFile where
  consistent : toRegisterFile.Consistent

namespace Registers

def new (allocatable : RegSet) : Registers := ⟨.new allocatable, .new allocatable⟩

def assign (f : Registers) (r : Reg) (o : Occupant) (dirty : Bool) : Registers :=
  ⟨f.toRegisterFile.assign r o dirty, f.consistent.assign r o dirty⟩

def free (f : Registers) (r : Reg) : Registers := ⟨f.toRegisterFile.free r, f.consistent.free r⟩

def release (f : Registers) (v : ValueId) : Registers := (f.regsOf v).foldl free f

def markClean (f : Registers) (v : ValueId) : Registers :=
  ⟨f.toRegisterFile.markClean v, f.consistent.markClean v⟩

def lock (f : Registers) (r : Reg) : Registers := ⟨f.toRegisterFile.lock r, f.consistent.lock r⟩

def unlockAll (f : Registers) : Registers := ⟨f.toRegisterFile.unlockAll, f.consistent.unlockAll⟩

def clear (f : Registers) : Registers := new f.allocatable

end Registers

end SsaCodegen
