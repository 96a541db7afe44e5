import SsaCodegen.Convention
import SsaCodegen.RegisterFile
import SsaCodegen.Ssa.Liveness

/-!
The state of register allocation, and how values get into registers and out of them. A value that
has to leave its register has one home in memory, from which it is reloaded; constants are made
anew. The value whose next use is furthest ahead leaves first.
-/

namespace SsaCodegen

structure Setting where
  types : TypeTable
  live : Liveness
  signature : Signature

structure Allocator where
  func : Func
  regs : Registers
  /-- Values with the values that name their copies in memory. -/
  homes : List (ValueId × ValueId)
  /-- What the registers hold at the end of each block that has been visited. -/
  endStates : Array (Option (List (Reg × Occupant)))
  current : Option BlockId
  /-- The values of the block at hand that have been dealt with, and the code added. -/
  out : List ValueId
  /-- The uses in the block at hand, by value and position, in ascending order of positions. -/
  uses : List (ValueId × Nat)
  pos : Nat
  blockLen : Nat
  spillSize : Nat
  spillSlots : Nat
  spills : Nat
  reloads : Nat
  remats : Nat
  callSites : Nat
  outgoingSize : Nat

abbrev Alloc := StateT Allocator (Except CompileError)

namespace Allocator

variable (s : Allocator)

def nextUse? (v : ValueId) (start : Nat) : Option Nat :=
  (s.uses.find? fun (u, p) => u == v && start ≤ p).map (·.2)

def isLiveFrom (live : Liveness) (s : Allocator) (v : ValueId) (start : Nat) : Bool :=
  (s.nextUse? v start).isSome || s.current.any fun b => (live.liveOut b).contains v

def isLiveAfter (live : Liveness) (s : Allocator) (v : ValueId) : Bool :=
  s.isLiveFrom live v (s.pos + 1)

def distance (live : Liveness) (s : Allocator) (v : ValueId) : Nat :=
  match s.nextUse? v (s.pos + 1) with
  | some p => p
  | none => if s.isLiveAfter live v then s.blockLen + 1 else s.blockLen + 2

/-- The register to clear: the first of those whose value is needed last. -/
def victim? (live : Liveness) (s : Allocator) (exclude : RegSet) : Option Reg :=
  let candidates := (s.regs.evictable exclude).filter s.regs.allocatable.contains
  let late (r : Reg) := ((s.regs.occupant? r).map fun o => s.distance live o.value).getD 0
  candidates.foldl (fun best r =>
    match best with
    | none => some r
    | some q => if late q < late r then some r else some q) none

def release (s : Allocator) (v : ValueId) : Allocator := { s with regs := s.regs.release v }

def setLoc (s : Allocator) (v : ValueId) (loc : Option ValueLoc) : Allocator :=
  { s with func := s.func.setLoc v loc }

def setHome (v home : ValueId) : Allocator :=
  { s with homes := (v, home) :: s.homes }

def hasHome (v : ValueId) : Bool := (s.homes.lookup v).isSome

def emit (v : ValueId) : Allocator := { s with out := s.out ++ [v] }

def hold (v copy : ValueId) (rs : List Reg) (dirty : Bool) : Allocator :=
  { s with
    regs := rs.zipIdx.foldl (fun f (r, part) => f.assign r ⟨v, copy, part⟩ dirty) s.regs }

def lockAll (rs : List Reg) : Allocator :=
  { s with regs := rs.foldl Registers.lock s.regs }

def newSlot (words : Nat) : StackSlot × Allocator :=
  (.spill s.spillSize,
    { s with spillSize := s.spillSize + words * wordSize, spillSlots := s.spillSlots + 1 })

/-- Puts a value into a list right after another one, or after all leading values if that one leads
its block. -/
def placeAfter (f : Func) (v new : ValueId) (list : List ValueId) : List ValueId :=
  let index :=
    if (f.value v).op.isLeading then
      (list.takeWhile fun u => (f.value u).op.isLeading).length
    else
      match list.idxOf? v with
      | some i => i + 1
      | none => list.length
  list.insertIdx index new

/-- Puts a value into the block of `v`, right after it. -/
def insertAfter (v new : ValueId) : Allocator :=
  let b := (s.func.value v).block
  if s.current == some b then { s with out := placeAfter s.func v new s.out }
  else
    { s with func := s.func.modifyBlock b fun k =>
        { k with values := placeAfter s.func v new k.values } }

def create (b : BlockId) (op : Op) (ty : TypeId) (args : List ValueId)
    (payload : Payload) : ValueId × Allocator :=
  let (v, func) := s.func.newValue b op ty args payload
  (v, { s with func })

end Allocator

namespace Setting

def reject {α : Type} (fault : AllocationFault) : Alloc α := do
  throw (.registerAllocation (← get).func.name fault)

/-- The number of words of a value that registers can hold. -/
def parts (c : Setting) (v : ValueId) : Alloc Nat := do
  let f := (← get).func
  let ty := (f.value v).ty
  match c.types.parts ty with
  | 0 => throw (.unsupportedType f.name (.value v (c.types.name ty)))
  | n => return n

def intPayload (v : ValueId) : Alloc Int := do
  match ((← get).func.value v).payload.int? with
  | some k => return k
  | none => reject (.noInteger v)

variable (c : Setting)

/-- Stores a value that is in registers right after its definition; the result names the copy. -/
def spill (v : ValueId) : Alloc ValueId := do
  let words ← c.parts v
  modifyGet fun s =>
    let (slot, s) := s.newSlot words
    let x := s.func.value v
    let (store, s) := s.create x.block .storeReg x.ty [v] .none
    let s := ((s.setLoc store (some (.stack slot))).insertAfter v store).setHome v store
    (store, { s with regs := s.regs.markClean v, spills := s.spills + 1 })

def home (v : ValueId) : Alloc ValueId := do
  let s ← get
  match s.homes.lookup v with
  | some h => return h
  | none =>
    match (s.func.value v).loc with
    | some (.stack _) | some (.imm _) =>
      set (s.setHome v v)
      return v
    | some _ => c.spill v
    | none => reject (.nothingToSpill v)

def evict (r : Reg) : Alloc Unit := do
  let s ← get
  match s.regs.occupant? r with
  | none => return
  | some o =>
    if s.regs.isDirty r && s.isLiveAfter c.live o.value then
      let _ ← c.home o.value
    modify (·.release o.value)

def takeReg (taken : RegSet) : Alloc Reg := do
  let s ← get
  match s.regs.findFree? taken with
  | some r => return r
  | none =>
    match s.victim? c.live taken with
    | none => reject (.noRegister s.pos (s.current.getD 0))
    | some r =>
      c.evict r
      return r

/-- As many registers as asked for, none of them in `taken`. -/
def takeRegs (c : Setting) : Nat → RegSet → Alloc (List Reg)
  | 0, _ => return []
  | n + 1, taken => do
    let r ← c.takeReg taken
    let rest ← c.takeRegs n (taken.insert r)
    return r :: rest

/-- Makes the value that brings `u` back: the constant anew, or a load from its home. -/
def bringBack (u : ValueId) : Alloc ValueId := do
  let s ← get
  let b := s.current.getD s.func.entry
  let x := s.func.value u
  match x.loc with
  | some (.imm k) =>
    let (copy, s) := s.create b .const x.ty [] (.int k)
    set { s with remats := s.remats + 1 }
    return copy
  | _ =>
    match s.homes.lookup u with
    | none => reject (.lost u)
    | some h =>
      let (copy, s) := s.create b .loadReg x.ty [h] .none
      set { s with reloads := s.reloads + 1 }
      return copy

/-- Gets a value into registers and locks them; the result names the copy that they hold. -/
def useInReg (u : ValueId) : Alloc ValueId := do
  let s ← get
  match s.regs.regsOf u with
  | r :: rest =>
    set (s.lockAll (r :: rest))
    return ((s.regs.occupant? r).map Occupant.copy).getD u
  | [] =>
    let words ← c.parts u
    let copy ← bringBack u
    let rs ← c.takeRegs words ∅
    modify fun s =>
      (((s.hold u copy rs false).lockAll rs).setLoc copy (ValueLoc.ofRegs? rs)).emit copy
    return copy

def copyOf (u : ValueId) : Alloc ValueId := do
  let regs := (← get).regs
  match regs.regsOf u with
  | r :: _ => return ((regs.occupant? r).map Occupant.copy).getD u
  | [] => c.home u

end Setting

end SsaCodegen
