import SsaCodegen.Emission.Arithmetic
import SsaCodegen.Frame

/-!
Instructions that read and write memory, in pieces of one, two, four or eight bytes or in pairs of
words.
-/

namespace SsaCodegen

def maxPairOffset : Nat := 504

/-- The size of the piece at an offset, with `rest` bytes still to go. -/
def pieceSize (pairs : Bool) (offset rest : Nat) : Nat :=
  if pairs && 16 ≤ rest && offset ≤ maxPairOffset - 8 then 16
  else ([8, 4, 2, 1].find? fun size => size ≤ rest && offset % size == 0).getD 1

def piecesFrom (bytes : Nat) (pairs : Bool) : Nat → Nat → List (Nat × Nat)
  | 0, _ => []
  | fuel + 1, offset =>
    if offset < bytes then
      let size := pieceSize pairs offset (bytes - offset)
      (offset, size) :: piecesFrom bytes pairs fuel (offset + size)
    else []

/-- The pieces of an area as offset and size, in ascending order. -/
def pieces (bytes : Nat) (pairs : Bool) : List (Nat × Nat) := piecesFrom bytes pairs bytes 0

def wordBytes (size part : Nat) : Nat :=
  if part * wordSize ≤ size then min (size - part * wordSize) wordSize else wordSize

def isAccessSize (size : Nat) : Bool := 0 < size && size &&& (size - 1) == 0

namespace Instr

/-- Loads one word of a value piece by piece, the first one into `rd` and the others on top. -/
def loadPieces (rd base : Reg) (start bytes : Nat) : List Instr :=
  (pieces bytes false).flatMap fun (offset, size) =>
    let size := MemSize.ofBytes size
    if offset = 0 then [load size false rd base (start + offset)]
    else
      [load size false scratch base (start + offset), addSubReg .add rd rd scratch (offset * 8)]

/-- Loads a value of type `ty`. If the value overwrites its own pointer, that is copied first. -/
def loadValue (types : TypeTable) (ty : TypeId) (rs : List Reg) (ptr : Reg) : List Instr :=
  let size := types.size ty
  let general :=
    let base := if rs.contains ptr then cycleTemp else ptr
    let save := if rs.contains ptr then [mov cycleTemp ptr] else []
    save ++ rs.zipIdx.flatMap fun (rd, part) =>
      loadPieces rd base (part * wordSize) (wordBytes size part)
  match rs with
  | [r] =>
    if isAccessSize size then [load (MemSize.ofBytes size) (types.isSigned ty) r ptr 0] else general
  | [lo, hi] => if size = 2 * wordSize then [ldp lo hi ptr 0] else general
  | _ => general

def storePieces (rs base : Reg) (start bytes : Nat) : List Instr :=
  (pieces bytes false).flatMap fun (offset, size) =>
    let size := MemSize.ofBytes size
    if offset = 0 then [store size rs base (start + offset)]
    else [bitfield .ubfm scratch rs (offset * 8) 63, store size scratch base (start + offset)]

def storeValue (size : Nat) (rs : List Reg) (ptr : Reg) : List Instr :=
  let general := rs.zipIdx.flatMap fun (r, part) =>
    storePieces r ptr (part * wordSize) (wordBytes size part)
  match rs with
  | [r] => if isAccessSize size then [store (MemSize.ofBytes size) r ptr 0] else general
  | [lo, hi] => if size = 2 * wordSize then [stp lo hi ptr 0] else general
  | _ => general

def clearBytes (bytes : Nat) (ptr : Reg) : List Instr :=
  (pieces bytes true).map fun (offset, size) =>
    if size = 16 then stp Reg.xzr Reg.xzr ptr offset
    else store (MemSize.ofBytes size) Reg.xzr ptr offset

/-- Copies an area that is the same as the other one or apart from it. -/
def copyBytes (bytes : Nat) (target source : Reg) : List Instr :=
  (pieces bytes true).flatMap fun (offset, size) =>
    if size = 16 then
      [ldp scratch cycleTemp source offset, stp scratch cycleTemp target offset]
    else
      let size := MemSize.ofBytes size
      [load size false scratch source offset, store size scratch target offset]

end Instr

namespace Frame

def loadSlot (f : Frame) (r : Reg) (slot : StackSlot) : Instr :=
  Instr.ldr r (f.address slot).1 (f.address slot).2

def storeSlot (f : Frame) (r : Reg) (slot : StackSlot) : Instr :=
  Instr.str r (f.address slot).1 (f.address slot).2

/-- Copies one word; there is no way to write a constant. -/
def moveWord (f : Frame) : WordLoc → WordLoc → Option (List Instr)
  | .reg a, .reg b => some (if a = b then [] else [Instr.mov b a])
  | .stack s, .reg b => some [f.loadSlot b s]
  | .imm k, .reg b => some (Instr.movInt b k)
  | .reg a, .stack t => some [f.storeSlot a t]
  | .stack s, .stack t => some (if s = t then [] else [f.loadSlot scratch s, f.storeSlot scratch t])
  | .imm k, .stack t =>
    some (if k = 0 then [f.storeSlot Reg.xzr t]
      else Instr.movInt scratch k ++ [f.storeSlot scratch t])
  | _, .imm _ => none

def saveRecord : List Instr :=
  [.loadStorePair false .preIndex Reg.fp Reg.lr Reg.sp (-(frameRecordSize : Int)),
    .mov Reg.fp Reg.sp]

def leave (f : Frame) : List Instr :=
  (if f.hasRecord then
    (if 0 < f.bodySize then [Instr.mov Reg.sp Reg.fp] else []) ++
      [.loadStorePair true .postIndex Reg.fp Reg.lr Reg.sp frameRecordSize]
  else []) ++ [.retLink]

end Frame

end SsaCodegen
