import SsaCodegen.Location
import SsaCodegen.Types

/-!
The stack frame. From the stack pointer upwards it holds the outgoing arguments, the locals and the
spill area, then the frame record; the incoming arguments lie above.
-/

namespace SsaCodegen

def stackAlign : Nat := 16

def frameRecordSize : Nat := 16

structure Frame where
  outgoingSize : Nat
  localOffsets : List Nat
  localsSize : Nat
  spillSize : Nat
  /-- Bytes below the frame record. -/
  bodySize : Nat
  hasRecord : Bool
  deriving DecidableEq

namespace Frame

/-- Places locals, given by size and alignment, one after the other from `start`: their offsets and
the end of the last one. An alignment of zero counts as one. -/
def placeLocals (start : Nat) : List (Nat × Nat) → List Nat × Nat
  | [] => ([], start)
  | (size, align) :: rest =>
    let offset := alignTo start (max align 1)
    let (offsets, stop) := placeLocals (offset + size) rest
    (offset :: offsets, stop)

/-- The frame for the given locals and areas. A function that neither calls, nor needs a body, nor
reads stack arguments has no frame record. -/
def layout (locals : List (Nat × Nat)) (spillSize outgoing : Nat)
    (makesCalls usesIncoming : Bool) : Frame :=
  let (localOffsets, stop) := placeLocals 0 locals
  let localsSize := alignTo stop wordSize
  let outgoingSize := alignTo outgoing stackAlign
  let bodySize := alignTo (outgoingSize + localsSize + spillSize) stackAlign
  { outgoingSize, localOffsets, localsSize, spillSize, bodySize
    hasRecord := makesCalls || 0 < bodySize || usesIncoming }

def size (f : Frame) : Nat := f.bodySize + if f.hasRecord then frameRecordSize else 0

def address (f : Frame) : StackSlot → Reg × Nat
  | .outgoing o => (Reg.sp, o)
  | .spill o => (Reg.sp, f.outgoingSize + f.localsSize + o)
  | .incoming o => (Reg.fp, frameRecordSize + o)

def localAddress (f : Frame) (index : Nat) : Reg × Nat :=
  (Reg.sp, f.outgoingSize + f.localOffsets.getD index 0)

end Frame

end SsaCodegen
