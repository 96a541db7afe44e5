import SsaCodegen.Error
import SsaCodegen.Ssa.Liveness

/-!
The check of a register allocation: values that are needed at the same time share no register, and
no register is needed across a call.
-/

namespace SsaCodegen.Func

def regsOf (f : Func) (v : ValueId) : List Reg := ((f.value v).loc.map ValueLoc.regs).getD []

abbrev Conflict := ValueId × ValueId × Reg

/-- The first register in a list that an earlier entry, or one in `owners`, holds as well. -/
def firstShared? : List (Reg × ValueId) → List (Reg × ValueId) → Option Conflict
  | _, [] => none
  | owners, (r, v) :: rest =>
    match owners.lookup r with
    | some other => some (other, v, r)
    | none => firstShared? ((r, v) :: owners) rest

def conflictAmong? (f : Func) (needed : List ValueId) : Option Conflict :=
  firstShared? [] (needed.flatMap fun v => (f.regsOf v).map (·, v))

def conflictWith? (f : Func) (v : ValueId) (needed : List ValueId) : Option Conflict :=
  needed.findSome? fun w =>
    ((f.regsOf v).find? (f.regsOf w).contains).map (v, w, ·)

def conflictAcross? (f : Func) (v : ValueId) (needed : List ValueId) : Option Conflict :=
  if (f.value v).op = .call then
    needed.findSome? fun w => (f.regsOf w).head?.map (w, v, ·)
  else none

/-- Goes back over values, the last one first; `needed` are those needed after all of them. -/
def conflictBefore? (f : Func) : List ValueId → ValueSet → Option Conflict
  | [], _ => none
  | v :: rest, needed =>
    let others := needed.erase v
    (f.conflictWith? v others.toList).orElse fun _ =>
      (f.conflictAcross? v others.toList).orElse fun _ =>
        f.conflictBefore? rest (if f.isPhi v then others else others.insertAll (f.dataUses v))

def conflictIn? (f : Func) (live : Liveness) (b : BlockId) : Option Conflict :=
  let atEnd := (live.liveOut b).insertAll (f.controlUses b)
  (f.conflictAmong? atEnd.toList).orElse fun _ =>
    f.conflictBefore? (f.block b).values.reverse atEnd

def checkAllocation (f : Func) : Except CompileError Unit :=
  let live := Liveness.compute f
  match f.reversePostorder.findSome? (f.conflictIn? live) with
  | some (a, b, r) => throw (.registerConflict f.name a b r)
  | none => pure ()

end SsaCodegen.Func
