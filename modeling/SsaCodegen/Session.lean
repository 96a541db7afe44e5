import SsaCodegen.Text.Numeral

/-!
Counters over all functions that one compiler handles.
-/

namespace SsaCodegen

open Text

structure Stats where
  functions : Nat
  codeSize : Nat
  largestName : String
  largestSize : Nat
  phisCreated : Nat
  phisRemoved : Nat
  spills : Nat
  reloads : Nat
  calls : Nat
  deriving DecidableEq

namespace Stats

def empty : Stats := ⟨0, 0, "", 0, 0, 0, 0, 0, 0⟩

instance : Inhabited Stats := ⟨empty⟩

def addFunction (s : Stats) (name : String) (size : Nat) : Stats :=
  let s := { s with functions := s.functions + 1, codeSize := s.codeSize + size }
  if s.largestSize < size then { s with largestSize := size, largestName := name } else s

def addPhis (s : Stats) (created removed : Nat) : Stats :=
  { s with phisCreated := s.phisCreated + created, phisRemoved := s.phisRemoved + removed }

def addSpillCode (s : Stats) (spills reloads : Nat) : Stats :=
  { s with spills := s.spills + spills, reloads := s.reloads + reloads }

def addCalls (s : Stats) (count : Nat) : Stats := { s with calls := s.calls + count }

/-- The counters in one line; no scratch memory is ever in use. -/
def text (s : Stats) : String :=
  let largest := if s.largestName.isEmpty then ""
    else s!"; largest {s.largestName} at {decimal s.largestSize} bytes"
  s!"{decimal s.functions} functions, {decimal s.codeSize} bytes of code, {decimal s.calls} calls"
    ++ s!"; phis {decimal (s.phisCreated - s.phisRemoved)}/{decimal s.phisRemoved} kept/removed"
    ++ s!"; {decimal s.spills} spills, {decimal s.reloads} reloads{largest}"
    ++ "; scratch peak 0 bytes"

end Stats

structure Session where
  stats : Stats
  current : Option String

namespace Session

def new : Session := ⟨.empty, none⟩

def enter (s : Session) (name : String) : Session := { s with current := some name }

def leave (s : Session) : Session := { s with current := none }

end Session

end SsaCodegen
