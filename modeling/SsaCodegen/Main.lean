import SsaCodegen.CommandLine
import SsaCodegen.Object.Elf

/-!
The program: reads a source file, compiles it, and writes an object file.
-/

namespace SsaCodegen.CommandLine

def printReport (r : Report) : IO Unit := do
  r.stdout.forM fun line => IO.println line
  r.stderr.forM fun line => IO.eprintln line

def readSource? (path : String) : IO (Option String) := do
  try
    return some (← IO.FS.readFile path)
  catch _ => return none

def writeObject (path : String) (o : ObjectFile) : IO Bool := do
  try
    IO.FS.writeBinFile path (ByteArray.mk o.toBytes.toArray)
    return true
  catch _ => return false

def runWith (a : Arguments) : IO Report := do
  match ← readSource? a.input with
  | none => return .unreadable
  | some source =>
    let r := run a source
    printReport r
    match r.object with
    | none => return r
    | some o => if ← writeObject a.outputPath o then return r else return r.unwritable

/-- Runs with any arguments; the result is the exit code. -/
def start (args : List String) : IO UInt32 := do
  match Arguments.parse args with
  | .ok a => return UInt32.ofNat (← runWith a).exit
  | .error .help =>
    helpLines.forM fun line => IO.println line
    return 0
  | .error .wrong =>
    IO.eprintln ("usage: a64c <input> [-o <output>] [--regs <4..16>] [--no-verify] [--dump-ssa] " ++
      "[--disasm]")
    return UInt32.ofNat Report.usage.exit

end SsaCodegen.CommandLine

def main (args : List String) : IO UInt32 := SsaCodegen.CommandLine.start args
