import SsaCodegen.Compiler
import SsaCodegen.Source.Reader

/-!
The command line: its arguments, and what a run prints and leaves behind. Reading and writing files
is not done here.
-/

namespace SsaCodegen.CommandLine

open Text

structure Arguments where
  input : String
  /-- The object file; by default it is named after the input. -/
  output : Option String
  registers : Nat
  verify : Bool
  dumpSsa : Bool
  disassembly : Bool

def registers? (n : Int) : Option Nat :=
  if (minAllocatable : Int) ≤ n ∧ n ≤ maxAllocatable then some n.toNat else none

/-- Arguments as far as they have been read. -/
structure Draft where
  input : Option String
  output : Option String
  registers : Option Nat
  noVerify : Bool
  dumpSsa : Bool
  disassembly : Bool

inductive Usage where
  | wrong
  | help
  deriving DecidableEq

/-- A decimal number with an optional sign. -/
def readNumber? (text : String) : Option Int :=
  let read (cs : List Char) : Option Nat := (readUnsigned 10 0x8000000000000000 cs).toOption
  match text.toList with
  | '-' :: cs => (read cs).map fun n => -(n : Int)
  | '+' :: cs => (read cs).map Int.ofNat
  | cs => (read cs).map Int.ofNat

def Draft.setRegisters (d : Draft) (text : String) : Except Usage Draft :=
  match d.registers, (readNumber? text).bind registers? with
  | none, some n => .ok { d with registers := some n }
  | _, _ => .error .wrong

def Draft.setOutput (d : Draft) (path : String) : Except Usage Draft :=
  if d.output.isNone && !path.isEmpty then .ok { d with output := some path } else .error .wrong

def Draft.setInput (d : Draft) (path : String) : Except Usage Draft :=
  if d.input.isNone && !path.isEmpty then .ok { d with input := some path } else .error .wrong

def isOption (text : String) : Bool :=
  match text.toList with
  | '-' :: _ :: _ => true
  | _ => false

def after? (start text : String) : Option String :=
  if start.toList.isPrefixOf text.toList then some (String.ofList (text.toList.drop start.length))
  else none

/-- An argument that needs no other: a flag, an option with its value attached, or the input. -/
def Draft.single (d : Draft) (text : String) : Except Usage Draft :=
  if text = "-h" ∨ text = "--help" then .error .help
  else if text = "--no-verify" then
    if d.noVerify then .error .wrong else .ok { d with noVerify := true }
  else if text = "--dump-ssa" then
    if d.dumpSsa then .error .wrong else .ok { d with dumpSsa := true }
  else if text = "--disasm" then
    if d.disassembly then .error .wrong else .ok { d with disassembly := true }
  else
    match after? "--regs=" text, after? "--output=" text, after? "-o=" text, after? "-o" text with
    | some value, _, _, _ => d.setRegisters value
    | _, some path, _, _ => d.setOutput path
    | _, _, some path, _ => d.setOutput path
    | _, _, _, some path => d.setOutput path
    | _, _, _, _ => if isOption text then .error .wrong else d.setInput text

/-- Reads arguments in order. An option takes the next argument as its value; after two dashes only
the input follows. -/
def Draft.read : Draft → List String → Except Usage Draft
  | d, [] => .ok d
  | d, [text] =>
    if text = "--" then .ok d
    else if text = "--regs" ∨ text = "--output" ∨ text = "-o" then .error .wrong
    else d.single text
  | d, text :: value :: rest =>
    if text = "--" then
      if rest.isEmpty then d.setInput value else .error .wrong
    else if text = "--regs" then
      if isOption value then .error .wrong else d.setRegisters value >>= fun d => d.read rest
    else if text = "--output" ∨ text = "-o" then
      if isOption value then .error .wrong else d.setOutput value >>= fun d => d.read rest
    else d.single text >>= fun d => d.read (value :: rest)

def Arguments.parse (args : List String) : Except Usage Arguments := do
  let d ← Draft.read ⟨none, none, none, false, false, false⟩ args
  match d.input with
  | none => .error .wrong
  | some input =>
    return { input, output := d.output, registers := d.registers.getD maxAllocatable
             verify := !d.noVerify, dumpSsa := d.dumpSsa, disassembly := d.disassembly }

def replaceExtension (name extension : List Char) : List Char :=
  let ending := name.reverse.takeWhile (· ≠ '.')
  let stem := name.take (name.length - ending.length - 1)
  (if ending.length < name.length ∧ !stem.isEmpty then stem else name) ++ '.' :: extension

def Arguments.outputPath (a : Arguments) : String :=
  match a.output with
  | some path => path
  | none =>
    let path := a.input.toList
    let name := (path.reverse.takeWhile (· ≠ '/')).reverse
    String.ofList (path.take (path.length - name.length) ++ replaceExtension name ['o'])

structure Report where
  exit : Nat
  stdout : List String
  stderr : List String
  object : Option ObjectFile

def Report.usage : Report := ⟨2, [], [], none⟩

def Report.unreadable : Report := ⟨1, [], [], none⟩

def Report.unwritable (r : Report) : Report :=
  if r.exit = 0 then { r with exit := 1, object := none } else r

def dumpLines (types : TypeTable) (o : Outcome) : List String :=
  o.forms.flatMap fun f => f.dump types ++ [""]

def codeLines (f : CompiledFunction) : List String :=
  (f.name ++ ":") :: (disassemble f.code).map ("  " ++ ·)

def failure (stdout : List String) (e : CompileError) : Report :=
  ⟨1, stdout, ["a64c: " ++ e.message], none⟩

def run (a : Arguments) (source : String) : Report :=
  match Source.parse source TypeTable.builtins with
  | .error e => failure [] e
  | .ok (irs, types) =>
    let m := compileModule ⟨a.registers, a.verify⟩ types irs
    let dumps := if a.dumpSsa then m.outcomes.flatMap (dumpLines types) else []
    match m.result with
    | .error e => failure dumps e
    | .ok compiled =>
      let code := if a.disassembly then compiled.flatMap codeLines else []
      ⟨0, dumps ++ code, [], some (ObjectFile.build compiled)⟩

def helpLines : List String :=
  ["Compile textual IR to an AArch64 object file", "",
    "Usage: a64c [OPTIONS] <INPUT>", "", "Options:",
    "  -o, --output <OUTPUT>  Output object file (defaults to the input with an `.o` extension)",
    "      --regs <REGS>      Number of allocatable registers, 4 to 16 [default: 16]",
    "      --no-verify        Skip the SSA and allocation checks",
    "      --dump-ssa         Print the SSA form before and after register allocation",
    "      --disasm           Print the generated instructions of every function",
    "  -h, --help             Print help"]

end SsaCodegen.CommandLine
