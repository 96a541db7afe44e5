import SsaCodegen.Machine.Assembly

/-!
Compiled functions and the object file made of them.
-/

namespace SsaCodegen

inductive RelocKind where
  /-- The displacement of a call. -/
  | call
  /-- The page of an address. -/
  | page
  /-- The place of an address in its page. -/
  | pageOffset
  deriving DecidableEq, Repr

def RelocKind.number : RelocKind → Nat
  | call => 283 | page => 275 | pageOffset => 277

structure Reloc where
  /-- Bytes from the start of the function. -/
  offset : Nat
  symbol : String
  kind : RelocKind
  addend : Int
  deriving DecidableEq

inductive Visibility where
  | global
  | hidden
  deriving DecidableEq, Repr

structure SymbolEntry where
  name : String
  /-- Bytes from the start of the function's code. -/
  offset : Nat
  size : Nat
  visibility : Visibility
  deriving DecidableEq

structure CompiledFunction where
  name : String
  code : List UInt8
  relocs : List Reloc
  symbol : SymbolEntry
  /-- Bytes that the function moves the stack pointer by. -/
  frameSize : Nat
  deriving DecidableEq

def CompiledFunction.words (f : CompiledFunction) : List Word :=
  (wordsOfBytes f.code).take (f.code.length / 4)

/-- A symbol of an object file. An undefined one has no address, size or known kind. -/
structure ObjectSymbol where
  name : String
  address : Nat
  size : Nat
  global : Bool
  defined : Bool
  deriving DecidableEq

structure ObjectReloc where
  offset : Nat
  symbol : String
  kind : RelocKind
  addend : Int
  deriving DecidableEq

/-- An object file. Symbols that stay inside the file come before the others. -/
structure ObjectFile where
  code : List UInt8
  align : Nat
  relocs : List ObjectReloc
  symbols : List ObjectSymbol
  deriving DecidableEq

namespace ObjectFile

def appendCode (code : List UInt8) (f : CompiledFunction) : List UInt8 :=
  code ++ List.replicate ((code.length + 3) / 4 * 4 - code.length) 0 ++ f.code

def starts (size : Nat) : List CompiledFunction → List Nat
  | [] => []
  | f :: fs =>
    let start := (size + 3) / 4 * 4
    start :: starts (start + f.code.length) fs

def define (symbols : List ObjectSymbol) (s : ObjectSymbol) : List ObjectSymbol :=
  if symbols.any (·.name == s.name) then
    symbols.map fun t => if t.name == s.name then s else t
  else symbols ++ [s]

def refer (symbols : List ObjectSymbol) (name : String) : List ObjectSymbol :=
  if symbols.any (·.name == name) then symbols
  else symbols ++ [{ name, address := 0, size := 0, global := true, defined := false }]

def functionSymbol (f : CompiledFunction) (start : Nat) : ObjectSymbol :=
  { name := f.symbol.name
    address := start + f.symbol.offset
    size := f.symbol.size
    global := f.symbol.visibility == .global
    defined := true }

def functionRelocs (f : CompiledFunction) (start : Nat) : List ObjectReloc :=
  f.relocs.map fun r => ⟨start + r.offset, r.symbol, r.kind, r.addend⟩

def build (fs : List CompiledFunction) : ObjectFile :=
  let placed := fs.zip (starts 0 fs)
  let relocs := placed.flatMap fun (f, start) => functionRelocs f start
  let defined := placed.foldl (fun ss (f, start) => define ss (functionSymbol f start)) []
  let symbols := (relocs.map ObjectReloc.symbol).foldl refer defined
  { code := fs.foldl appendCode []
    align := if fs.isEmpty then 1 else 4
    relocs
    symbols := symbols.filter (!·.global) ++ symbols.filter (·.global) }

end ObjectFile

end SsaCodegen
