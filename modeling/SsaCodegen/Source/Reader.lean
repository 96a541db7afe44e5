import SsaCodegen.Error

/-!
Reading functions from source text. Names of nodes are known in their block only; blocks may be
mentioned before their label. A comment runs from a semicolon to the end of its line.
-/

namespace SsaCodegen.Source

open Text

open Ir (Builder NodeId BlockId LocalId)

/-- Drops blanks and comments, and line feeds if `newlines`; counts the line feeds dropped. -/
def skipBlanks (newlines inComment : Bool) : List Char → Nat → List Char × Nat
  | [], line => ([], line)
  | c :: cs, line =>
    if c = '\n' then
      if newlines then skipBlanks newlines false cs (line + 1) else (c :: cs, line)
    else if inComment || c = ';' then skipBlanks newlines true cs line
    else if isBlank c then skipBlanks newlines false cs line
    else (c :: cs, line)

def isNameChar (c : Char) : Bool := isAlphanumeric c || c = '_' || c = '.' || c = '$'

def isNameStart (c : Char) : Bool := isAlphabetic c || c = '_'

def isLiteralChar (c : Char) : Bool := c.isAlphanum || c = '_'

def readMagnitude (digits : List Char) : Except NumeralFault Nat :=
  match digits with
  | '0' :: 'x' :: rest => readUnsigned 16 0x10000000000000000 rest
  | '0' :: 'X' :: rest => readUnsigned 16 0x10000000000000000 rest
  | _ => readUnsigned 10 0x10000000000000000 digits

def literalValue (negative : Bool) (magnitude : Nat) : Int :=
  (if negative then -(magnitude : Int) else magnitude).bmod 0x10000000000000000

structure State where
  rest : List Char
  line : Nat
  types : TypeTable
  /-- The function being read; empty between functions. -/
  func : String
  builder : Builder
  /-- The blocks whose label has been read. -/
  labelled : List BlockId
  values : List (String × NodeId)

abbrev Reader := StateT State (Except CompileError)

def fail {α : Type} (fault : Fault) : Reader α := fun s =>
  .error (.invalidIr (if s.func.isEmpty then "<module>" else s.func) (.source s.line fault))

def skip (newlines : Bool) : Reader Unit := modify fun s =>
  let (rest, line) := skipBlanks newlines false s.rest s.line
  { s with rest, line }

def current : Reader (Option Char) := return (← get).rest.head?

def advance : Reader Unit := modify fun s => { s with rest := s.rest.drop 1 }

def peek : Reader (Option Char) := do
  skip true
  current

def accept (c : Char) : Reader Bool := do
  if (← current) == some c then
    advance
    return true
  else return false

def tryRead (c : Char) : Reader Bool := do
  skip true
  accept c

def tryReadOnLine (c : Char) : Reader Bool := do
  skip false
  accept c

def expect (c : Char) : Reader Unit := do
  unless ← tryRead c do fail (.expectedChar c (← current))

def atLineEnd : Reader Bool := do
  skip false
  match ← current with
  | none => return true
  | some c => return c = '\n' || c = '\x7d'

def takeRun (p : Char → Bool) : Reader (List Char) := modifyGet fun s =>
  (s.rest.takeWhile p, { s with rest := s.rest.dropWhile p })

def readName : Reader String := do
  match ← takeRun isNameChar with
  | [] => fail (.expectedName (← current))
  | cs => return String.ofList cs

def readIdentifier : Reader String := do
  match ← peek with
  | some c => if isNameStart c then readName else fail (.expectedIdentifier (some c))
  | none => fail (.expectedIdentifier none)

def readValueName : Reader String := do
  expect '%'
  readName

def readSymbol : Reader String := do
  expect '@'
  readName

def readInteger : Reader Int := do
  let negative ← tryRead '-'
  skip false
  let digits := (← takeRun isLiteralChar).filter (· ≠ '_')
  match readMagnitude digits with
  | .ok magnitude => return literalValue negative magnitude
  | .error cause => fail (.badInteger (String.ofList digits) cause)

def readIndex : Reader Nat := do
  let value ← readInteger
  if 0 ≤ value ∧ value < 0x100000000 then return value.toNat else fail (.badIndex value)

mutual

/-- Reads a type; nested types use up `fuel`. -/
def readTypeWithin : Nat → Reader TypeId
  | 0 => fail .endOfInput
  | fuel + 1 => do
    if ← tryRead '\x7b' then
      let fields ← readTypesWithin fuel '\x7d' []
      modifyGet fun s =>
        let (ty, types) := s.types.internStruct fields
        (ty, { s with types })
    else
      let name ← readIdentifier
      match TypeTable.builtin? name with
      | some ty => return ty
      | none => fail (.unknownType name)

/-- Reads types up to the closing character, after those in `before`. -/
def readTypesWithin : Nat → Char → List TypeId → Reader (List TypeId)
  | 0, _, _ => fail .endOfInput
  | fuel + 1, close, before => do
    if ← tryRead close then return before
    unless before.isEmpty do expect ','
    let ty ← readTypeWithin fuel
    readTypesWithin fuel close (before ++ [ty])

end

def typeFuel : Reader Nat := return 2 * (← get).rest.length + 2

def readType : Reader TypeId := do readTypeWithin (← typeFuel)

def readTypes (close : Char) : Reader (List TypeId) := do readTypesWithin (← typeFuel) close []

def build {α : Type} (f : Builder → α × Builder) : Reader α := modifyGet fun s =>
  let (a, builder) := f s.builder
  (a, { s with builder })

def blockRef (name : String) : Reader BlockId := do
  match (← get).builder.func.blocks.findIdx? (·.name == name) with
  | some b => return b
  | none => build (·.addBlock name)

def operand : Reader NodeId := do
  let name ← readValueName
  match (← get).values.lookup name with
  | some n => return n
  | none => fail (.undefinedValue name)

def localRef : Reader LocalId := do
  let name ← readIdentifier
  match (← get).builder.func.locals.findIdx? (·.name == name) with
  | some l => return l
  | none => fail (.undeclaredLocal name)

def operandPair : Reader (NodeId × NodeId) := do
  let a ← operand
  expect ','
  return (a, ← operand)

/-- Further operands on the same line, each after a comma. -/
def moreOperands : Nat → List NodeId → Reader (List NodeId)
  | 0, before => return before
  | fuel + 1, before => do
    if ← tryReadOnLine ',' then
      let n ← operand
      moreOperands fuel (before ++ [n])
    else return before

def tryEllipsis : Reader Bool := do
  if ← tryRead '.' then
    expect '.'
    expect '.'
    return true
  else return false

/-- The arguments of a call up to the closing parenthesis, and how many come before the dots. -/
def callArgs : Nat → List NodeId → Option Nat → Reader (List NodeId × Option Nat)
  | 0, _, _ => fail .endOfInput
  | fuel + 1, before, fixed => do
    let mut fixed := fixed
    if ← tryEllipsis then
      if fixed.isSome then fail .ellipsisTwice
      fixed := some before.length
      if ← tryRead ')' then return (before, fixed)
    let args := before ++ [← operand]
    if ← tryRead ')' then return (args, fixed)
    expect ','
    callArgs fuel args fixed

/-- Reads a call after its keyword: an optional type, the callee and the arguments. -/
def readCall : Reader NodeId := do
  let ty ← if (← peek) == some '@' then pure TypeId.void else readType
  let callee ← readSymbol
  expect '('
  if ← tryRead ')' then build (·.call ty callee [] 0)
  else
    let (args, fixed) ← callArgs ((← get).rest.length + 1) [] none
    build (·.call ty callee args (fixed.getD args.length))

def readInstruction (op : String) : Reader NodeId := do
  match Ir.BinOp.ofName? op with
  | some bin =>
    let (a, b) ← operandPair
    build (·.binary bin a b)
  | none =>
    match op with
    | "param" =>
      let index ← readIndex
      if (← get).builder.func.params.length ≤ index then fail (.noParameter index)
      build (·.param index)
    | "const" =>
      let ty ← readType
      let value ← readInteger
      build (·.const ty value)
    | "neg" => do
      let a ← operand
      build (·.unary .neg a)
    | "not" => do
      let a ← operand
      build (·.unary .not a)
    | "cmp" =>
      let name ← readIdentifier
      match Relation.ofName? name with
      | none => fail (.unknownRelation name)
      | some r =>
        let (a, b) ← operandPair
        build (·.cmp r a b)
    | "sext" => readConversion .signExt
    | "zext" => readConversion .zeroExt
    | "trunc" => readConversion .trunc
    | "load.local" =>
      let l ← localRef
      build (·.loadLocal l)
    | "store.local" =>
      let l ← localRef
      expect ','
      let value ← operand
      build (·.storeLocal l value)
    | "addr" =>
      let l ← localRef
      build (·.addrOf l)
    | "load" =>
      let ty ← readType
      let ptr ← operand
      build (·.load ty ptr)
    | "store" =>
      let (ptr, value) ← operandPair
      build (·.store ptr value)
    | "offset" =>
      let ptr ← operand
      expect ','
      let bytes ← readInteger
      build (·.offset ptr bytes)
    | "global" =>
      let name ← readSymbol
      build (·.global name)
    | "call" => readCall
    | "pair" =>
      let ty ← readType
      let first ← operand
      let fields ← moreOperands (← get).rest.length [first]
      build (·.aggregate ty fields)
    | "extract" =>
      let value ← operand
      expect ','
      let index ← readIndex
      let types := (← get).types
      build (·.extract types value index)
    | "zero" =>
      let ptr ← operand
      expect ','
      let ty ← readType
      build (·.zero ptr ty)
    | "copy" =>
      let a ← operand
      build (·.copy a)
    | _ => fail (.unknownInstruction op)
where
  readConversion (c : Ir.Conv) : Reader NodeId := do
    let ty ← readType
    let a ← operand
    build (·.convert c ty a)

def terminate (t : Ir.Terminator) : Reader Unit := build fun b => ((), b.terminate t)

/-- Reads a statement that starts with `word`; tells whether it ends its block. -/
def readStatement (word : String) : Reader Bool := do
  match word with
  | "jump" =>
    let target ← blockRef (← readIdentifier)
    terminate (.jump target)
    return true
  | "br" =>
    let cond ← operand
    expect ','
    let yes ← readIdentifier
    expect ','
    let no ← readIdentifier
    let yes ← blockRef yes
    let no ← blockRef no
    terminate (.branch cond yes no)
    return true
  | "ret" =>
    let value ← if ← atLineEnd then pure none else some <$> operand
    terminate (.ret value)
    return true
  | _ =>
    let _ ← readInstruction word
    return false

def readLocal : Reader Unit := do
  let name ← readIdentifier
  expect ':'
  let ty ← readType
  let known := (← get).builder.func.locals.any (·.name == name)
  let _ ← build (·.addLocal name ty)
  if known then fail (.localDeclaredTwice name)

def readLabel (name : String) : Reader Unit := do
  advance
  let b ← blockRef name
  if b ∈ (← get).labelled then fail (.blockDefinedTwice name)
  modify fun s =>
    { s with labelled := b :: s.labelled, values := [], builder := s.builder.switchTo b }

def readDefinition : Reader Unit := do
  let name ← readValueName
  expect '='
  let n ← readInstruction (← readIdentifier)
  if ((← get).values.lookup name).isSome then fail (.valueDefinedTwice name)
  modify fun s => { s with values := (name, n) :: s.values }

def endStatement : Reader Unit := do
  unless ← atLineEnd do fail (.unexpected (← current))

/-- Reads the lines of a function up to its closing brace. `inBlock` tells whether a block is open
that has not ended yet. Every line takes a character, so `fuel` need not exceed the text. -/
def readBody : Nat → Bool → Reader Unit
  | 0, _ => fail .endOfInput
  | fuel + 1, inBlock => do
    match ← peek with
    | none => fail .endOfInput
    | some c =>
      if c = '\x7d' then advance
      else if c = '%' then
        unless inBlock do fail .instructionOutsideBlock
        readDefinition
        endStatement
        readBody fuel inBlock
      else
        let word ← readIdentifier
        if word = "local" then
          readLocal
          endStatement
          readBody fuel inBlock
        else if (← current) == some ':' then
          readLabel word
          readBody fuel true
        else
          unless inBlock do fail (.wordOutsideBlock word)
          let ended ← readStatement word
          endStatement
          readBody fuel !ended

def unlabelled? (s : State) : Option String :=
  (s.builder.func.blocks.toList.zipIdx.find? fun (_, b) => !s.labelled.contains b).map (·.1.name)

def readFunction : Reader Ir.Func := do
  skip true
  let name ← readName
  modify ({ · with func := name, labelled := [], values := [] })
  expect '('
  let params ← readTypes ')'
  let result ←
    if ← tryRead '-' then
      expect '>'
      readType
    else pure TypeId.void
  expect '\x7b'
  modify ({ · with builder := .new name params result })
  readBody ((← get).rest.length + 1) false
  let s ← get
  if s.builder.func.blocks.isEmpty then fail .noBlocks
  match unlabelled? s with
  | some b => fail (.undefinedBlock b)
  | none =>
    set { s with func := "" }
    return s.builder.func

/-- Reads functions up to the end of the text, after those in `before`. -/
def readFunctions : Nat → List Ir.Func → Reader (List Ir.Func)
  | 0, _ => fail .endOfInput
  | fuel + 1, before => do
    match ← peek with
    | none => return before
    | some _ =>
      if (← readIdentifier) ≠ "func" then fail .expectedFunc
      let f ← readFunction
      if before.any (·.name == f.name) then fail (.duplicateFunction f.name)
      readFunctions fuel (before ++ [f])

/-- The functions of a source text, and the types with those that the text mentions. -/
def parse (text : String) (types : TypeTable) : Except CompileError (List Ir.Func × TypeTable) := do
  let rest := text.toList
  let start : State :=
    { rest, line := 1, types, func := "", builder := .new "" [] TypeId.void, labelled := [],
      values := [] }
  let (funcs, s) ← (readFunctions (rest.length + 1) []).run start
  return (funcs, s.types)

end SsaCodegen.Source
