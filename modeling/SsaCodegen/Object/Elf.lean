import SsaCodegen.Object

/-!
Object files as bytes: a relocatable ELF file of 64 bits for the A64 instruction set. All numbers
are written with the lowest byte first.
-/

namespace SsaCodegen

def littleEndian (count value : Nat) : List UInt8 :=
  (List.range count).map fun i => UInt8.ofNat (value / Nat.pow 256 i % 256)

def nameBytes (name : String) : List UInt8 := name.toUTF8.toList ++ [0]

/-- A table of names, and where each name starts in it. The table starts with the empty name. -/
def nameTable (names : List String) : List UInt8 × List Nat :=
  names.foldl (fun (bytes, starts) name => (bytes ++ nameBytes name, starts ++ [bytes.length]))
    ([0], [])

namespace ObjectFile

structure Section where
  name : String
  kind : Nat
  flags : Nat
  link : Nat
  info : Nat
  align : Nat
  entrySize : Nat
  data : List UInt8

def codeSection : Nat := 1

def symbolBytes (s : ObjectSymbol) (name : Nat) : List UInt8 :=
  let binding := if s.global then 1 else 0
  let kind := if s.defined then 2 else 0
  littleEndian 4 name ++ [UInt8.ofNat (binding * 16 + kind), 0] ++
    littleEndian 2 (if s.defined then codeSection else 0) ++
    littleEndian 8 s.address ++ littleEndian 8 s.size

def relocBytes (symbols : List ObjectSymbol) (r : ObjectReloc) : List UInt8 :=
  let index := symbols.findIdx (·.name == r.symbol) + 1
  littleEndian 8 r.offset ++ littleEndian 4 r.kind.number ++ littleEndian 4 index ++
    littleEndian 8 (r.addend % 0x10000000000000000).toNat

def sections (o : ObjectFile) : List Section :=
  let (names, starts) := nameTable (o.symbols.map ObjectSymbol.name)
  let symbols := List.replicate 24 0 ++
    (o.symbols.zip starts).flatMap fun (s, name) => symbolBytes s name
  [⟨"", 0, 0, 0, 0, 0, 0, []⟩,
    ⟨".text", 1, 6, 0, 0, o.align, 0, o.code⟩,
    ⟨".rela.text", 4, 0x40, 3, codeSection, 8, 24, o.relocs.flatMap (relocBytes o.symbols)⟩,
    ⟨".symtab", 2, 0, 4, (o.symbols.filter (!·.global)).length + 1, 8, 24, symbols⟩,
    ⟨".strtab", 3, 0, 0, 0, 1, 0, names⟩]

def headerSize : Nat := 64

def placeSections (sections : List Section) : List UInt8 × List Nat :=
  sections.foldl (fun (bytes, starts) s =>
    let start := (headerSize + bytes.length + 7) / 8 * 8
    (bytes ++ List.replicate (start - headerSize - bytes.length) 0 ++ s.data, starts ++ [start]))
    ([], [])

def sectionBytes (s : Section) (name offset : Nat) : List UInt8 :=
  littleEndian 4 name ++ littleEndian 4 s.kind ++ littleEndian 8 s.flags ++ littleEndian 8 0 ++
    littleEndian 8 offset ++ littleEndian 8 s.data.length ++ littleEndian 4 s.link ++
    littleEndian 4 s.info ++ littleEndian 8 s.align ++ littleEndian 8 s.entrySize

/-- The header: a relocatable file for machine 183, with the section table at `table`. -/
def headerBytes (table count : Nat) : List UInt8 :=
  [0x7f, 0x45, 0x4c, 0x46, 2, 1, 1] ++ List.replicate 9 0 ++
    littleEndian 2 1 ++ littleEndian 2 183 ++ littleEndian 4 1 ++ littleEndian 8 0 ++
    littleEndian 8 0 ++ littleEndian 8 table ++ littleEndian 4 0 ++ littleEndian 2 headerSize ++
    littleEndian 2 0 ++ littleEndian 2 0 ++ littleEndian 2 64 ++ littleEndian 2 count ++
    littleEndian 2 (count - 1)

def toBytes (o : ObjectFile) : List UInt8 :=
  let sections := o.sections
  let (names, starts) := nameTable ((sections.map Section.name) ++ [".shstrtab"])
  let sections := sections ++ [⟨".shstrtab", 3, 0, 0, 0, 1, 0, names⟩]
  let (body, offsets) := placeSections sections
  let padding := List.replicate ((body.length + 7) / 8 * 8 - body.length) 0
  let entries := (sections.zip (starts.zip offsets)).flatMap fun (s, name, offset) =>
    sectionBytes s name offset
  headerBytes (headerSize + body.length + padding.length) sections.length ++ body ++ padding ++
    entries

end ObjectFile

end SsaCodegen
