import SsaCodegen.Text.Numeral

/-!
The table of types. Builtin types have fixed numbers; structs are interned when they are registered.
-/

namespace SsaCodegen

open Text

def wordSize : Nat := 8

def maxRegisterSize : Nat := 2 * wordSize

/-- Clears the bits below the alignment, which is a power of two. -/
def alignTo (value align : Nat) : Nat :=
  let top := value + align - 1
  top - (top &&& (align - 1))

abbrev TypeId := Nat

namespace TypeId

def void : TypeId := 0
def bool : TypeId := 1
def i8 : TypeId := 2
def i16 : TypeId := 3
def i32 : TypeId := 4
def i64 : TypeId := 5
def u8 : TypeId := 6
def u16 : TypeId := 7
def u32 : TypeId := 8
def u64 : TypeId := 9
def ptr : TypeId := 10
def mem : TypeId := 11
def slice : TypeId := 12

def text (t : TypeId) : String := "t" ++ decimal t

end TypeId

inductive TypeKind where
  | void
  | bool
  | int (bits : Nat) (signed : Bool)
  | ptr
  | mem
  | slice
  | struct (fields : List TypeId) (offsets : List Nat)
  deriving DecidableEq

structure TypeInfo where
  kind : TypeKind
  size : Nat
  align : Nat

instance : Inhabited TypeInfo := ⟨⟨.void, 0, 1⟩⟩

/-- The types, and the number of each struct by its fields. -/
structure TypeTable where
  infos : Array TypeInfo
  structs : List (List TypeId × TypeId)

namespace TypeTable

def intInfo (bits : Nat) (signed : Bool) : TypeInfo := ⟨.int bits signed, bits / 8, bits / 8⟩

def builtins : TypeTable where
  infos := #[⟨.void, 0, 1⟩, ⟨.bool, 1, 1⟩,
    intInfo 8 true, intInfo 16 true, intInfo 32 true, intInfo 64 true,
    intInfo 8 false, intInfo 16 false, intInfo 32 false, intInfo 64 false,
    ⟨.ptr, 8, 8⟩, ⟨.mem, 0, 1⟩, ⟨.slice, 16, 8⟩]
  structs := []

instance : Inhabited TypeTable := ⟨builtins⟩

variable (t : TypeTable)

def count : Nat := t.infos.size

def isValid (ty : TypeId) : Bool := ty < t.count

def info (ty : TypeId) : TypeInfo := t.infos.getD ty default

def kind (t : TypeTable) (ty : TypeId) : TypeKind := (t.info ty).kind

def size (t : TypeTable) (ty : TypeId) : Nat := (t.info ty).size

def align (t : TypeTable) (ty : TypeId) : Nat := (t.info ty).align

def nameIn (t : TypeTable) : Nat → TypeId → String
  | 0, _ => ""
  | fuel + 1, ty =>
    match t.kind ty with
    | .void => "void"
    | .bool => "bool"
    | .int bits signed => (if signed then "i" else "u") ++ decimal bits
    | .ptr => "ptr"
    | .mem => "mem"
    | .slice => "slice"
    | .struct fields _ => "\x7b" ++ joinWith ", " (fields.map (t.nameIn fuel)) ++ "\x7d"

/-- Fields come before their struct, which bounds how deep a name goes. -/
def name (ty : TypeId) : String := t.nameIn (ty + 1) ty

/-- Places fields one after the other from `start`, each at its own alignment: their offsets and
the end of the last one. -/
def placeFields (t : TypeTable) (start : Nat) : List TypeId → List Nat × Nat
  | [] => ([], start)
  | ty :: rest =>
    let offset := alignTo start (t.align ty)
    let (offsets, stop) := t.placeFields (offset + t.size ty) rest
    (offset :: offsets, stop)

def structInfo (fields : List TypeId) : TypeInfo :=
  let (offsets, stop) := t.placeFields 0 fields
  let align := fields.foldl (fun a ty => max a (t.align ty)) 1
  { kind := .struct fields offsets
    size := alignTo stop align
    align }

def internStruct (fields : List TypeId) : TypeId × TypeTable :=
  match t.structs.lookup fields with
  | some ty => (ty, t)
  | none => (t.count, ⟨t.infos.push (t.structInfo fields), (fields, t.count) :: t.structs⟩)

def fieldCount (ty : TypeId) : Nat :=
  match t.kind ty with
  | .slice => 2
  | .struct fields _ => fields.length
  | _ => 0

def fieldOffset? (ty : TypeId) (index : Nat) : Option Nat :=
  match t.kind ty with
  | .slice => if index < 2 then some (index * wordSize) else none
  | .struct _ offsets => offsets[index]?
  | _ => none

def fieldType? (ty : TypeId) (index : Nat) : Option TypeId :=
  match t.kind ty with
  | .slice => [TypeId.ptr, TypeId.i64][index]?
  | .struct fields _ => fields[index]?
  | _ => none

/-- Machine words of a value that travels in registers, and zero for any other type. -/
def parts (ty : TypeId) : Nat :=
  match t.kind ty with
  | .void | .mem => 0
  | _ =>
    let size := t.size ty
    if size = 0 ∨ maxRegisterSize < size then 0 else (size + wordSize - 1) / wordSize

def isRegisterValue (ty : TypeId) : Bool := 0 < t.parts ty

def isMemoryAggregate (ty : TypeId) : Bool :=
  match t.kind ty with
  | .struct _ _ => maxRegisterSize < t.size ty
  | _ => false

/-- Whether every field is exactly one word of a value of at most two words. -/
def isWordPartitioned (ty : TypeId) : Bool :=
  match t.kind ty with
  | .slice => true
  | .struct fields offsets =>
    fields.length ≤ 2 &&
      (fields.zip offsets).zipIdx.all fun ((f, offset), i) =>
        t.size f == wordSize && offset == i * wordSize
  | _ => false

def isInteger (ty : TypeId) : Bool :=
  match t.kind ty with
  | .int _ _ | .bool | .ptr => true
  | _ => false

def isSigned (ty : TypeId) : Bool :=
  match t.kind ty with
  | .int _ signed => signed
  | _ => false

def bits (ty : TypeId) : Nat := t.size ty * 8

def builtin? (name : String) : Option TypeId :=
  (List.range builtins.count).find? (builtins.name · == name)

end TypeTable

end SsaCodegen
