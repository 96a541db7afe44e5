/-!
Numbers as text: decimal, signed and hexadecimal numerals, padding, and the reading of unsigned
literals in a given base.
-/

namespace SsaCodegen.Text

def decimal (n : Nat) : String :=
  String.ofList (Nat.toDigits 10 n)

def integer : Int → String
  | .ofNat n => decimal n
  | .negSucc n => "-" ++ decimal (n + 1)

def signed : Int → String
  | .ofNat n => "+" ++ decimal n
  | .negSucc n => "-" ++ decimal (n + 1)

def hex (n : Nat) : String :=
  String.ofList (Nat.toDigits 16 n)

def padLeft (fill : Char) (width : Nat) (s : String) : String :=
  String.ofList (List.replicate (width - s.length) fill) ++ s

def hexWord (n : Nat) : String :=
  padLeft '0' 8 (hex n)

def hexByte (n : Nat) : String :=
  padLeft '0' 2 (hex n)

def joinWith (sep : String) : List String → String
  | [] => ""
  | [s] => s
  | s :: rest => s ++ sep ++ joinWith sep rest

inductive NumeralFault where
  | empty
  | invalidDigit
  | tooLarge
  deriving DecidableEq, Repr

def NumeralFault.message : NumeralFault → String
  | .empty => "cannot parse integer from empty string"
  | .invalidDigit => "invalid digit found in string"
  | .tooLarge => "number too large to fit in target type"

/-- The value of a digit or letter, in either case; bases up to 36. -/
def digitValue? (base : Nat) (c : Char) : Option Nat :=
  let n := c.toNat
  let v? :=
    if 0x30 ≤ n ∧ n ≤ 0x39 then some (n - 0x30)
    else if 0x61 ≤ n ∧ n ≤ 0x7a then some (n - 0x61 + 10)
    else if 0x41 ≤ n ∧ n ≤ 0x5a then some (n - 0x41 + 10)
    else none
  v?.filter (· < base)

/-- Extends `acc` digit by digit; a bad digit is reported before an overflow at the same place. -/
def readDigits (base limit : Nat) : Nat → List Char → Except NumeralFault Nat
  | acc, [] => .ok acc
  | acc, c :: cs =>
    match digitValue? base c with
    | none => .error .invalidDigit
    | some d =>
      let next := acc * base + d
      if next < limit then readDigits base limit next cs else .error .tooLarge

def readUnsigned (base limit : Nat) (cs : List Char) : Except NumeralFault Nat :=
  match cs with
  | [] => .error .empty
  | _ => readDigits base limit 0 cs

end SsaCodegen.Text
