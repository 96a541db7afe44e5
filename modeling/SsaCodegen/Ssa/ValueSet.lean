import SsaCodegen.Ssa.Op

/-!
Dense sets of values. Bit `i % 64` of word `i / 64` tells whether value `i` is a member.
-/

namespace SsaCodegen

structure ValueSet where
  words : Array (BitVec 64)

namespace ValueSet

def withCapacity (n : Nat) : ValueSet := ⟨Array.replicate ((n + 63) / 64) 0#64⟩

instance : EmptyCollection ValueSet := ⟨⟨#[]⟩⟩

instance : Inhabited ValueSet := ⟨∅⟩

variable (s : ValueSet)

def word (i : Nat) : BitVec 64 := s.words.getD i 0#64

def contains (v : ValueId) : Bool := (s.word (v / 64)).getLsbD (v % 64)

def extend (n : Nat) : ValueSet :=
  ⟨s.words ++ Array.replicate (n - s.words.size) 0#64⟩

/-- Adds a value, and tells whether it was missing. -/
def insertNew (v : ValueId) : ValueSet × Bool :=
  let s := s.extend (v / 64 + 1)
  let bit := 1#64 <<< (v % 64)
  (⟨s.words.modify (v / 64) (· ||| bit)⟩, s.word (v / 64) &&& bit == 0#64)

def insert (v : ValueId) : ValueSet := (s.insertNew v).1

def lacks (v : ValueId) : Bool := (s.insertNew v).2

def erase (v : ValueId) : ValueSet :=
  ⟨s.words.modify (v / 64) (· &&& ~~~(1#64 <<< (v % 64)))⟩

/-- Adds the members of another set, and tells whether any was missing. -/
def unionNew (s t : ValueSet) : ValueSet × Bool :=
  let s := s.extend t.words.size
  let words := s.words.mapIdx fun i w => w ||| t.word i
  (⟨words⟩, words != s.words)

def union (s t : ValueSet) : ValueSet := (s.unionNew t).1

def gains (s t : ValueSet) : Bool := (s.unionNew t).2

def diff (s t : ValueSet) : ValueSet :=
  ⟨s.words.mapIdx fun i w => w &&& ~~~(t.word i)⟩

def isEmpty : Bool := s.words.all (· == 0#64)

def sameMembers (s t : ValueSet) : Bool :=
  (List.range (max s.words.size t.words.size)).all fun i => s.word i == t.word i

def toList : List ValueId :=
  (List.range s.words.size).flatMap fun i =>
    (List.range 64).filterMap fun j => if (s.word i).getLsbD j then some (i * 64 + j) else none

def size (s : ValueSet) : Nat :=
  (List.range s.words.size).foldl (fun n i => n + (List.range 64).countP (s.word i).getLsbD) 0

def ofList (vs : List ValueId) : ValueSet := vs.foldl insert ∅

def insertAll (vs : List ValueId) : ValueSet := vs.foldl insert s

end ValueSet

end SsaCodegen
