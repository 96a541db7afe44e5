import SsaCodegen.Location

/-!
Parallel moves, put into an order in which they can run one at a time; a cycle is broken through a
temporary location.
-/

namespace SsaCodegen

structure WordMove where
  src : WordLoc
  dst : WordLoc
  deriving DecidableEq

def WordMove.text (m : WordMove) : String := s!"{m.src.text}->{m.dst.text}"

namespace Moves

/-- How far a move has come: not looked at, waiting for the moves that read its destination,
emitted. -/
inductive Status where
  | unvisited
  | waiting
  | done
  deriving DecidableEq

/-- The sources as they are now, the status of each move, and the moves emitted so far. -/
structure State where
  srcs : Array WordLoc
  status : Array Status
  out : Array WordMove

def State.src (s : State) (i : Nat) : WordLoc := s.srcs.getD i (.imm 0)

def State.statusOf (s : State) (i : Nat) : Status := s.status.getD i .done

def State.save (s : State) (temp : WordLoc) (i : Nat) : State :=
  { s with srcs := s.srcs.setIfInBounds i temp, out := s.out.push ⟨s.src i, temp⟩ }

/-- Emits move `i` after every move that still reads its destination. A waiting move that reads it
closes a cycle. Every nested visit starts at an unvisited move, so `fuel` need not exceed their
number. -/
def visit (dsts : Array WordLoc) (temp : WordLoc) : Nat → Nat → State → State
  | 0, _, s => s
  | fuel + 1, i, s =>
    let dst := dsts.getD i (.imm 0)
    let s := { s with status := s.status.setIfInBounds i .waiting }
    let s := (List.range dsts.size).foldl (fun s next =>
      if s.src next = dst then
        match s.statusOf next with
        | .unvisited => visit dsts temp fuel next s
        | .waiting => s.save temp next
        | .done => s
      else s) s
    { s with status := s.status.setIfInBounds i .done, out := s.out.push ⟨s.src i, dst⟩ }

/-- Orders moves with distinct destinations, none of them `temp`, so that running them one by one
has the effect of running all at once. Moves of a location to itself are dropped. -/
def sequentialize (moves : List WordMove) (temp : WordLoc) : List WordMove :=
  let moves := moves.filter fun m => m.src ≠ m.dst
  let dsts := (moves.map WordMove.dst).toArray
  let start : State :=
    { srcs := (moves.map WordMove.src).toArray
      status := Array.replicate dsts.size .unvisited
      out := #[] }
  let final := (List.range dsts.size).foldl (fun s root =>
    match s.statusOf root with
    | .unvisited => visit dsts temp dsts.size root s
    | _ => s) start
  final.out.toList

end Moves

end SsaCodegen
