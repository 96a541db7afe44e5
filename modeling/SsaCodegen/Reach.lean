/-!
What can be reached in a finite graph whose nodes are numbers.
-/

namespace SsaCodegen

/-- Adds to `found` all that can be reached from `work` without passing through `found`. -/
def reachWithin (next : Nat → List Nat) : Nat → List Nat → List Nat → List Nat
  | 0, _, found => found
  | _, [], found => found
  | fuel + 1, x :: work, found =>
    if x ∈ found then reachWithin next fuel work found
    else reachWithin next fuel (next x ++ work) (x :: found)

/-- All nodes that can be reached from those in `start`, which are reached themselves. Every node
of the graph is in `nodes`; each edge is followed once, which bounds the search. -/
def reach (next : Nat → List Nat) (nodes start : List Nat) : List Nat :=
  reachWithin next (start.length + (nodes.flatMap next).length + 1) start []

/-- A depth-first search with a stack of its own: what it does when it enters a node, meets one that
it has entered before, and leaves a node for the one below it on the stack. -/
structure Search (σ : Type) where
  next : Nat → List Nat
  isNew : σ → Nat → Bool
  enter : σ → Nat → σ
  meet : σ → Nat → Nat → σ
  leave : σ → Nat → Option Nat → σ

namespace Search

variable {σ : Type}

/-- Goes on from a stack of nodes, each with the number of its successors that have been dealt
with. -/
def run (S : Search σ) : Nat → List (Nat × Nat) → σ → σ
  | 0, _, s => s
  | _, [], s => s
  | fuel + 1, (v, k) :: rest, s =>
    match (S.next v)[k]? with
    | none => S.run fuel rest (S.leave s v (rest.head?.map Prod.fst))
    | some w =>
      if S.isNew s w then S.run fuel ((w, 0) :: (v, k + 1) :: rest) (S.enter s w)
      else S.run fuel ((v, k + 1) :: rest) (S.meet s v w)

/-- Searches a graph whose nodes are all in `nodes`. Each node is left once and each edge followed
once, which bounds the search. -/
def explore (S : Search σ) (nodes : List Nat) (s : σ) (root : Nat) : σ :=
  S.run (nodes.flatMap fun v => v :: S.next v).length [(root, 0)] (S.enter s root)

end Search

/-- A search for strongly connected components. The stack holds the nodes that are in none yet, the
last one first. From a node the search has come back to what has the index `low`. -/
structure ComponentSearch where
  index : Nat → Option Nat
  low : Nat → Nat
  onStack : Nat → Bool
  stack : List Nat
  found : List (List Nat)
  next : Nat

namespace ComponentSearch

def empty : ComponentSearch := ⟨fun _ => none, fun _ => 0, fun _ => false, [], [], 0⟩

variable (t : ComponentSearch)

def enter (v : Nat) : ComponentSearch :=
  { t with
    index := fun x => if x = v then some t.next else t.index x
    low := fun x => if x = v then t.next else t.low x
    onStack := fun x => x == v || t.onStack x
    stack := v :: t.stack
    next := t.next + 1 }

def lower (v n : Nat) : ComponentSearch :=
  { t with low := fun x => if x = v then min (t.low v) n else t.low x }

def meet (v w : Nat) : ComponentSearch :=
  if t.onStack w then t.lower v ((t.index w).getD 0) else t

/-- Takes nodes from a stack until it has taken `v`. -/
def popTo (v : Nat) : List Nat → List Nat × List Nat
  | [] => ([], [])
  | w :: stack =>
    if w = v then ([w], stack) else ((w :: (popTo v stack).1), (popTo v stack).2)

def close (v : Nat) : ComponentSearch :=
  let (members, stack) := popTo v t.stack
  { t with
    onStack := fun x => t.onStack x && !members.contains x
    stack
    found := t.found ++ [members] }

def leave (v : Nat) (parent : Option Nat) : ComponentSearch :=
  let t := match parent with
    | some p => t.lower p (t.low v)
    | none => t
  if t.index v = some (t.low v) then t.close v else t

def search (next : Nat → List Nat) : Search ComponentSearch where
  next
  isNew t v := (t.index v).isNone
  enter
  meet
  leave

end ComponentSearch

/-- The strongly connected components of a graph, each after those that it has edges to. -/
def components (next : Nat → List Nat) (nodes : List Nat) : List (List Nat) :=
  (nodes.foldl (fun t root =>
    if (t.index root).isNone then (ComponentSearch.search next).explore nodes t root else t)
    ComponentSearch.empty).found

end SsaCodegen
