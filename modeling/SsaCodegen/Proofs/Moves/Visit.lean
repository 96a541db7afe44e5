import Mathlib.Data.Set.Card
import SsaCodegen.Moves
import SsaCodegen.Proofs.Arrays

/-! The visit of a parallel move. Every location is written by at most one move, so a depth-first visit can
come back only to the move it started from, whose source it saves. -/

open Relation

namespace SsaCodegen.Moves

open List

variable {α : Type*}

/-- What the locations hold after the moves have run one after the other. An immediate is a location
that holds its value from the start. -/
def run (σ : WordLoc → α) (ms : List WordMove) : WordLoc → α :=
  ms.foldl (fun σ m => Function.update σ m.dst (σ m.src)) σ

theorem run_concat (σ : WordLoc → α) (ms : List WordMove) (m : WordMove) :
    run σ (ms ++ [m]) = Function.update (run σ ms) m.dst (run σ ms m.src) := by
  rw [run, foldl_append]
  rfl

theorem run_of_not_mem {l : WordLoc} {ms : List WordMove} (h : ∀ m ∈ ms, m.dst ≠ l)
    (σ : WordLoc → α) : run σ ms l = σ l := by
  induction ms generalizing σ with
  | nil => rfl
  | cons m ms ih =>
    have hm : l ≠ m.dst := fun heq => h m mem_cons_self heq.symm
    calc run σ (m :: ms) l = Function.update σ m.dst (σ m.src) l := ih (fun m' hm' => h m' (mem_cons_of_mem m hm')) _
      _ = σ l := Function.update_of_ne hm _ _

def Edge (ms : List WordMove) (a b : WordLoc) : Prop := ⟨a, b⟩ ∈ ms ∧ a ≠ b

def OnCycle (ms : List WordMove) (a : WordLoc) : Prop := TransGen (Edge ms) a a

def cycleOf (ms : List WordMove) (a : WordLoc) : Set WordLoc :=
  {b | ReflTransGen (Edge ms) a b ∧ ReflTransGen (Edge ms) b a}

def cycles (ms : List WordMove) : Set (Set WordLoc) := cycleOf ms '' {a | OnCycle ms a}

variable {ms : List WordMove} {a b c : WordLoc}

theorem cycleOf_eq (h : b ∈ cycleOf ms a) : cycleOf ms a = cycleOf ms b := by
  ext c
  constructor
  · intro hc
    exact ⟨h.2.trans hc.1, hc.2.trans h.1⟩
  · intro hc
    exact ⟨h.1.trans hc.1, hc.2.trans h.2⟩

theorem mem_cycleOf_self (ms : List WordMove) (a : WordLoc) : a ∈ cycleOf ms a := ⟨.refl, .refl⟩

theorem mem_cycleOf_of_eq (h : cycleOf ms a = cycleOf ms b) : b ∈ cycleOf ms a :=
  h ▸ mem_cycleOf_self ms b

theorem mem_cycleOf_of_leads (hms : ∀ a a' b, Edge ms a b → Edge ms a' b → a = a')
    (hab : ReflTransGen (Edge ms) a b) (hb : OnCycle ms b) : a ∈ cycleOf ms b := by
  induction hab with
  | refl => exact mem_cycleOf_self ms _
  | @tail x y hax hxy ih =>
    obtain ⟨z, hyz, hzy⟩ := TransGen.tail'_iff.mp hb
    obtain rfl := hms x z y hxy hzy
    have hx : OnCycle ms x := TransGen.head' hxy hyz
    obtain ⟨hxa, hax⟩ := ih hx
    exact ⟨hyz.trans hxa, hax.tail hxy⟩

namespace State

variable {s : State} {i j : Nat} {x : Status}

def mark (s : State) (i : Nat) (x : Status) : State :=
  { s with status := s.status.setIfInBounds i x }

def emit (s : State) (i : Nat) (dst : WordLoc) : State :=
  { s.mark i .done with out := s.out.push ⟨s.src i, dst⟩ }

def saved (s : State) (temp : WordLoc) : List WordLoc :=
  (s.out.toList.filter (·.dst = temp)).map WordMove.src

theorem statusOf_mark (hi : i < s.status.size) :
    (s.mark i x).statusOf j = if j = i then x else s.statusOf j := getD_setIfInBounds hi

theorem lt_of_statusOf (h : s.statusOf i ≠ .done) : i < s.status.size := by
  by_contra hge
  exact h (getD_of_size_le (not_lt.mp hge))

theorem src_save {temp : WordLoc} (hi : i < s.srcs.size) :
    (s.save temp i).src j = if j = i then temp else s.src j := getD_setIfInBounds hi

theorem saved_push {temp : WordLoc} {m : WordMove} {t : State} (h : t.out = s.out.push m) :
    t.saved temp = s.saved temp ++ if m.dst = temp then [m.src] else [] := by
  rw [saved, h, Array.toList_push, filter_append, saved]
  by_cases hm : m.dst = temp <;> simp [hm]

end State

/-- Moves with distinct destinations, none of them from a location to itself, and a temporary location
that none of them mentions. -/
structure Batch where
  moves : List WordMove
  temp : WordLoc
  dst_nodup : (moves.map WordMove.dst).Nodup
  src_ne_dst : ∀ m ∈ moves, m.src ≠ m.dst
  ne_temp : ∀ m ∈ moves, m.src ≠ temp ∧ m.dst ≠ temp

namespace Batch

variable {B : Batch} {i j : Nat}

def size (B : Batch) : Nat := B.moves.length

def srcs (B : Batch) : Array WordLoc := (B.moves.map WordMove.src).toArray

def dsts (B : Batch) : Array WordLoc := (B.moves.map WordMove.dst).toArray

def src (B : Batch) (i : Nat) : WordLoc := B.srcs.getD i (.imm 0)

def dst (B : Batch) (i : Nat) : WordLoc := B.dsts.getD i (.imm 0)

theorem size_srcs (B : Batch) : B.srcs.size = B.size := by simp [srcs, size]

theorem size_dsts (B : Batch) : B.dsts.size = B.size := by simp [dsts, size]

theorem move_eq (hi : i < B.moves.length) : B.moves[i] = ⟨B.src i, B.dst i⟩ := by
  simp [src, dst, srcs, dsts, hi]

theorem mem_moves (hi : i < B.size) : ⟨B.src i, B.dst i⟩ ∈ B.moves :=
  move_eq hi ▸ getElem_mem hi

theorem src_ne_temp (hi : i < B.size) : B.src i ≠ B.temp := (B.ne_temp _ (mem_moves hi)).1

theorem dst_ne_temp (hi : i < B.size) : B.dst i ≠ B.temp := (B.ne_temp _ (mem_moves hi)).2

theorem dst_inj (hi : i < B.size) (hj : j < B.size) (h : B.dst i = B.dst j) : i = j := by
  have hget : ∀ k, k < B.size → (B.moves.map WordMove.dst)[k]? = some (B.dst k) := by
    intro k hk
    rw [getElem?_map, getElem?_eq_getElem hk, move_eq hk, Option.map_some]
  have hlt : i < (B.moves.map WordMove.dst).length := by rwa [length_map]
  exact (getElem?_inj hlt B.dst_nodup).mp (by rw [hget i hi, hget j hj, h])

theorem edge_iff : Edge B.moves a b ↔ ∃ i < B.size, B.src i = a ∧ B.dst i = b := by
  constructor
  · intro ⟨hmem, _⟩
    obtain ⟨i, hi, hget⟩ := mem_iff_getElem.mp hmem
    rw [move_eq hi] at hget
    exact ⟨i, hi, congrArg WordMove.src hget, congrArg WordMove.dst hget⟩
  · intro ⟨i, hi, hsrc, hdst⟩
    have hmem := mem_moves hi
    rw [hsrc, hdst] at hmem
    exact ⟨hmem, B.src_ne_dst _ hmem⟩

theorem edge_unique (B : Batch) (a a' b : WordLoc) (h : Edge B.moves a b) (h' : Edge B.moves a' b) : a = a' := by
  obtain ⟨i, hi, hsrc, hdst⟩ := edge_iff.mp h
  obtain ⟨j, hj, hsrc', hdst'⟩ := edge_iff.mp h'
  obtain rfl := dst_inj hi hj (hdst.trans hdst'.symm)
  exact hsrc.symm.trans hsrc'

end Batch

/-- The moves that are done have put the initial contents of their sources where they belong, and
those that are not can still read them. -/
structure Sound (B : Batch) (σ : WordLoc → α) (s : State) : Prop where
  srcs_size : s.srcs.size = B.size
  status_size : s.status.size = B.size
  kept : ∀ i, s.statusOf i ≠ .done → run σ s.out.toList (s.src i) = σ (B.src i)
  written : ∀ i < B.size, s.statusOf i = .done → run σ s.out.toList (B.dst i) = σ (B.src i)
  proper : ∀ m ∈ s.out.toList, m.src ≠ m.dst
  once : ∀ i < B.size, (s.out.toList.map WordMove.dst).count (B.dst i) = if s.statusOf i = .done then 1 else 0

/-- The moves that wait: each but the first, `root`, reads what the one below it overwrites. -/
structure Waiting (B : Batch) (root : Nat) (stack : List Nat) : Prop where
  nodup : stack.Nodup
  lt : ∀ w ∈ stack, w < B.size
  root_mem : root ∈ stack
  below : ∀ w ∈ stack, w ≠ root → ∃ j ∈ stack.tail, B.src w = B.dst j
  reached : ∀ w ∈ stack, ReflTransGen (Edge B.moves) (B.dst root) (B.dst w)

/-- The state while the moves in `stack` wait. Only the source of `root` can have been saved, and it has
been as soon as the move that overwrites it is done. -/
structure Visiting (B : Batch) (σ : WordLoc → α) (root : Nat) (base : List WordLoc) (stack : List Nat)
    (s : State) : Prop extends Sound B σ s where
  src_other : ∀ i, i ≠ root → s.statusOf i ≠ .done → s.src i = B.src i
  src_root : s.src root = B.src root ∨ s.src root = B.temp
  closed : ∀ i j, i < B.size → j < B.size → s.statusOf i = .done → B.src j = B.dst i →
    if j = root then s.src root = B.temp else s.statusOf j = .done
  waiting : ∀ i, s.statusOf i = .waiting ↔ i ∈ stack
  saves : s.saved B.temp = base ++ if s.src root = B.temp then [B.src root] else []
  cyclic : s.src root = B.temp → ReflTransGen (Edge B.moves) (B.dst root) (B.src root)

/-- What a visit of `root` changes from one state to a later one. -/
structure Later (B : Batch) (root : Nat) (s t : State) : Prop where
  done : ∀ j, s.statusOf j = .done → t.statusOf j = .done
  src : ∀ j, t.src j = s.src j ∨ t.src j = B.temp
  reached : ∀ j < B.size, t.statusOf j = .done → s.statusOf j = .done ∨
    ReflTransGen (Edge B.moves) (B.dst root) (B.dst j)

variable {B : Batch} {σ : WordLoc → α} {root i j : Nat} {base : List WordLoc} {stack : List Nat}
  {s t u : State}

theorem Later.refl (B : Batch) (root : Nat) (s : State) : Later B root s s :=
  ⟨fun _ h => h, fun _ => .inl rfl, fun _ _ h => .inl h⟩

theorem Later.trans (h : Later B root s t) (h' : Later B root t u) : Later B root s u where
  done j hj := h'.done j (h.done j hj)
  src j := by grind [h.src j, h'.src j]
  reached j hj hdone := (h'.reached j hj hdone).elim (h.reached j hj) .inr

theorem Waiting.eq_root (h : Waiting B root (i :: stack)) (hj : j ∈ i :: stack)
    (hsrc : B.src j = B.dst i) : j = root := by
  by_contra hne
  obtain ⟨k, hk, hdst⟩ := h.below j hj hne
  obtain rfl := B.dst_inj (h.lt k (mem_of_mem_tail hk)) (h.lt i mem_cons_self) (hdst.symm.trans hsrc)
  exact (nodup_cons.mp h.nodup).1 hk

theorem Waiting.push (h : Waiting B root (i :: stack)) (hj : j < B.size) (hfresh : j ∉ i :: stack)
    (hsrc : B.src j = B.dst i) : Waiting B root (j :: i :: stack) where
  nodup := nodup_cons.mpr ⟨hfresh, h.nodup⟩
  lt := forall_mem_cons.mpr ⟨hj, h.lt⟩
  root_mem := mem_cons_of_mem j h.root_mem
  below := forall_mem_cons.mpr ⟨fun _ => ⟨i, mem_cons_self, hsrc⟩,
    fun w hw hne => (h.below w hw hne).imp fun _ => .imp_left (mem_cons_of_mem i)⟩
  reached := forall_mem_cons.mpr ⟨(h.reached i mem_cons_self).tail (Batch.edge_iff.mpr ⟨j, hj, hsrc, rfl⟩), h.reached⟩

theorem Visiting.src_eq (h : Visiting B σ root base stack s) (hi : s.statusOf i ≠ .done) :
    s.src i = B.src i ∨ i = root ∧ s.src root = B.temp := by grind [h.src_root, h.src_other i]

/-- A source can be saved if no other move reads the temporary location. -/
theorem Sound.save (h : Sound B σ s) (hi : s.statusOf i ≠ .done) (hne : s.src i ≠ B.temp)
    (hother : ∀ j, j ≠ i → s.statusOf j ≠ .done → s.src j ≠ B.temp) : Sound B σ (s.save B.temp i) := by
  have hlt : i < s.srcs.size := h.srcs_size ▸ h.status_size ▸ State.lt_of_statusOf hi
  have hout : (s.save B.temp i).out.toList = s.out.toList ++ [⟨s.src i, B.temp⟩] := Array.toList_push
  refine ⟨(Array.size_setIfInBounds ..).trans h.srcs_size, h.status_size, fun j hj => ?_, fun j hj hd => ?_, ?_,
    fun j hj => ?_⟩
  · change s.statusOf j ≠ .done at hj
    rw [State.src_save hlt, hout, run_concat]
    grind [Function.update_apply, h.kept i hi, h.kept j hj]
  · rw [hout, run_concat, Function.update_of_ne (Batch.dst_ne_temp hj)]
    exact h.written j hj hd
  · grind [h.proper]
  · rw [hout, List.map_append, count_append, h.once j hj]
    grind [State.statusOf, State.save, Batch.dst_ne_temp hj]

/-- A move can be emitted if no other open move reads its destination. -/
theorem Sound.emit (h : Sound B σ s) (hi : s.statusOf i ≠ .done)
    (hread : ∀ j, s.src j = B.dst i → s.statusOf j = .done) : Sound B σ (s.emit i (B.dst i)) := by
  have hlt : i < B.size := h.status_size ▸ State.lt_of_statusOf hi
  have hstatus : ∀ j, (s.emit i (B.dst i)).statusOf j = if j = i then .done else s.statusOf j :=
    fun j => State.statusOf_mark (h.status_size ▸ hlt)
  have hout : (s.emit i (B.dst i)).out.toList = s.out.toList ++ [⟨s.src i, B.dst i⟩] := Array.toList_push
  have hinj : ∀ j < B.size, B.dst j = B.dst i → j = i := fun j hj => Batch.dst_inj hj hlt
  refine ⟨h.srcs_size, (Array.size_setIfInBounds ..).trans h.status_size, fun j hj => ?_, fun j hj hd => ?_, ?_,
    fun j hj => ?_⟩
  · have hkeep : (s.emit i (B.dst i)).src j = s.src j := rfl
    rw [hout, run_concat, hkeep, Function.update_of_ne (by grind)]
    exact h.kept j (by grind)
  · rw [hout, run_concat]
    grind [Function.update_apply, h.kept i hi, h.written j hj]
  · grind [h.proper]
  · rw [hout, List.map_append, count_append, h.once j hj, hstatus]
    grind

theorem Visiting.mark (h : Visiting B σ root base stack s) (hw : Waiting B root (i :: stack))
    (hi : s.statusOf i = .unvisited) : Visiting B σ root base (i :: stack) (s.mark i .waiting) ∧
      Later B root s (s.mark i .waiting) := by
  have hstatus : ∀ j, (s.mark i .waiting).statusOf j = if j = i then .waiting else s.statusOf j :=
    fun j => State.statusOf_mark (h.status_size ▸ hw.lt i mem_cons_self)
  have hdone : ∀ j, (s.mark i .waiting).statusOf j = .done ↔ s.statusOf j = .done := by grind
  refine ⟨⟨⟨h.srcs_size, (Array.size_setIfInBounds ..).trans h.status_size, ?_, ?_, h.proper, ?_⟩, ?_, h.src_root,
    ?_, ?_, h.saves, h.cyclic⟩, ?_, fun j => .inl rfl, ?_⟩
  · exact fun j hj => h.kept j ((hdone j).not.mp hj)
  · exact fun j hlt hj => h.written j hlt ((hdone j).mp hj)
  · exact fun j hlt => (h.once j hlt).trans (if_congr (hdone j).symm rfl rfl)
  · exact fun j hne hj => h.src_other j hne ((hdone j).not.mp hj)
  · intro j k hj hk hd hsrc
    simp only [hdone] at hd ⊢
    exact h.closed j k hj hk hd hsrc
  · grind [h.waiting]
  · exact fun j => (hdone j).mpr
  · exact fun j _ hj => .inl ((hdone j).mp hj)

section

variable (h : Visiting B σ root base (i :: stack) s) (hw : Waiting B root (i :: stack))

include h hw

/-- The root's source is saved when the top of the stack is about to overwrite it. -/
theorem Visiting.save (hsrc : s.src root = B.dst i) :
    Visiting B σ root base (i :: stack) (s.save B.temp root) ∧ Later B root s (s.save B.temp root) := by
  have hlt : root < s.srcs.size := h.srcs_size ▸ hw.lt root hw.root_mem
  have hopen : s.statusOf root ≠ .done := by grind [h.waiting root, hw.root_mem]
  have hne : s.src root ≠ B.temp := hsrc ▸ Batch.dst_ne_temp (hw.lt i mem_cons_self)
  have horig : s.src root = B.src root := h.src_root.resolve_right hne
  have hsrcs : ∀ j, (s.save B.temp root).src j = if j = root then B.temp else s.src j :=
    fun j => State.src_save hlt
  have hother : ∀ j, j ≠ root → s.statusOf j ≠ .done → s.src j ≠ B.temp := by
    intro j hjr hj
    rw [h.src_other j hjr hj]
    exact Batch.src_ne_temp (h.status_size ▸ State.lt_of_statusOf hj)
  have hnow : (s.save B.temp root).src root = B.temp := (hsrcs root).trans (if_pos rfl)
  refine ⟨⟨h.toSound.save hopen hne hother, ?_, .inr hnow, ?_, h.waiting, ?_, ?_⟩, fun j hj => hj, ?_,
    fun j _ hj => .inl hj⟩
  · exact fun j hjr hj => (hsrcs j).trans ((if_neg hjr).trans (h.src_other j hjr hj))
  · intro j k hj hk hd hread
    have hold := h.closed j k hj hk hd hread
    rw [hnow]
    split
    · rfl
    · exact (if_neg ‹_›).mp hold
  · rw [State.saved_push rfl, if_pos rfl, hnow, if_pos rfl, h.saves, if_neg hne, append_nil, horig]
  · exact fun _ => horig ▸ hsrc ▸ hw.reached i mem_cons_self
  · grind

/-- The top of the stack is emitted when no other move reads its destination any more. -/
theorem Visiting.emit (hread : ∀ j, s.src j = B.dst i → s.statusOf j = .done) :
    Visiting B σ root base stack (s.emit i (B.dst i)) ∧ Later B root s (s.emit i (B.dst i)) := by
  have hopen : ∀ j ∈ i :: stack, s.statusOf j ≠ .done := by grind [h.waiting]
  have hstatus : ∀ j, (s.emit i (B.dst i)).statusOf j = if j = i then .done else s.statusOf j :=
    fun j => State.statusOf_mark (h.status_size ▸ hw.lt i mem_cons_self)
  have hdone : ∀ j, (s.emit i (B.dst i)).statusOf j = .done ↔ j = i ∨ s.statusOf j = .done := by grind
  have hdst := Batch.dst_ne_temp (hw.lt i mem_cons_self)
  refine ⟨⟨h.toSound.emit (hopen i mem_cons_self) hread, ?_, h.src_root, ?_, ?_, ?_, h.cyclic⟩,
    fun j hj => (hdone j).mpr (.inr hj), fun j => .inl rfl, ?_⟩
  · exact fun j hjr hj => h.src_other j hjr fun hd => hj ((hdone j).mpr (.inr hd))
  · intro j k hj hk hd hsrc
    rw [hdone] at hd ⊢
    change if k = root then s.src root = B.temp else _
    -- every reader of the destination is done, but for the root, which reads its saved source
    grind [h.closed j k, h.src_root, h.src_other k, hw.root_mem]
  · grind [h.waiting, hw.nodup]
  · rw [State.saved_push rfl, if_neg hdst, append_nil]
    exact h.saves
  · exact fun j _ hj => ((hdone j).mp hj).elim (fun heq => .inr (heq ▸ hw.reached i mem_cons_self)) .inl

end

/-- What a visit of `i` does about move `next`. -/
def look (B : Batch) (fuel i : Nat) (s : State) (next : Nat) : State :=
  if s.src next = B.dst i then
    match s.statusOf next with
    | .unvisited => visit B.dsts B.temp fuel next s
    | .waiting => s.save B.temp next
    | .done => s
  else s

theorem visit_succ (B : Batch) (fuel i : Nat) (s : State) : visit B.dsts B.temp (fuel + 1) i s =
    ((List.range B.size).foldl (look B fuel i) (s.mark i .waiting)).emit i (B.dst i) := by
  rw [visit, B.size_dsts]
  rfl

/-- A visit goes on to a move that reads the destination, saves the source of the root if that is the
move, and passes over all others. -/
theorem Visiting.look {fuel next : Nat} (h : Visiting B σ root base (i :: stack) s)
    (hw : Waiting B root (i :: stack)) (hnext : next < B.size)
    (hvisit : Waiting B root (next :: i :: stack) → s.statusOf next = .unvisited →
      Visiting B σ root base (i :: stack) (visit B.dsts B.temp fuel next s) ∧
        Later B root s (visit B.dsts B.temp fuel next s) ∧
        (visit B.dsts B.temp fuel next s).statusOf next = .done) :
    Visiting B σ root base (i :: stack) (look B fuel i s next) ∧ Later B root s (look B fuel i s next) ∧
      ((look B fuel i s next).src next = B.dst i → (look B fuel i s next).statusOf next = .done) := by
  have htemp := Batch.dst_ne_temp (hw.lt i mem_cons_self)
  by_cases hsrc : s.src next = B.dst i
  · have horig : s.statusOf next ≠ .done → B.src next = B.dst i := by grind [h.src_eq]
    rw [Moves.look, if_pos hsrc]
    cases hstatus : s.statusOf next with
    | unvisited =>
      have hfresh : next ∉ i :: stack := by grind [h.waiting next]
      obtain ⟨hv, hlater, hdone⟩ := hvisit (hw.push hnext hfresh (horig (by rw [hstatus]; decide))) hstatus
      exact ⟨hv, hlater, fun _ => hdone⟩
    | waiting =>
      obtain rfl : next = root := hw.eq_root ((h.waiting next).mp hstatus) (horig (by rw [hstatus]; decide))
      obtain ⟨hv, hlater⟩ := h.save hw hsrc
      refine ⟨hv, hlater, fun hsame => ?_⟩
      rw [State.src_save (h.srcs_size ▸ hnext), if_pos rfl] at hsame
      exact absurd hsame.symm htemp
    | done => exact ⟨h, .refl B root s, fun _ => hstatus⟩
  · rw [Moves.look, if_neg hsrc]
    exact ⟨h, .refl B root s, fun heq => absurd heq hsrc⟩

/-- After a visit the move is done, and the others that wait are the same as before. -/
theorem Visiting.visit (fuel : Nat) : ∀ {i : Nat} {stack : List Nat} {s : State},
    Visiting B σ root base stack s → Waiting B root (i :: stack) → s.statusOf i = .unvisited →
    B.size ≤ stack.length + fuel → Visiting B σ root base stack (Moves.visit B.dsts B.temp fuel i s) ∧
      Later B root s (Moves.visit B.dsts B.temp fuel i s) ∧
      (Moves.visit B.dsts B.temp fuel i s).statusOf i = .done := by
  induction fuel with
  | zero =>
    intro i stack s h hw hi hfuel
    have hle := (subperm_of_subset hw.nodup fun w hmem => mem_range.mpr (hw.lt w hmem)).length_le
    rw [length_range, length_cons] at hle
    omega
  | succ fuel ih =>
    intro i stack s h hw hi hfuel
    -- what has been looked at stays as it is, since sources only change to the temporary location
    have hloop : ∀ (nexts : List Nat) (s : State), (∀ j ∈ nexts, j < B.size) → Visiting B σ root base (i :: stack) s →
        Visiting B σ root base (i :: stack) (nexts.foldl (Moves.look B fuel i) s) ∧
          Later B root s (nexts.foldl (Moves.look B fuel i) s) ∧
          ∀ j ∈ nexts, (nexts.foldl (Moves.look B fuel i) s).src j = B.dst i →
            (nexts.foldl (Moves.look B fuel i) s).statusOf j = .done := by
      intro nexts
      induction nexts with
      | nil => exact fun s _ hs => ⟨hs, .refl B root s, forall_mem_nil _⟩
      | cons next nexts ihn =>
        intro s hlt hs
        obtain ⟨h1, hlater1, hdone1⟩ := hs.look hw (hlt next mem_cons_self)
          fun hnext hstatus => ih hs hnext hstatus (by rw [length_cons]; omega)
        obtain ⟨h2, hlater2, hdone2⟩ := ihn (Moves.look B fuel i s next)
          (fun j hj => hlt j (mem_cons_of_mem next hj)) h1
        refine ⟨h2, hlater1.trans hlater2, forall_mem_cons.mpr ⟨fun heq => ?_, hdone2⟩⟩
        rcases hlater2.src next with hsame | htemp
        · exact hlater2.done next (hdone1 (hsame ▸ heq))
        · exact absurd (heq.symm.trans htemp) (Batch.dst_ne_temp (hw.lt i mem_cons_self))
    obtain ⟨hmark, hlater⟩ := h.mark hw hi
    obtain ⟨hlast, hlater', hread⟩ := hloop (List.range B.size) _ (fun j hj => mem_range.mp hj) hmark
    obtain ⟨hemit, hlater''⟩ := hlast.emit hw fun j hj => by
      by_contra hopen
      exact hopen (hread j (mem_range.mpr (hlast.status_size ▸ State.lt_of_statusOf hopen)) hj)
    rw [visit_succ]
    refine ⟨hemit, (hlater.trans hlater').trans hlater'', (State.statusOf_mark ?_).trans (if_pos rfl)⟩
    rw [hlast.status_size]
    exact hw.lt i mem_cons_self

end SsaCodegen.Moves
