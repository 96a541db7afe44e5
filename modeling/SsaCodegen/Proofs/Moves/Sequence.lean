import SsaCodegen.Proofs.Moves.Visit

/-! Parallel moves run one at a time. Between two visits, one location has been saved for each cycle that is
done. -/

open Relation

namespace SsaCodegen.Moves

open List

variable {α : Type*} {B : Batch} {σ : WordLoc → α} {root i j : Nat} {base : List WordLoc}
  {s : State} {a : WordLoc} {m : WordMove}

/-- The state between two visits: no move waits, and of every cycle that is done one location has been
saved. -/
structure Resting (B : Batch) (σ : WordLoc → α) (s : State) : Prop extends Sound B σ s where
  src : ∀ i, s.statusOf i ≠ .done → s.src i = B.src i
  idle : ∀ i, s.statusOf i ≠ .waiting
  closed : ∀ i j, i < B.size → j < B.size → s.statusOf i = .done → B.src j = B.dst i → s.statusOf j = .done
  saved_done : ∀ x ∈ s.saved B.temp, OnCycle B.moves x ∧ ∃ i < B.size, s.statusOf i = .done ∧ B.dst i = x
  saved_distinct : (s.saved B.temp).Pairwise fun x y => cycleOf B.moves x ≠ cycleOf B.moves y
  saved_all : ∀ i < B.size, s.statusOf i = .done → OnCycle B.moves (B.dst i) →
    ∃ x ∈ s.saved B.temp, x ∈ cycleOf B.moves (B.dst i)

theorem leads_done (hclosed : ∀ i j, i < B.size → j < B.size → s.statusOf i = .done →
      B.src j = B.dst i → s.statusOf j = .done) (hi : i < B.size) (hdone : s.statusOf i = .done)
    (h : ReflTransGen (Edge B.moves) (B.dst i) a) : ∃ k < B.size, s.statusOf k = .done ∧ B.dst k = a := by
  induction h with
  | refl => exact ⟨i, hi, hdone, rfl⟩
  | tail _ hedge ih =>
    obtain ⟨k, hk, hdone, hdst⟩ := ih
    obtain ⟨j, hj, hsrc, hdst'⟩ := Batch.edge_iff.mp hedge
    exact ⟨j, hj, hclosed k j hk hj hdone (hsrc.trans hdst.symm), hdst'⟩

theorem Resting.visiting (h : Resting B σ s) (hroot : root < B.size) (hopen : s.statusOf root = .unvisited) :
    Visiting B σ root (s.saved B.temp) [] s := by
  have hsrc : s.src root = B.src root := h.src root (by rw [hopen]; decide)
  have hne : s.src root ≠ B.temp := hsrc ▸ Batch.src_ne_temp hroot
  refine ⟨h.toSound, fun i _ => h.src i, .inl hsrc, ?_, ?_, ?_, fun htemp => absurd htemp hne⟩
  · grind [h.closed]
  · exact fun i => iff_of_false (h.idle i) not_mem_nil
  · rw [if_neg hne, append_nil]

theorem Visiting.closed_of_done (h : Visiting B σ root base [] s) (hdone : s.statusOf root = .done)
    (i j : Nat) (hi : i < B.size) (hj : j < B.size) (hd : s.statusOf i = .done)
    (hsrc : B.src j = B.dst i) : s.statusOf j = .done := by grind [h.closed i j hi hj hd hsrc]

theorem Visiting.saved_iff (h : Visiting B σ root base [] s) (hroot : root < B.size)
    (hdone : s.statusOf root = .done) :
    s.src root = B.temp ↔ ReflTransGen (Edge B.moves) (B.dst root) (B.src root) := by
  refine ⟨h.cyclic, fun hcycle => ?_⟩
  obtain ⟨k, hk, hkdone, hdst⟩ := leads_done (h.closed_of_done hdone) hroot hdone hcycle
  exact (if_pos rfl).mp (h.closed k root hk hroot hkdone hdst.symm)

theorem Resting.visit (h : Resting B σ s) (hroot : root < B.size) (hopen : s.statusOf root = .unvisited) :
    Resting B σ (Moves.visit B.dsts B.temp B.size root s) ∧ Later B root s (Moves.visit B.dsts B.temp B.size root s) ∧
      (Moves.visit B.dsts B.temp B.size root s).statusOf root = .done := by
  have hwaiting : Waiting B root [root] :=
    ⟨nodup_singleton root, by simpa using hroot, mem_cons_self, by simp, by simpa using .refl⟩
  obtain ⟨hv, hlater, hdone⟩ := (h.visiting hroot hopen).visit B.size hwaiting hopen (Nat.le_add_left ..)
  generalize Moves.visit B.dsts B.temp B.size root s = t at hv hlater hdone
  have hedge : Edge B.moves (B.src root) (B.dst root) := Batch.edge_iff.mpr ⟨root, hroot, rfl, rfl⟩
  have hclosed := hv.closed_of_done hdone
  have hsaved : ∀ x, x ∈ t.saved B.temp ↔ x ∈ s.saved B.temp ∨ x = B.src root ∧ t.src root = B.temp := by
    grind [hv.saves]
  refine ⟨⟨hv.toSound, ?_, ?_, hclosed, ?_, ?_, ?_⟩, hlater, hdone⟩
  · exact fun i hi => hv.src_other i (fun heq => hi (heq ▸ hdone)) hi
  · exact fun i hi => not_mem_nil ((hv.waiting i).mp hi)
  · intro x hx
    rcases (hsaved x).mp hx with hold | ⟨rfl, htemp⟩
    · obtain ⟨hcycle, i, hi, hd, hdst⟩ := h.saved_done x hold
      exact ⟨hcycle, i, hi, hlater.done i hd, hdst⟩
    · exact ⟨TransGen.head' hedge (hv.cyclic htemp), leads_done hclosed hroot hdone (hv.cyclic htemp)⟩
  · rw [hv.saves]
    refine pairwise_append.mpr ⟨h.saved_distinct, by split <;> simp, fun x hx y hy hsame => ?_⟩
    -- a location saved before leads only to moves that were done before
    obtain rfl : y = B.src root := by grind
    obtain ⟨_, i, hi, hd, rfl⟩ := h.saved_done x hx
    obtain ⟨k, hk, hkdone, hdst⟩ := leads_done h.closed hi hd (mem_cycleOf_of_eq hsame).1
    grind [h.closed k root hk hroot hkdone hdst.symm]
  · intro i hi hd hcycle
    rcases hlater.reached i hi hd with hd | hleads
    · obtain ⟨x, hx, hmem⟩ := h.saved_all i hi hd hcycle
      exact ⟨x, (hsaved x).mpr (.inl hx), hmem⟩
    · have hmem := mem_cycleOf_of_leads B.edge_unique (hleads.head hedge) hcycle
      have htemp := (hv.saved_iff hroot hdone).mpr (hleads.trans hmem.1)
      exact ⟨B.src root, (hsaved _).mpr (.inr ⟨rfl, htemp⟩), hmem⟩

theorem Resting.foldl (roots : List Nat) : ∀ {s : State}, (∀ r ∈ roots, r < B.size) → Resting B σ s →
    let t := roots.foldl (fun s root =>
      match s.statusOf root with
      | .unvisited => Moves.visit B.dsts B.temp B.size root s
      | _ => s) s
    Resting B σ t ∧ (∀ j, s.statusOf j = .done → t.statusOf j = .done) ∧ ∀ r ∈ roots, t.statusOf r = .done := by
  induction roots with
  | nil => exact fun _ h => ⟨h, fun _ hj => hj, forall_mem_nil _⟩
  | cons root roots ih =>
    intro s hlt h
    have hrest : ∀ r ∈ roots, r < B.size := fun r hr => hlt r (mem_cons_of_mem root hr)
    simp only [foldl_cons]
    cases hstatus : s.statusOf root with
    | unvisited =>
      obtain ⟨hnext, hlater, hdone⟩ := h.visit (hlt root mem_cons_self) hstatus
      obtain ⟨hend, hkeep, hall⟩ := ih hrest hnext
      exact ⟨hend, fun j hj => hkeep j (hlater.done j hj), forall_mem_cons.mpr ⟨hkeep root hdone, hall⟩⟩
    | waiting => exact absurd hstatus (h.idle root)
    | done =>
      obtain ⟨hend, hkeep, hall⟩ := ih hrest h
      exact ⟨hend, hkeep, forall_mem_cons.mpr ⟨hkeep root hstatus, hall⟩⟩

def Batch.start (B : Batch) : State := ⟨B.srcs, Array.replicate B.dsts.size .unvisited, #[]⟩

theorem Batch.resting_start (B : Batch) (σ : WordLoc → α) : Resting B σ B.start := by
  have hstatus : ∀ i, B.start.statusOf i = if i < B.size then .unvisited else .done := by
    intro i
    rw [State.statusOf, start, Array.getD_eq_getD_getElem?, Array.getElem?_replicate, B.size_dsts]
    split <;> rfl
  refine ⟨⟨B.size_srcs, Array.size_replicate.trans B.size_dsts, fun _ _ => rfl, ?_, forall_mem_nil _, ?_⟩,
    fun _ _ => rfl, ?_, ?_, forall_mem_nil _, .nil, ?_⟩ <;> grind [start]

/-- The state after all visits. -/
structure Finished (B : Batch) (σ : WordLoc → α) (s : State) : Prop extends Resting B σ s where
  done : ∀ i < B.size, s.statusOf i = .done

variable {moves : List WordMove} {temp : WordLoc}

/-- The moves that `sequentialize` puts in order. -/
def Batch.of (hdst : (moves.map WordMove.dst).Nodup) (htemp : ∀ m ∈ moves, m.src ≠ temp ∧ m.dst ≠ temp) : Batch where
  moves := moves.filter fun m => m.src ≠ m.dst
  temp := temp
  dst_nodup := hdst.sublist (List.filter_sublist.map _)
  src_ne_dst m hm := by simpa using (List.mem_filter.mp hm).2
  ne_temp m hm := htemp m (List.mem_filter.mp hm).1

theorem finished_sequentialize (hdst : (moves.map WordMove.dst).Nodup)
    (htemp : ∀ m ∈ moves, m.src ≠ temp ∧ m.dst ≠ temp) (σ : WordLoc → α) :
    ∃ s, Finished (Batch.of hdst htemp) σ s ∧ s.out.toList = sequentialize moves temp := by
  have hsize := (Batch.of hdst htemp).size_dsts
  have hlt : ∀ r ∈ List.range (Batch.of hdst htemp).dsts.size, r < (Batch.of hdst htemp).size := by
    intro r hr
    rw [← hsize]
    exact mem_range.mp hr
  obtain ⟨hrest, -, hdone⟩ := Resting.foldl _ hlt ((Batch.of hdst htemp).resting_start σ)
  refine ⟨_, ⟨hrest, fun i hi => hdone i (mem_range.mpr (hsize.symm ▸ hi))⟩, ?_⟩
  rw [← hsize]
  rfl

theorem Finished.mem_moves (h : Finished B σ s) (hm : m ∈ B.moves) :
    run σ s.out.toList m.dst = σ m.src ∧ (s.out.toList.map WordMove.dst).count m.dst = 1 := by
  obtain ⟨i, hi, rfl⟩ := mem_iff_getElem.mp hm
  rw [Batch.move_eq hi]
  refine ⟨h.written i hi (h.done i hi), ?_⟩
  rw [h.once i hi, if_pos (h.done i hi)]

theorem Finished.count_temp (h : Finished B σ s) :
    (s.out.toList.map WordMove.dst).count B.temp = (cycles B.moves).ncard := by
  classical
  have hcount : (s.out.toList.map WordMove.dst).count B.temp = (s.saved B.temp).length := by
    rw [State.saved, length_map, ← countP_eq_length_filter, List.count, countP_map]
    congr 1
  have hnodup : ((s.saved B.temp).map (cycleOf B.moves)).Nodup := pairwise_map.mpr h.saved_distinct
  have hcycles : cycles B.moves = (((s.saved B.temp).map (cycleOf B.moves)).toFinset : Set (Set WordLoc)) := by
    ext c
    rw [Finset.mem_coe, mem_toFinset, mem_map]
    constructor
    · rintro ⟨a, ha, rfl⟩
      -- a location on a cycle is the destination of some move
      obtain ⟨b, _, hba⟩ := TransGen.tail'_iff.mp ha
      obtain ⟨i, hi, _, rfl⟩ := Batch.edge_iff.mp hba
      obtain ⟨x, hx, hmem⟩ := h.saved_all i hi (h.done i hi) ha
      exact ⟨x, hx, (cycleOf_eq hmem).symm⟩
    · rintro ⟨x, hx, rfl⟩
      exact ⟨x, (h.saved_done x hx).1, rfl⟩
  rw [hcount, hcycles, Set.ncard_coe_finset, toFinset_card_of_nodup hnodup, length_map]

theorem cycles_filter (moves : List WordMove) : cycles (moves.filter fun m => m.src ≠ m.dst) = cycles moves := by
  have hedge : Edge (moves.filter fun m => m.src ≠ m.dst) = Edge moves := by
    funext a b
    simp [Edge, mem_filter]
  rw [cycles, cycles]
  unfold cycleOf OnCycle
  rw [hedge]

/-- Where the moves of a state read, and where those that are emitted write. -/
def State.Uses (s : State) (P Q : WordLoc → Prop) : Prop :=
  (∀ i, P (s.src i)) ∧ ∀ m ∈ s.out.toList, P m.src ∧ Q m.dst

section

variable {P Q : WordLoc → Prop}

theorem State.Uses.push (h : s.Uses P Q) (hm : P m.src ∧ Q m.dst) :
    ∀ m' ∈ (s.out.push m).toList, P m'.src ∧ Q m'.dst := by
  intro m' hm'
  rw [Array.toList_push, mem_append, mem_singleton] at hm'
  rcases hm' with hm' | rfl
  · exact h.2 m' hm'
  · exact hm

theorem State.Uses.save (h : s.Uses P Q) (htemp : P temp ∧ Q temp) (i : Nat) : (s.save temp i).Uses P Q := by
  refine ⟨fun j => ?_, h.push ⟨h.1 i, htemp.2⟩⟩
  by_cases hi : i < s.srcs.size
  · rw [State.src_save hi]
    split
    · exact htemp.1
    · exact h.1 j
  · rw [State.src, State.save, Array.setIfInBounds_eq_of_size_le (not_lt.mp hi)]
    exact h.1 j

theorem uses_visit {dsts : Array WordLoc} (htemp : P temp ∧ Q temp)
    (hdsts : ∀ i < dsts.size, Q (dsts.getD i (.imm 0))) (fuel : Nat) :
    ∀ (i : Nat) {s : State}, i < dsts.size → s.Uses P Q → (visit dsts temp fuel i s).Uses P Q := by
  induction fuel with
  | zero => exact fun _ _ _ h => h
  | succ fuel ih =>
    intro i s hi h
    rw [visit]
    generalize hlast : foldl _ _ _ = t
    have ht : t.Uses P Q := by
      rw [← hlast]
      refine List.foldlRecOn (motive := (State.Uses · P Q)) _ _ h fun s hs next hnext => ?_
      by_cases hsrc : s.src next = dsts.getD i (.imm 0)
      · rw [if_pos hsrc]
        split
        · exact ih next (mem_range.mp hnext) hs
        · exact hs.save htemp next
        · exact hs
      · rw [if_neg hsrc]
        exact hs
    -- the move itself comes after those that read its destination
    exact ⟨ht.1, ht.push ⟨ht.1 i, hdsts i hi⟩⟩

theorem uses_of_mem_sequentialize (htemp : P temp ∧ Q temp) (himm : P (.imm 0))
    (hmoves : ∀ m ∈ moves, m.src ≠ m.dst → P m.src ∧ Q m.dst) (hm : m ∈ sequentialize moves temp) :
    P m.src ∧ Q m.dst := by
  have hall : ∀ m ∈ moves.filter fun m => m.src ≠ m.dst, P m.src ∧ Q m.dst := fun m hm =>
    hmoves m (mem_filter.mp hm).1 (by simpa using (mem_filter.mp hm).2)
  refine (List.foldlRecOn (motive := (State.Uses · P Q)) _ _ ⟨fun i => ?_, forall_mem_nil _⟩
    fun s hs root hroot => ?_).2 m hm
  · rw [State.src, Array.getD_eq_getD_getElem?, List.getElem?_toArray, getElem?_map]
    cases hget : (moves.filter fun m => m.src ≠ m.dst)[i]? with
    | none => exact himm
    | some m => exact (hall m (mem_of_getElem? hget)).1
  · split
    · refine uses_visit htemp (fun i hi => ?_) _ root (mem_range.mp hroot) hs
      rw [Array.getD_eq_getD_getElem?, Array.getElem?_eq_getElem hi, getElem_toArray, getElem_map]
      exact (hall _ (getElem_mem _)).2
    · exact hs

end

theorem run_sequentialize (hdst : (moves.map WordMove.dst).Nodup)
    (htemp : ∀ m ∈ moves, m.src ≠ temp ∧ m.dst ≠ temp) (σ : WordLoc → α) :
    (∀ m ∈ moves, run σ (sequentialize moves temp) m.dst = σ m.src) ∧
    ∀ m ∈ sequentialize moves temp, m.dst = temp ∨ ∃ m' ∈ moves, m'.src ≠ m'.dst ∧ m'.dst = m.dst := by
  have hwrites : ∀ m ∈ sequentialize moves temp, m.dst = temp ∨ ∃ m' ∈ moves, m'.src ≠ m'.dst ∧ m'.dst = m.dst :=
    fun m hm => (@uses_of_mem_sequentialize m moves temp (fun _ => True)
      (fun l => l = temp ∨ ∃ m' ∈ moves, m'.src ≠ m'.dst ∧ m'.dst = l) ⟨trivial, .inl rfl⟩ trivial
      (fun m' hm' hne => ⟨trivial, .inr ⟨m', hm', hne, rfl⟩⟩) hm).2
  refine ⟨fun m hm => ?_, hwrites⟩
  by_cases hself : m.src = m.dst
  · rw [hself]
    apply run_of_not_mem
    intro m' hm' heq
    rcases hwrites m' hm' with heq' | ⟨m'', hm'', hne, heq'⟩
    · exact (htemp m hm).2 (heq.symm.trans heq')
    · -- the destination would be that of two moves
      obtain rfl := inj_on_of_nodup_map hdst hm'' hm (heq'.trans heq)
      exact hne hself
  · obtain ⟨s, hs, hout⟩ := finished_sequentialize hdst htemp σ
    rw [← hout]
    exact (hs.mem_moves (mem_filter.mpr ⟨hm, decide_eq_true hself⟩)).1

/-- Running the sequence has the effect of running all moves at once: every destination gets what its
source held at first, and nothing else but the temporary location changes. No location is moved to
itself, each move that is needed writes its destination once, and the temporary location is written
once for each cycle. -/
theorem sequentialize_runs_at_once (hdst : (moves.map WordMove.dst).Nodup)
    (htemp : ∀ m ∈ moves, m.src ≠ temp ∧ m.dst ≠ temp) (σ : WordLoc → α) :
    (∀ m ∈ moves, run σ (sequentialize moves temp) m.dst = σ m.src) ∧
    (∀ l, l ≠ temp → (∀ m ∈ moves, m.dst ≠ l) → run σ (sequentialize moves temp) l = σ l) ∧
    (∀ m ∈ sequentialize moves temp, m.src ≠ m.dst) ∧
    (∀ m ∈ moves, m.src ≠ m.dst → ((sequentialize moves temp).map WordMove.dst).count m.dst = 1) ∧
    (∀ m ∈ sequentialize moves temp, m.dst = temp ∨ ∃ m' ∈ moves, m'.src ≠ m'.dst ∧ m'.dst = m.dst) ∧
    ((sequentialize moves temp).map WordMove.dst).count temp = (cycles moves).ncard := by
  obtain ⟨hrun, hwrites⟩ := run_sequentialize hdst htemp σ
  obtain ⟨s, hs, hout⟩ := finished_sequentialize hdst htemp σ
  rw [← hout] at hrun hwrites ⊢
  refine ⟨hrun, fun l hl hmoves => ?_, hs.proper, fun m hm hne => ?_, hwrites, ?_⟩
  · apply run_of_not_mem
    intro m hm heq
    rcases hwrites m hm with heq' | ⟨m', hm', _, heq'⟩
    · exact hl (heq.symm.trans heq')
    · exact hmoves m' hm' (heq'.trans heq)
  · exact (hs.mem_moves (List.mem_filter.mpr ⟨hm, decide_eq_true hne⟩)).2
  · rw [← cycles_filter]
    exact hs.count_temp

def rotations : List WordMove :=
  [⟨.reg 0, .reg 1⟩, ⟨.reg 1, .reg 2⟩, ⟨.reg 2, .reg 0⟩, ⟨.reg 0, .reg 3⟩, ⟨.imm 7, .reg 4⟩,
    ⟨.stack (.spill 0), .reg 5⟩, ⟨.reg 5, .stack (.spill 0)⟩, ⟨.reg 6, .reg 6⟩]

theorem rotations_run_at_once : (rotations.map WordMove.dst).Nodup ∧
    (∀ m ∈ rotations, m.src ≠ .reg .ip1 ∧ m.dst ≠ .reg .ip1) ∧
    (∀ m ∈ rotations, run id (sequentialize rotations (.reg .ip1)) m.dst = m.src) ∧
    (cycles rotations).ncard = 2 := by
  have hdst : (rotations.map WordMove.dst).Nodup := by decide
  have htemp : ∀ m ∈ rotations, m.src ≠ .reg .ip1 ∧ m.dst ≠ .reg .ip1 := by decide
  have hcount : ((sequentialize rotations (.reg .ip1)).map WordMove.dst).count (.reg .ip1) = 2 := by
    decide +kernel
  obtain ⟨hrun, -, -, -, -, hcycles⟩ := sequentialize_runs_at_once hdst htemp id
  exact ⟨hdst, htemp, hrun, hcycles.symm.trans hcount⟩

end SsaCodegen.Moves
