import SsaCodegen.Proofs.Flow

/-! Reverse postorder lists every reachable block once. It starts with the entry, and every other
block follows one of its predecessors. -/

namespace SsaCodegen.Func

open List

variable {f : Func} {w w' : Walk} {b : BlockId}

/-- The walk over `b` and all that it leads to, as a recursion. Each nested call enters a new block, so `fuel`
need not exceed the number of blocks. -/
def walk (f : Func) : Nat → BlockId → Walk → Walk
  | 0, _, w => w
  | fuel + 1, b, w =>
    if b ∈ w.seen then w
    else
      let w := (f.block b).succs.foldl (fun w s => f.walk fuel s w) { w with seen := b :: w.seen }
      { w with left := b :: w.left }

/-- What a depth-first walk from the blocks in `roots` adds to `w`: blocks that were not seen before,
with all their successors seen, each a root or behind one of its predecessors. A successor that was new and
is not behind its block was being walked over at the time, so it leads there. -/
structure Explored (f : Func) (roots : List BlockId) (w w' : Walk) (new : List BlockId) : Prop where
  left : w'.left = new ++ w.left
  seen : ∀ x, x ∈ w'.seen ↔ x ∈ new ∨ x ∈ w.seen
  nodup : new.Nodup
  unseen : ∀ x ∈ new, x ∉ w.seen
  roots_seen : ∀ r ∈ roots, r ∈ w'.seen
  leads : ∀ x ∈ new, ∃ r ∈ roots, Leads (fun b => (f.block b).succs) r x
  closed : ∀ x ∈ new, ∀ y ∈ (f.block x).succs, y ∈ w'.seen
  behind : ∀ pre x post, new = pre ++ x :: post → x ∈ roots ∨ ∃ p ∈ pre, x ∈ (f.block p).succs
  back : ∀ pre x post, new = pre ++ x :: post → ∀ y ∈ (f.block x).succs,
    y ∈ post ∨ y ∈ w.seen ∨ Leads (fun b => (f.block b).succs) y x

theorem Explored.nil {roots : List BlockId} (h : ∀ r ∈ roots, r ∈ w.seen) : Explored f roots w w [] where
  left := rfl
  seen x := ⟨.inr, fun h => h.resolve_left not_mem_nil⟩
  nodup := nodup_nil
  unseen _ h := absurd h not_mem_nil
  roots_seen := h
  leads _ h := absurd h not_mem_nil
  closed _ h := absurd h not_mem_nil
  behind pre x post h := absurd h (by simp)
  back pre x post h := absurd h (by simp)

theorem Explored.append {rs rs' : List BlockId} {w'' : Walk} {new new' : List BlockId}
    (h : Explored f rs w w' new) (h' : Explored f rs' w' w'' new') :
    Explored f (rs ++ rs') w w'' (new' ++ new) where
  left := by rw [h'.left, h.left, append_assoc]
  seen := by grind [h.seen, h'.seen]
  nodup := nodup_append.mpr ⟨h'.nodup, h.nodup, fun x hx y => by grind [h.seen x, h'.unseen x]⟩
  unseen x := by grind [h.seen x, h.unseen x, h'.unseen x]
  roots_seen := by grind [h.roots_seen, h'.roots_seen, h'.seen]
  leads := by grind [h.leads, h'.leads]
  closed := by grind [h.closed, h'.closed, h'.seen]
  behind pre x post hsplit := by
    rcases append_eq_append_iff.mp hsplit with ⟨mid, rfl, hmid⟩ | ⟨mid, hmid, hpost⟩
    · grind [h.behind mid x post hmid]
    · cases mid with
      | nil => grind [h.behind [] x post hpost.symm]
      | cons y mid => grind [h'.behind pre x mid]
  back pre x post hsplit y hy := by
    rcases append_eq_append_iff.mp hsplit with ⟨mid, rfl, hmid⟩ | ⟨mid, hmid, hpost⟩
    · exact h.back mid x post hmid y hy
    · cases mid with
      | nil => exact h.back [] x post hpost.symm y hy
      | cons z mid => grind [h'.back pre x mid, h.seen y]

def unseen (f : Func) (w : Walk) : Nat := (f.blockIds.filter (· ∉ w.seen)).length

theorem unseen_le (h : ∀ x ∈ w.seen, x ∈ w'.seen) : f.unseen w' ≤ f.unseen w := by
  refine List.Sublist.length_le (monotone_filter_right _ fun x hx => ?_)
  simp only [decide_eq_true_eq] at hx ⊢
  exact fun hw => hx (h x hw)

theorem unseen_cons (hb : b < f.blocks.size) (hnew : b ∉ w.seen) :
    f.unseen { w with seen := b :: w.seen } < f.unseen w := by
  have hsub : f.blockIds.filter (· ∉ b :: w.seen) = (f.blockIds.filter (· ∉ w.seen)).erase b := by
    have hnodup : (f.blockIds.filter (· ∉ w.seen)).Nodup := nodup_range.filter _
    rw [hnodup.erase_eq_filter, filter_filter]
    refine filter_congr fun x _ => ?_
    rw [Bool.eq_iff_iff]
    simp [not_or]
  have hmem : b ∈ f.blockIds.filter (· ∉ w.seen) := mem_filter.mpr ⟨mem_range.mpr hb, by simpa using hnew⟩
  rw [unseen, hsub, length_erase_of_mem hmem]
  exact Nat.sub_lt (length_pos_of_mem hmem) Nat.one_pos

/-- A walk with enough fuel explores what `b` leads to, and more fuel changes nothing. -/
theorem walk_explored : ∀ (fuel : Nat) (b : BlockId) (w : Walk), f.unseen w < fuel →
    f.walk (fuel + 1) b w = f.walk fuel b w ∧
      ∃ new, Explored f [b] w (f.walk fuel b w) new ∧ (b ∉ w.seen → new.head? = some b) := by
  intro fuel
  induction fuel with
  | zero => exact fun b w h => absurd h (Nat.not_lt_zero _)
  | succ fuel ih =>
    intro b w hfuel
    rw [walk, walk]
    by_cases hseen : b ∈ w.seen
    · rw [if_pos hseen, if_pos hseen]
      exact ⟨rfl, [], .nil fun r hr => mem_singleton.mp hr ▸ hseen, fun h => absurd hseen h⟩
    · rw [if_neg hseen, if_neg hseen]
      -- the successors in turn
      have hfold : ∀ (ss : List BlockId) (w1 : Walk), (ss ≠ [] → f.unseen w1 < fuel) →
          ss.foldl (fun w s => f.walk (fuel + 1) s w) w1 = ss.foldl (fun w s => f.walk fuel s w) w1 ∧
            ∃ new, Explored f ss w1 (ss.foldl (fun w s => f.walk fuel s w) w1) new := by
        intro ss
        induction ss with
        | nil => exact fun w1 _ => ⟨rfl, [], .nil (forall_mem_nil _)⟩
        | cons s ss ihs =>
          intro w1 hf1
          replace hf1 := hf1 (cons_ne_nil s ss)
          obtain ⟨heq1, new1, h1, -⟩ := ih s w1 hf1
          have hf2 : f.unseen (f.walk fuel s w1) < fuel :=
            (unseen_le fun x hx => (h1.seen x).mpr (.inr hx)).trans_lt hf1
          obtain ⟨heq2, new2, h2⟩ := ihs _ fun _ => hf2
          rw [foldl_cons, foldl_cons, heq1]
          exact ⟨heq2, new2 ++ new1, h1.append h2⟩
      obtain ⟨heq, new, hnew⟩ := hfold (f.block b).succs { w with seen := b :: w.seen } fun hsuccs => by
        -- a block that does not exist has no successors
        have hb : b < f.blocks.size := by
          by_contra hge
          rw [block_eq_default f (not_lt.mp hge)] at hsuccs
          exact hsuccs rfl
        have hless := unseen_cons hb hseen
        omega
      have hbnew : b ∉ new := fun h => hnew.unseen b h mem_cons_self
      have hleads : ∀ x ∈ new, Leads (fun b => (f.block b).succs) b x := fun x hx => by
        obtain ⟨r, hr, hrx⟩ := hnew.leads x hx
        exact .head hr hrx
      refine ⟨by rw [heq], b :: new, ⟨?_, ?_, nodup_cons.mpr ⟨hbnew, hnew.nodup⟩, ?_, ?_, ?_, ?_, ?_, ?_⟩,
        fun _ => rfl⟩
      · rw [cons_append, ← hnew.left]
      · grind [hnew.seen]
      · grind [hnew.unseen]
      · grind [hnew.seen]
      · intro x hx
        rcases mem_cons.mp hx with rfl | hx
        · exact ⟨x, mem_cons_self, .refl⟩
        · exact ⟨b, mem_cons_self, hleads x hx⟩
      · grind [hnew.roots_seen, hnew.closed]
      · intro pre x post hsplit
        cases pre with
        | nil => grind
        | cons p pre => grind [hnew.behind pre x post]
      · intro pre x post hsplit y hy
        cases pre with
        | nil =>
          have hself : Leads (fun b => (f.block b).succs) b b := .refl
          grind [hnew.seen y, hnew.roots_seen y]
        | cons p pre => grind [hnew.back pre x post]

/-- With as much fuel as there are blocks, the recursion unfolds without end. -/
theorem walk_eq (f : Func) (b : BlockId) (w : Walk) : f.walk (f.blocks.size + 1) b w = if b ∈ w.seen then w else
    f.depthFirst.leave ((f.block b).succs.foldl (fun w s => f.walk (f.blocks.size + 1) s w)
      (f.depthFirst.enter w b)) b none := by
  have hfuel : f.unseen w < f.blocks.size + 1 :=
    Nat.lt_succ_of_le ((length_filter_le ..).trans (by rw [blockIds, length_range]))
  rw [← (f.walk_explored _ b w hfuel).1, walk]
  rfl

/-- What the frames on the stack of the search have still to do. -/
def finish (f : Func) (frames : List (BlockId × Nat)) (w : Walk) : Walk :=
  frames.foldl (fun w x => f.depthFirst.leave
    (((f.block x.1).succs.drop x.2).foldl (fun w s => f.walk (f.blocks.size + 1) s w) w) x.1 none) w

/-- The search with a stack is the recursion: what the stack has still to do stays the same through every move. -/
theorem explore_eq_walk (f : Func) : f.depthFirst.explore (f.entry :: f.targets) ⟨[], []⟩ f.entry =
    f.walk (f.blocks.size + 1) f.entry ⟨[], []⟩ := by
  have hkeeps : f.depthFirst.Keeps (f.entry :: f.targets) Walk.seen fun frames w =>
      f.finish frames w = f.walk (f.blocks.size + 1) f.entry ⟨[], []⟩ := by
    have hcons : ∀ {v k s w}, (f.block v).succs[k]? = some s →
        ((f.block v).succs.drop k).foldl (fun w s => f.walk (f.blocks.size + 1) s w) w =
          ((f.block v).succs.drop (k + 1)).foldl (fun w s => f.walk (f.blocks.size + 1) s w)
            (f.walk (f.blocks.size + 1) s w) := by
      intro v k s w hs
      obtain ⟨hlt, rfl⟩ := List.getElem?_eq_some_iff.mp hs
      rw [drop_eq_getElem_cons hlt, foldl_cons]
    refine ⟨fun v k rest w s h hs hnew => ?_, fun v k rest w s h hs hold => ⟨fun x => Iff.rfl, ?_⟩,
      fun v k rest w h hk => ⟨fun x => Iff.rfl, ?_⟩⟩
    · replace hnew : s ∉ w.seen := of_decide_eq_true hnew
      refine ⟨mem_cons_of_mem _ (mem_flatMap.mpr ⟨v, ?_, mem_of_getElem? hs⟩), hnew, fun x => Iff.rfl, ?_⟩
      · exact mem_range.mpr (lt_of_mem_succs (mem_of_getElem? hs))
      · rw [← h, finish, finish, foldl_cons, foldl_cons, foldl_cons, hcons hs, walk_eq, if_neg hnew]
        rfl
    · replace hold : s ∈ w.seen := not_not.mp (of_decide_eq_false hold)
      rw [← h, finish, finish, foldl_cons, foldl_cons, hcons hs, walk_eq, if_pos hold]
      rfl
    · have hnil : (f.block v).succs.drop k = [] := drop_eq_nil_of_le (getElem?_eq_none_iff.mp hk)
      rw [← h, finish, finish, foldl_cons, hnil]
      rfl
  refine hkeeps.explore mem_cons_self not_mem_nil (fun x => Iff.rfl) ?_
  rw [walk_eq, if_neg not_mem_nil]
  rfl

theorem explored (f : Func) : ∃ w, Explored f [f.entry] ⟨[], []⟩ w f.reversePostorder ∧
    f.reversePostorder.head? = some f.entry := by
  obtain ⟨-, new, hnew, hhead⟩ := f.walk_explored (f.blocks.size + 1) f.entry ⟨[], []⟩
    (Nat.lt_succ_of_le (by simp [unseen, blockIds]))
  have hrpo : f.reversePostorder = new := by rw [reversePostorder, explore_eq_walk, hnew.left, append_nil]
  rw [hrpo]
  exact ⟨_, hnew, hhead not_mem_nil⟩

theorem reversePostorder_nodup (f : Func) : f.reversePostorder.Nodup := by
  obtain ⟨w, hw, -⟩ := f.explored
  exact hw.nodup

theorem reversePostorder_head (f : Func) : f.reversePostorder.head? = some f.entry := by
  obtain ⟨w, -, hhead⟩ := f.explored
  exact hhead

theorem mem_reversePostorder_iff : b ∈ f.reversePostorder ↔ f.Reachable b := by
  obtain ⟨w, hw, -⟩ := f.explored
  have hseen : ∀ x, x ∈ w.seen ↔ x ∈ f.reversePostorder := by
    intro x
    rw [hw.seen]
    simp
  constructor
  · intro hb
    obtain ⟨r, hr, hleads⟩ := hw.leads b hb
    rwa [mem_singleton.mp hr] at hleads
  · intro hb
    induction hb with
    | refl => exact (hseen _).mp (hw.roots_seen _ mem_cons_self)
    | tail _ hcd ih => exact (hseen _).mp (hw.closed _ ih _ hcd)

theorem Flow.mem_reversePostorder (hf : f.Flow) : b ∈ f.reversePostorder ↔ b < f.blocks.size :=
  mem_reversePostorder_iff.trans ⟨hf.lt, hf.reachable b⟩

theorem exists_earlier_pred {pre post : List BlockId} (h : f.reversePostorder = pre ++ b :: post)
    (hb : b ≠ f.entry) : ∃ p ∈ pre, b ∈ (f.block p).succs := by
  obtain ⟨w, hw, -⟩ := f.explored
  rcases hw.behind pre b post h with hr | hp
  · exact absurd (mem_singleton.mp hr) hb
  · exact hp

/-- A successor that does not come later leads back. -/
theorem leads_back {pre post : List BlockId} (h : f.reversePostorder = pre ++ b :: post) {c : BlockId}
    (hc : c ∈ (f.block b).succs) (hnot : c ∉ post) : Leads (fun b => (f.block b).succs) c b := by
  obtain ⟨w, hw, -⟩ := f.explored
  exact ((hw.back pre b post h c hc).resolve_left hnot).resolve_left not_mem_nil

theorem walk_of_lt {fuel : Nat} (h : f.blocks.size < fuel) :
    f.walk fuel f.entry ⟨[], []⟩ = f.walk (f.blocks.size + 1) f.entry ⟨[], []⟩ := by
  induction fuel, h using Nat.le_induction with
  | base => rfl
  | succ fuel hle ih =>
    refine (f.walk_explored fuel f.entry ⟨[], []⟩ ?_).1.trans ih
    exact lt_of_le_of_lt (by simp [unseen, blockIds]) hle

variable {g : Func}

theorem SameGraph.reversePostorder (hg : f.SameGraph g) : g.reversePostorder = f.reversePostorder := by
  simp only [Func.reversePostorder, depthFirst, targets, blockIds, hg.succs, hg.size, hg.entry]

end SsaCodegen.Func
