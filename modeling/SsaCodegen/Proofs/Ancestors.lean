import SsaCodegen.Proofs.Reach
import SsaCodegen.Ssa.Dominators

/-! Trees of blocks. Every parent ranks below its children, so the way up ends at the entry. -/

namespace SsaCodegen.DomTree

open List

/-- `a` is `b`, its parent, or further up. -/
inductive Above (t : DomTree) : BlockId → BlockId → Prop
  | refl (b : BlockId) : Above t b b
  | up {a b d : BlockId} : t.idom? b = some d → Above t a d → Above t a b

/-- Every parent is in the tree and ranks below its children. -/
structure Ranked (t : DomTree) (rank : BlockId → Nat) : Prop where
  root : t.idom? t.entry = none
  parent : ∀ b d, t.idom? b = some d → t.isReachable d ∧ rank d < rank b
  bound : ∀ b d, t.idom? b = some d → rank b ≤ t.idoms.size

variable {t : DomTree} {rank : BlockId → Nat} {a b c d : BlockId}

theorem isReachable_iff : t.isReachable b ↔ b = t.entry ∨ ∃ d, t.idom? b = some d := by
  rw [isReachable, Bool.or_eq_true, beq_iff_eq, Option.isSome_iff_exists]

theorem Above.trans (hab : t.Above a b) (hbc : t.Above b c) : t.Above a c := by
  induction hbc with
  | refl => exact hab
  | up hd _ ih => exact .up hd ih

theorem Above.total (ha : t.Above a c) (hb : t.Above b c) : t.Above a b ∨ t.Above b a := by
  induction ha with
  | refl => exact .inr hb
  | @up c d hd hup ih =>
    cases hb with
    | refl => exact .inl (.up hd hup)
    | up hd' hb => grind

theorem Above.cases_up (h : t.Above a b) : a = b ∨ ∃ d, t.idom? b = some d ∧ t.Above a d := by
  cases h with
  | refl => exact .inl rfl
  | up hd h => exact .inr ⟨_, hd, h⟩

section

variable (ht : t.Ranked rank)

include ht

theorem Above.rank_le (h : t.Above a b) : rank a ≤ rank b := by
  induction h with
  | refl => exact le_rfl
  | up hd _ ih =>
    have hlt := (ht.parent _ _ hd).2
    omega

theorem Above.eq_of_rank_le (h : t.Above a b) (hle : rank b ≤ rank a) : a = b := by
  rcases h.cases_up with heq | ⟨d, hd, had⟩
  · exact heq
  · have hup := had.rank_le ht
    have hlt := (ht.parent _ _ hd).2
    omega

theorem Above.isReachable (h : t.Above a b) (hb : t.isReachable b) : t.isReachable a := by
  induction h with
  | refl => exact hb
  | up hd _ ih => exact ih (ht.parent _ _ hd).1

theorem Ranked.entry_above (hb : t.isReachable b) : t.Above t.entry b := by
  induction hr : rank b using Nat.strongRecOn generalizing b with
  | ind n ih =>
    rcases isReachable_iff.mp hb with rfl | ⟨d, hd⟩
    · exact .refl _
    · obtain ⟨hin, hlt⟩ := ht.parent b d hd
      exact .up hd (ih (rank d) (by omega) hin rfl)

omit ht in
theorem above_of_mem_ancestorsWithin {fuel : Nat} (h : a ∈ t.ancestorsWithin fuel b) : t.Above a b := by
  induction fuel generalizing b with
  | zero => cases h
  | succ fuel ih =>
    rcases mem_cons.mp h with rfl | h
    · exact .refl _
    · split at h
      · cases h
      · next d hd => exact .up hd (ih h)

theorem Ranked.mem_ancestors : a ∈ t.ancestors b ↔ t.Above a b := by
  have hall : ∀ fuel b, (∀ d, t.idom? b = some d → rank b < fuel) → 0 < fuel →
      t.Above a b → a ∈ t.ancestorsWithin fuel b := by
    intro fuel
    induction fuel with
    | zero => exact fun _ _ h => absurd h (by decide)
    | succ fuel ih =>
      intro b hfuel _ h
      rcases h.cases_up with rfl | ⟨d, hd, had⟩
      · exact mem_cons_self
      · rw [ancestorsWithin, hd]
        have hlt := (ht.parent b d hd).2
        have hb := hfuel d hd
        exact mem_cons_of_mem b (ih d (fun _ _ => by omega) (by omega) had)
  refine ⟨above_of_mem_ancestorsWithin, hall _ b (fun d hd => ?_) (Nat.succ_pos _)⟩
  have hle := ht.bound b d hd
  omega

end

/-- A block is so many steps below the entry. -/
inductive Deep (t : DomTree) : BlockId → Nat → Prop
  | entry : Deep t t.entry 0
  | up {b d : BlockId} {n : Nat} : t.idom? b = some d → Deep t d n → Deep t b (n + 1)

theorem Deep.parent {n : Nat} (h : t.Deep a (n + 1)) : t.idom? a = some (t.parent a) ∧ t.Deep (t.parent a) n := by
  cases h with
  | up hd h =>
    rw [DomTree.parent, hd]
    exact ⟨rfl, h⟩

/-- What is above two blocks is above the parent of the one that is not above the other. -/
theorem above_parent_iff (hd : t.idom? a = some d) (hab : ¬t.Above a b) :
    t.Above c a ∧ t.Above c b ↔ t.Above c d ∧ t.Above c b := by
  refine ⟨fun h => ?_, fun h => ⟨.up hd h.1, h.2⟩⟩
  grind [h.1.cases_up]

section

variable (ht : t.Ranked rank)

include ht

theorem Ranked.deep {fuel : Nat} (hb : t.isReachable b) (hfuel : ∀ d, t.idom? b = some d → rank b < fuel) :
    t.Deep b (t.depthIn fuel b) := by
  induction fuel generalizing b with
  | zero =>
    rcases isReachable_iff.mp hb with rfl | ⟨d, hd⟩
    · exact .entry
    · exact absurd (hfuel d hd) (Nat.not_lt_zero _)
  | succ fuel ih =>
    rw [depthIn]
    split
    · next heq => exact heq ▸ .entry
    · next hne =>
      obtain ⟨d, hd⟩ := (isReachable_iff.mp hb).resolve_left hne
      obtain ⟨hin, hlt⟩ := ht.parent b d hd
      have hle := hfuel d hd
      rw [DomTree.parent, hd]
      exact .up hd (ih hin fun _ _ => by omega)

theorem Deep.unique {m n : Nat} (hm : t.Deep b m) (hn : t.Deep b n) : m = n := by
  induction hm generalizing n with
  | entry => cases hn <;> grind [ht.root]
  | up hd _ ih => cases hn <;> grind [ht.root]

theorem Above.eq_or_deep_lt {m n : Nat} (h : t.Above a b) (ha : t.Deep a m) (hb : t.Deep b n) : a = b ∨ m < n := by
  induction h generalizing n with
  | refl => exact .inl rfl
  | up hd _ ih => cases hb <;> grind [ht.root, ha.unique ht]

/-- Lifting the deeper of two blocks changes nothing about what is above both. -/
theorem Ranked.above_lift {n m : Nat} (hb : t.Deep b m) (hle : m ≤ n) : ∀ {k : Nat} {a : BlockId}, t.Deep a (n + k) →
    t.Deep (t.lift k a) n ∧ (t.Above c (t.lift k a) ∧ t.Above c b ↔ t.Above c a ∧ t.Above c b) := by
  intro k
  induction k with
  | zero => exact fun ha => ⟨ha, Iff.rfl⟩
  | succ k ih =>
    intro a ha
    obtain ⟨hd, hdeep⟩ := ha.parent
    obtain ⟨hlift, hiff⟩ := ih hdeep
    refine ⟨hlift, hiff.trans (above_parent_iff hd fun hab => ?_).symm⟩
    grind [hab.eq_or_deep_lt ht ha hb, ha.unique ht]

theorem Ranked.above_meet {n : Nat} : ∀ {fuel : Nat} {a b : BlockId}, t.Deep a n → t.Deep b n → n < fuel →
    (t.Above c (t.meet fuel a b) ↔ t.Above c a ∧ t.Above c b) := by
  induction n with
  | zero =>
    intro fuel a b ha hb hfuel
    obtain ⟨fuel, rfl⟩ := Nat.exists_eq_succ_of_ne_zero hfuel.ne'
    cases ha
    cases hb
    rw [meet, if_pos rfl, and_self]
  | succ n ih =>
    intro fuel a b ha hb hfuel
    obtain ⟨fuel, rfl⟩ := Nat.exists_eq_succ_of_ne_zero (Nat.ne_zero_of_lt hfuel)
    rw [meet]
    split
    · next heq => rw [heq, and_self]
    · next hne =>
      obtain ⟨hda, ha'⟩ := ha.parent
      obtain ⟨hdb, hb'⟩ := hb.parent
      have hab : ¬t.Above a b := fun h => (h.eq_or_deep_lt ht ha hb).elim hne (lt_irrefl _)
      have hba : ¬t.Above b (t.parent a) := fun h => by grind [h.eq_or_deep_lt ht hb ha', hb.unique ht]
      rw [ih ha' hb' (Nat.lt_of_succ_lt_succ hfuel), and_comm, ← above_parent_iff hdb hba, and_comm,
        ← above_parent_iff hda hab]

/-- Above the nearest common ancestor is what is above both. -/
theorem Ranked.above_nearestCommon (ha : t.isReachable a) (hb : t.isReachable b) :
    t.Above c (t.nearestCommon a b) ↔ t.Above c a ∧ t.Above c b := by
  have hfuel : ∀ b d, t.idom? b = some d → rank b < t.idoms.size + 1 := fun b d hd =>
    Nat.lt_succ_of_le (ht.bound b d hd)
  have hda := ht.deep ha (hfuel a)
  have hdb := ht.deep hb (hfuel b)
  rw [nearestCommon]
  generalize t.depthIn (t.idoms.size + 1) a = m at hda ⊢
  generalize t.depthIn (t.idoms.size + 1) b = n at hdb ⊢
  rcases Nat.le_total n m with hle | hle
  · obtain ⟨k, rfl⟩ := Nat.exists_eq_add_of_le hle
    obtain ⟨hlift, hiff⟩ := ht.above_lift (c := c) hdb le_rfl hda
    rw [Nat.add_sub_cancel_left, Nat.sub_eq_zero_of_le hle, lift, ht.above_meet hlift hdb (by omega), hiff]
  · obtain ⟨k, rfl⟩ := Nat.exists_eq_add_of_le hle
    obtain ⟨hlift, hiff⟩ := ht.above_lift (c := c) hda le_rfl hdb
    rw [Nat.add_sub_cancel_left, Nat.sub_eq_zero_of_le hle, lift, ht.above_meet hda hlift (by omega), and_comm, hiff,
      and_comm]

theorem Ranked.isReachable_nearestCommon (ha : t.isReachable a) (hb : t.isReachable b) :
    t.isReachable (t.nearestCommon a b) :=
  ((ht.above_nearestCommon ha hb).mp (.refl _)).1.isReachable ht ha

theorem Ranked.parentOf? {f : Func} : (t.parentOf? f b = none ∧
      ∀ q ∈ (f.block b).preds, t.isReachable q ≠ true) ∨ ∃ d, t.parentOf? f b = some d ∧ t.isReachable d ∧
      ∀ a, t.Above a d ↔ ∀ q ∈ (f.block b).preds, t.isReachable q → t.Above a q := by
  have hfold : ∀ (rest : List BlockId) p, t.isReachable p → (∀ q ∈ rest, t.isReachable q) →
      t.isReachable (rest.foldl (fun d q => t.nearestCommon q d) p) ∧
      ∀ a, t.Above a (rest.foldl (fun d q => t.nearestCommon q d) p) ↔ t.Above a p ∧ ∀ q ∈ rest, t.Above a q := by
    intro rest
    induction rest with
    | nil => exact fun p hp _ => ⟨hp, fun a => by simp⟩
    | cons q rest ih =>
      intro p hp hrest
      have hq := hrest q mem_cons_self
      obtain ⟨hin, habove⟩ := ih (t.nearestCommon q p) (ht.isReachable_nearestCommon hq hp)
        fun r hr => hrest r (mem_cons_of_mem q hr)
      grind [ht.above_nearestCommon hq hp]
  rw [DomTree.parentOf?]
  cases hpreds : (f.block b).preds.filter t.isReachable with
  | nil => exact .inl ⟨rfl, filter_eq_nil_iff.mp hpreds⟩
  | cons p rest =>
    have hmem : ∀ q, q ∈ p :: rest ↔ q ∈ (f.block b).preds ∧ t.isReachable q := by
      intro q
      rw [← hpreds, mem_filter]
    obtain ⟨hin, habove⟩ := hfold rest p ((hmem p).mp mem_cons_self).2
      fun q hq => ((hmem q).mp (mem_cons_of_mem p hq)).2
    refine .inr ⟨_, rfl, hin, fun a => (habove a).trans ?_⟩
    grind

end

namespace Clock

variable (s : Clock) (b x : BlockId)

theorem lookup_cons_eq (n : Nat) (l : List (BlockId × Nat)) :
    ((b, n) :: l).lookup x = if x = b then some n else l.lookup x := by grind

@[grind =] theorem entered?_enter : (s.enter b).entered? x = if x = b then some s.time else s.entered? x :=
  lookup_cons_eq ..

@[grind =] theorem left?_enter : (s.enter b).left? x = s.left? x := rfl

@[grind =] theorem entered?_leave : (s.leave b).entered? x = s.entered? x := rfl

@[grind =] theorem left?_leave : (s.leave b).left? x = if x = b then some s.time else s.left? x := lookup_cons_eq ..

@[grind =] theorem time_enter : (s.enter b).time = s.time + 1 := rfl

@[grind =] theorem time_leave : (s.leave b).time = s.time + 1 := rfl

end Clock

/-- The order of a tree starts with its entry and lists every block once. -/
structure Listed (t : DomTree) : Prop where
  head : t.order = t.entry :: t.order.tail
  nodup : t.order.Nodup
  all : ∀ b d, t.idom? b = some d → b ∈ t.order

/-- How far the tour of a tree has come: blocks on the stack have been entered and not left, and of each the
children up to the one in turn. Of two blocks that have been entered the earlier one is above the later one or
has been left before. -/
structure Touring (t : DomTree) (frames : List (BlockId × Nat)) (s : Clock) : Prop where
  times : ∀ b n, s.entered? b = some n ∨ s.left? b = some n → n < s.time
  stacked : ∀ b, b ∈ frames.map Prod.fst ↔ s.entered? b ≠ none ∧ s.left? b = none
  chain : (frames.map Prod.fst).Pairwise fun x y => t.Above y x ∧ y ≠ x
  entered : ∀ b k, (b, k) ∈ frames → ∀ i c, (t.children b)[i]? = some c → (s.entered? c ≠ none ↔ i < k)
  root : s.entered? t.entry ≠ none
  inside : ∀ b, s.entered? b ≠ none → t.isReachable b = true
  before : ∀ c d n, t.idom? c = some d → s.entered? c = some n → ∃ m, s.entered? d = some m ∧ m < n
  after : ∀ b n, s.left? b = some n → (∃ m, s.entered? b = some m ∧ m < n) ∧
    ∀ c, t.idom? c = some b → ∃ m, s.left? c = some m ∧ m < n
  apart : ∀ a b m n, s.entered? a = some m → s.entered? b = some n → m ≤ n →
    t.Above a b ∨ ∃ k, s.left? a = some k ∧ k < n

theorem Listed.mem_children (hl : t.Listed) (ht : t.Ranked rank) : c ∈ t.children b ↔ t.idom? c = some b := by
  rw [children, mem_filter, beq_iff_eq, and_iff_right_iff_imp]
  intro hc
  have hmem := hl.all c b hc
  rw [hl.head] at hmem
  refine (mem_cons.mp hmem).resolve_left ?_
  rintro rfl
  exact Option.some_ne_none _ (hc.symm.trans ht.root)

section

variable (ht : t.Ranked rank) (hl : t.Listed)

include ht hl

theorem Touring.start : t.Touring [(t.entry, 0)] (Clock.enter {} t.entry) := by
  have hempty : ∀ b, Clock.entered? {} b = none ∧ Clock.left? {} b = none := fun _ => ⟨rfl, rfl⟩
  have hroot := ht.root
  refine ⟨by grind, by grind, pairwise_singleton _ _, fun b k hb i c hc => ?_, by grind, fun b => ?_, by grind,
    by grind, fun a b m n => ?_⟩
  · have := (hl.mem_children ht).mp (mem_of_getElem? hc)
    grind
  · grind [isReachable_iff]
  · have := Above.refl (t := t) b
    grind

variable {frames rest : List (BlockId × Nat)} {s : Clock} {v w : BlockId} {k : Nat}

/-- A child is entered for the first time, and its time is the latest. -/
theorem Touring.enter (h : t.Touring ((v, k) :: rest) s) (hw : (t.children v)[k]? = some w) :
    s.entered? w = none ∧ t.Touring ((w, 0) :: (v, k + 1) :: rest) (s.enter w) := by
  have hidom := (hl.mem_children ht).mp (mem_of_getElem? hw)
  have hlt := (ht.parent w v hidom).2
  have habove := Above.up hidom (.refl v)
  have hnew : s.entered? w = none := by
    have := h.entered v k mem_cons_self k w hw
    grind
  have hopen : s.left? w = none := by
    have := h.after w
    cases hn : s.left? w <;> grind
  have hv := (h.stacked v).mp mem_cons_self
  have hrest := fun y hy => (h.stacked y).mp (mem_cons_of_mem v hy)
  obtain ⟨hchain, hpairs⟩ := pairwise_cons.mp h.chain
  refine ⟨hnew, ?_, ?_, ?_, ?_, ?_, ?_, ?_, ?_, ?_⟩
  · intro b n
    have := h.times b n
    grind
  · grind [h.stacked]
  · refine pairwise_cons.mpr ⟨forall_mem_cons.mpr ⟨⟨habove, ?_⟩, fun y hy =>
      ⟨(hchain y hy).1.trans habove, ?_⟩⟩, h.chain⟩
    · grind
    · have := hrest y hy
      grind
  · intro b j hb i c hc
    have hcb := (hl.mem_children ht).mp (mem_of_getElem? hc)
    have hlower := (ht.parent c b hcb).2
    have hparent := h.before c b
    rcases mem_cons.mp hb with heq | hb
    · cases hn : s.entered? c <;> grind
    have hold := h.entered b
    rcases mem_cons.mp hb with heq | hmem
    · have hnodup : (t.children b).Nodup := (hl.nodup.sublist (tail_sublist _)).filter _
      have hik : b = v → c = w → i = k := by
        rintro rfl rfl
        exact (List.getElem?_inj (List.getElem?_eq_some_iff.mp hc).1 hnodup).mp (hc.trans hw.symm)
      grind
    · have hne := (hchain b (mem_map_of_mem hmem)).2
      grind
  · grind [h.root]
  · grind [h.inside, isReachable_iff]
  · intro c d n hd
    have := h.before c d n hd
    have := h.times v
    cases hn : s.entered? v <;> grind
  · grind [h.after]
  · intro a b m n
    have hold := h.apart a b m n
    have htimes := h.times
    have hstack := h.stacked a
    have hup := fun hmem => (hchain a hmem).1.trans habove
    have hself := Above.refl (t := t) w
    cases hn : s.left? a <;> grind

/-- A block is left when all its children have been. -/
theorem Touring.leave (h : t.Touring ((v, k) :: rest) s) (hk : (t.children v)[k]? = none) :
    t.Touring rest (s.leave v) := by
  obtain ⟨hchain, hpairs⟩ := pairwise_cons.mp h.chain
  have hv := (h.stacked v).mp mem_cons_self
  -- a child has been entered, and it is not on the stack, where only `v` and what is above it are
  have hleft : ∀ c, t.idom? c = some v → s.left? c ≠ none ∧ c ≠ v := by
    intro c hc
    have hlt := (ht.parent c v hc).2
    have hne : c ≠ v := by grind
    refine ⟨fun hnone => ?_, hne⟩
    obtain ⟨i, hi⟩ := mem_iff_getElem?.mp ((hl.mem_children ht).mpr hc)
    have hik := (List.getElem?_eq_some_iff.mp hi).1.trans_le (getElem?_eq_none_iff.mp hk)
    have hmem := (h.stacked c).mpr ⟨(h.entered v k mem_cons_self i c hi).mpr hik, hnone⟩
    exact absurd ((hchain c ((mem_cons.mp hmem).resolve_left hne)).1.rank_le ht) (not_le.mpr hlt)
  refine ⟨?_, ?_, hpairs, fun b j hb => h.entered b j (mem_cons_of_mem _ hb), h.root, h.inside, h.before, ?_, ?_⟩
  · intro b n
    have := h.times b n
    grind
  · intro b
    have := fun hmem => (hchain v hmem).2
    grind [h.stacked b]
  · intro b n hb
    have hold := h.after b n
    refine ⟨?_, fun c hc => ?_⟩
    · have htime := h.times v
      cases hn : s.entered? v <;> grind
    · have htime := h.times c
      have hchild := hleft c
      cases hn : s.left? c <;> grind
  · grind [h.apart]

theorem Listed.touring : t.Touring [] (t.tour.explore t.order {} t.entry) := by
  have hkeeps : t.tour.Keeps t.order (fun s => s.pre.map Prod.fst) t.Touring := by
    refine ⟨fun v k rest s w h hw _ => ?_, fun v k rest s w h hw hold => (by cases hold),
      fun v k rest s h hk => ⟨fun x => Iff.rfl, h.leave ht hl hk⟩⟩
    obtain ⟨hnew, h'⟩ := h.enter ht hl hw
    refine ⟨hl.all w v ((hl.mem_children ht).mp (mem_of_getElem? hw)), fun hmem => ?_, fun x => Iff.rfl, h'⟩
    obtain ⟨x, hx, rfl⟩ := mem_map.mp hmem
    exact bne_iff_ne.mp (lookup_eq_none_iff.mp hnew x hx) rfl
  exact hkeeps.explore (hl.head ▸ mem_cons_self) not_mem_nil (fun x => Iff.rfl) (Touring.start ht hl)

/-- A block is entered before another one and left after it if and only if it is above. -/
theorem Listed.dominates_iff (hclock : t.clock = t.tour.explore t.order {} t.entry) :
    t.dominates a b ↔ t.isReachable a ∧ t.isReachable b ∧ t.Above a b := by
  have h := hclock ▸ hl.touring ht
  have hleft : ∀ {b}, t.isReachable b → ∃ m n, t.clock.entered? b = some m ∧ t.clock.left? b = some n := by
    intro b hb
    obtain ⟨n, hn⟩ : ∃ n, t.clock.left? b = some n := by
      induction ht.entry_above hb with
      | refl =>
        refine Option.ne_none_iff_exists'.mp fun hnone => ?_
        exact not_mem_nil ((h.stacked t.entry).mpr ⟨h.root, hnone⟩)
      | up hd _ ih =>
        obtain ⟨n, hn⟩ := ih (ht.parent _ _ hd).1
        exact ((h.after _ n hn).2 _ hd).imp fun _ => And.left
    obtain ⟨⟨m, hm, -⟩, -⟩ := h.after b n hn
    exact ⟨m, n, hm, hn⟩
  have hnest : ∀ {b m n m' n'}, t.Above a b → t.clock.entered? a = some m → t.clock.left? a = some n →
      t.clock.entered? b = some m' → t.clock.left? b = some n' → m ≤ m' ∧ n' ≤ n := by
    intro b m n m' n' hab hm hn hm' hn'
    induction hab generalizing m' n' with
    | refl => grind
    | @up b d hd _ ih =>
      obtain ⟨p, q, hp, hq⟩ := hleft (ht.parent b d hd).1
      have hpre := h.before b d m' hd hm'
      have hpost := (h.after d q hq).2 b hd
      have hup := ih hp hq
      grind
  rw [dominates]
  split
  · next m m' n n' hm hm' hn hn' =>
    rw [Bool.and_eq_true, decide_eq_true_eq, decide_eq_true_eq]
    refine ⟨fun hle => ⟨h.inside a (by grind), h.inside b (by grind), ?_⟩, fun hab => hnest hab.2.2 hm hn hm' hn'⟩
    have hpre := (h.after b n' hn').1
    have hapart := h.apart a b m m' hm hm' hle.1
    grind
  · next hnone =>
    refine iff_of_false Bool.false_ne_true fun hab => ?_
    obtain ⟨m, n, hm, hn⟩ := hleft hab.1
    obtain ⟨m', n', hm', hn'⟩ := hleft hab.2.1
    exact hnone m m' n n' hm hm' hn hn'

end

end SsaCodegen.DomTree
