import Mathlib.Data.List.Nodup
import SsaCodegen.Proofs.Reach
import SsaCodegen.Ssa.Construction.PhiGroups

/-! The strongly connected components of a group of phis. Each stands behind those that it reads. -/

namespace SsaCodegen

open List

namespace ComponentSearch

variable {next : Nat → List Nat} {nodes roots : List Nat} {t t' : ComponentSearch} {frames rest : List (Nat × Nat)}
  {stack : List Nat} {v w x k n : Nat}

def rank (t : ComponentSearch) (v : Nat) : Nat := (t.index v).getD 0

/-- An edge that has been followed from what has come back to `low`: it leads to a component, or not below. -/
def Bounded (t : ComponentSearch) (low w : Nat) : Prop :=
  w ∈ t.found.flatten ∨ t.index w ≠ none ∧ low ≤ t.rank w

/-- The nodes on the way cut the stack into the nodes that have been left since each of them was entered. These
are connected with it. -/
inductive Walk (next : Nat → List Nat) (t : ComponentSearch) : List (Nat × Nat) → List Nat → Prop
  | nil : Walk next t [] []
  | cons {v k : Nat} {rest : List (Nat × Nat)} {done below : List Nat} (link : ∀ p ∈ rest.head?, v ∈ next p.1)
      (mates : ∀ y ∈ done, Leads next v y ∧ Leads next y v)
      (back : ∃ x ∈ v :: below, Leads next v x ∧ t.rank x = t.low v)
      (edges : ∀ w ∈ (next v).take k, t.Bounded (t.low v) w)
      (bound : ∀ y ∈ done, ∀ w ∈ next y, t.Bounded (t.low v) w) (tail : Walk next t rest below) :
      Walk next t ((v, k) :: rest) (done ++ v :: below)

structure Sound (next : Nat → List Nat) (nodes roots : List Nat) (t : ComponentSearch) : Prop where
  fresh : ∀ x, t.index x ≠ none → t.rank x < t.next
  sorted : t.stack.Pairwise fun x y => t.rank y < t.rank x
  seen : ∀ x, t.index x ≠ none ↔ x ∈ t.stack ++ t.found.flatten
  onStack : ∀ x, t.onStack x ↔ x ∈ t.stack
  apart : ∀ x ∈ t.stack, x ∉ t.found.flatten
  closed : ∀ x ∈ t.found.flatten, ∀ y ∈ next x, y ∈ t.found.flatten
  classes : ∀ m ∈ t.found, m.Nodup ∧ m ≠ [] ∧ ∀ p ∈ m, ∀ q, q ∈ m ↔ Leads next p q ∧ Leads next q p
  ordered : t.found.Pairwise fun m m' => ∀ p ∈ m, ∀ q ∈ m', ¬ Leads next p q
  inside : ∀ x, t.index x ≠ none → x ∈ nodes
  rooted : ∀ x ∈ roots, t.index x ≠ none

/-- What holds throughout the search. -/
def Steady (next : Nat → List Nat) (nodes roots : List Nat) (frames : List (Nat × Nat)) (t : ComponentSearch) :
    Prop := Walk next t frames t.stack ∧ Sound next nodes roots t

theorem Walk.mem_stack (h : Walk next t frames stack) : ∀ p ∈ frames, p.1 ∈ stack := by
  induction h with
  | nil => exact forall_mem_nil _
  | cons => grind

/-- Everything on the stack leads to the node that the search is at. -/
theorem Walk.leads (h : Walk next t ((v, k) :: rest) stack) (hx : x ∈ stack) : Leads next x v := by
  generalize hframes : (v, k) :: rest = frames at h
  induction h generalizing v k rest with
  | nil => cases hframes
  | cons link mates _ _ _ tail ih =>
    cases hframes
    rcases mem_append.mp hx with hx | hx
    · exact (mates x hx).2
    · rcases mem_cons.mp hx with rfl | hx
      · exact .refl
      · cases tail with
        | nil => cases hx
        | cons => exact (ih hx rfl).tail (link _ rfl)

theorem Bounded.mono {low : Nat} (h : t.Bounded low w) (hindex : ∀ x, t.index x ≠ none → t'.index x = t.index x)
    (hfound : t.found.flatten ⊆ t'.found.flatten) : t'.Bounded low w := by
  refine h.imp (fun h => hfound h) fun ⟨h, hle⟩ => ?_
  rw [rank, hindex w h]
  exact ⟨h, hle⟩

/-- The walk is not changed by what the search does elsewhere. -/
theorem Walk.mono (h : Walk next t frames stack) (hstack : ∀ x ∈ stack, t.index x ≠ none)
    (hindex : ∀ x, t.index x ≠ none → t'.index x = t.index x)
    (hfound : t.found.flatten ⊆ t'.found.flatten) (hlow : ∀ p ∈ frames, t'.low p.1 = t.low p.1) :
    Walk next t' frames stack := by
  induction h with
  | nil => exact .nil
  | @cons v k rest done below link mates back edges bound _ ih =>
    have hv := hlow _ mem_cons_self
    obtain ⟨x, hx, hlead, hrank⟩ := back
    refine .cons link mates ⟨x, hx, hlead, ?_⟩ (fun w hw => ?_) (fun y hy w hw => ?_) (ih ?_ ?_)
    · rw [hv, rank, hindex x (hstack x (mem_append_right _ hx))]
      exact hrank
    · exact hv ▸ (edges w hw).mono hindex hfound
    · exact hv ▸ (bound y hy w hw).mono hindex hfound
    · exact fun y hy => hstack y (mem_append_right _ (mem_cons_of_mem v hy))
    · exact fun p hp => hlow p (mem_cons_of_mem _ hp)

/-- One more edge has been followed. -/
theorem Walk.follow (h : Walk next t ((v, k) :: rest) stack) (hw : (next v)[k]? = some w)
    (hbound : t.Bounded (t.low v) w) : Walk next t ((v, k + 1) :: rest) stack := by
  cases h with
  | cons link mates back edges bound tail =>
    refine .cons link mates back (fun y hy => ?_) bound tail
    rw [List.take_add_one, hw] at hy
    grind

/-- The search never comes back above the node that it is at. -/
theorem Walk.low_le (h : Walk next t ((v, k) :: rest) stack)
    (hsorted : stack.Pairwise fun x y => t.rank y < t.rank x) : t.low v ≤ t.rank v := by
  cases h with
  | cons _ _ back _ _ _ =>
    have hrest := (pairwise_cons.mp (pairwise_append.mp hsorted).2.1).1
    grind

theorem Bounded.le {low low' : Nat} (h : t.Bounded low w) (hle : low' ≤ low) : t.Bounded low' w :=
  h.imp_right (And.imp_right hle.trans)

/-- Nodes that are connected with the one that the search is at come onto the stack. -/
theorem Walk.absorb (h : Walk next t ((v, k) :: rest) stack) {done : List Nat}
    (hmates : ∀ y ∈ done, Leads next v y ∧ Leads next y v)
    (hbound : ∀ y ∈ done, ∀ w ∈ next y, t.Bounded (t.low v) w) :
    Walk next t ((v, k) :: rest) (done ++ stack) := by
  cases h with
  | cons link mates back edges bound tail =>
    rw [← append_assoc]
    exact .cons link (forall_mem_append.mpr ⟨hmates, mates⟩) back edges (forall_mem_append.mpr ⟨hbound, bound⟩) tail

theorem low_lower (t : ComponentSearch) (v n : Nat) : (t.lower v n).low v = min (t.low v) n := if_pos rfl

theorem lower_eq_self (h : t.low v ≤ n) : t.lower v n = t := by
  have hlow : (fun x => if x = v then min (t.low v) n else t.low x) = t.low := by grind
  rw [ComponentSearch.lower, hlow]

/-- The node that the search is at leads to a node on the stack, and may come back to there. -/
theorem Walk.lower (h : Walk next t ((v, k) :: rest) stack) (hstack : ∀ x ∈ stack, t.index x ≠ none)
    (hsorted : stack.Pairwise fun x y => t.rank y < t.rank x) (hx : x ∈ stack) (hlead : Leads next v x) :
    Walk next (t.lower v (t.rank x)) ((v, k) :: rest) stack := by
  by_cases hle : t.low v ≤ t.rank x
  · rwa [lower_eq_self hle]
  have hv := h.low_le hsorted
  have hlow : (t.lower v (t.rank x)).low v = t.rank x := by
    rw [low_lower, min_eq_right (Nat.le_of_not_le hle)]
  cases h with
  | @cons _ _ _ done below link mates back edges bound tail =>
    obtain ⟨-, hrest, hdone⟩ := pairwise_append.mp hsorted
    have hgt := fun y hy => hdone y hy v mem_cons_self
    have hbelow : x ∈ below := by grind
    refine .cons link mates ⟨x, mem_cons_of_mem v hbelow, hlead, hlow.symm⟩ (fun w hw => ?_)
      (fun y hy w hw => ?_) (tail.mono (fun y hy => ?_) (fun _ _ => rfl) (Subset.refl _) fun p hp => ?_)
    · exact Bounded.le (edges w hw) (hlow.le.trans (Nat.le_of_not_le hle))
    · exact Bounded.le (bound y hy w hw) (hlow.le.trans (Nat.le_of_not_le hle))
    · exact hstack y (mem_append_right _ (mem_cons_of_mem v hy))
    · have := (pairwise_cons.mp hrest).1 _ (tail.mem_stack p hp)
      exact if_neg (by rintro rfl; omega)

theorem Sound.indexed (h : Sound next nodes roots t) : ∀ x ∈ t.stack, t.index x ≠ none :=
  fun x hx => (h.seen x).mpr (mem_append_left _ hx)

theorem index_enter_of_ne (h : t.index v = none) (hx : t.index x ≠ none) : (t.enter v).index x = t.index x :=
  if_neg (by rintro rfl; exact hx h)

theorem rank_enter (t : ComponentSearch) (v : Nat) : (t.enter v).rank v = t.next :=
  congrArg (Option.getD · 0) (if_pos rfl)

theorem Sound.lower (h : Sound next nodes roots t) (v n : Nat) : Sound next nodes roots (t.lower v n) :=
  ⟨h.fresh, h.sorted, h.seen, h.onStack, h.apart, h.closed, h.classes, h.ordered, h.inside, h.rooted⟩

theorem Sound.enter (h : Sound next nodes roots t) (hv : v ∈ nodes) (hnew : t.index v = none) :
    Sound next nodes roots (t.enter v) := by
  have hfresh := h.fresh
  have hseen := h.seen
  have hindexed := h.indexed
  refine ⟨?_, ?_, ?_, ?_, ?_, h.closed, h.classes, h.ordered, ?_, ?_⟩
  · grind [rank, ComponentSearch.enter]
  · refine pairwise_cons.mpr ⟨?_, h.sorted.imp_of_mem ?_⟩ <;> grind [rank, ComponentSearch.enter]
  · grind [rank, ComponentSearch.enter]
  · grind [ComponentSearch.enter, h.onStack]
  · grind [ComponentSearch.enter, h.apart]
  · grind [ComponentSearch.enter, h.inside]
  · grind [ComponentSearch.enter, h.rooted]

theorem popTo_append {done below : List Nat} (h : v ∉ done) :
    popTo v (done ++ v :: below) = (done ++ [v], below) := by
  induction done with
  | nil => exact if_pos rfl
  | cons w done ih =>
    obtain ⟨hne, hnot⟩ := mem_cons.not.mp h |> not_or.mp
    rw [cons_append, popTo, if_neg (Ne.symm hne), ih hnot]
    rfl

theorem Sound.mem_found_of_leads (h : Sound next nodes roots t) (hx : x ∈ t.found.flatten) (hlead : Leads next x w) :
    w ∈ t.found.flatten := by
  induction hlead with
  | refl => exact hx
  | tail _ hstep ih => exact h.closed _ ih _ hstep

/-- The search has come back to nothing before `v`: what is on the stack from there on is a component. -/
theorem Sound.close {done below : List Nat} (h : Sound next nodes roots t) (hstack : t.stack = done ++ v :: below)
    (hmates : ∀ y ∈ done, Leads next v y ∧ Leads next y v)
    (hbound : ∀ y ∈ done ++ [v], ∀ w ∈ next y, t.Bounded (t.rank v) w) :
    (t.close v).stack = below ∧ t.found.flatten ⊆ (t.close v).found.flatten ∧ Sound next nodes roots (t.close v) := by
  have hsorted := h.sorted
  rw [hstack, pairwise_append, pairwise_cons] at hsorted
  obtain ⟨hsdone, ⟨hbelow, hsbelow⟩, hdone⟩ := hsorted
  replace hdone := fun x hx => hdone x hx v mem_cons_self
  have hpop : t.close v = { t with
      onStack := fun x => t.onStack x && !(done ++ [v]).contains x
      stack := below
      found := t.found ++ [done ++ [v]] } := by
    rw [ComponentSearch.close, hstack, popTo_append (by grind)]
  have hflat : (t.found ++ [done ++ [v]]).flatten = t.found.flatten ++ (done ++ [v]) := by
    rw [flatten_append, flatten_singleton]
  have hlinked : ∀ x ∈ done ++ [v], Leads next v x ∧ Leads next x v := by
    rw [forall_mem_append, forall_mem_singleton]
    exact ⟨hmates, .refl, .refl⟩
  have hclosed : ∀ x ∈ t.found.flatten ++ (done ++ [v]), ∀ y ∈ next x, y ∈ t.found.flatten ++ (done ++ [v]) := by
    intro x hx y hy
    have hfound := h.closed x
    have hseen := (h.seen y).mp
    have hedge := hbound x
    grind [Bounded]
  rw [hpop]
  refine ⟨rfl, hflat ▸ subset_append_left _ _, h.fresh, hsbelow, ?_, ?_, ?_, hflat ▸ hclosed, ?_, ?_,
    h.inside, h.rooted⟩
  · grind [h.seen]
  · grind [h.onStack]
  · grind [h.apart]
  · refine forall_mem_append.mpr ⟨h.classes, forall_mem_singleton.mpr ⟨?_, by simp, fun p hp q => ⟨fun hq => ?_, ?_⟩⟩⟩
    · have hnodup : done.Nodup := hsdone.imp (by grind)
      grind
    · exact ⟨(hlinked p hp).2.trans (hlinked q hq).1, (hlinked q hq).2.trans (hlinked p hp).1⟩
    · rintro ⟨hpq, hqp⟩
      have hq : q ∈ t.found.flatten ++ (done ++ [v]) := by
        clear hqp
        induction hpq with
        | refl => exact mem_append_right _ hp
        | tail _ hstep ih => exact hclosed _ ih _ hstep
      refine (mem_append.mp hq).resolve_left fun hq => h.apart p ?_ (h.mem_found_of_leads hq hqp)
      grind
  · refine pairwise_append.mpr ⟨h.ordered, pairwise_singleton _ _, fun m hm m' hm' p hp q hq hpq => ?_⟩
    cases mem_singleton.mp hm'
    refine h.apart q ?_ (h.mem_found_of_leads (mem_flatten.mpr ⟨m, hm, hp⟩) hpq)
    grind

theorem Steady.close (h : Steady next nodes roots ((v, k) :: rest) t) (hk : (next v)[k]? = none)
    (hroot : t.rank v = t.low v) : Steady next nodes roots rest (t.close v) := by
  obtain ⟨h, hs⟩ := h
  generalize hstack : t.stack = stack at h
  cases h with
  | @cons _ _ _ done below link mates back edges bound tail =>
    rw [take_of_length_le (getElem?_eq_none_iff.mp hk)] at edges
    rw [← hroot] at edges bound
    obtain ⟨hbelow, hfound, hs'⟩ := hs.close hstack mates
      (forall_mem_append.mpr ⟨bound, forall_mem_singleton.mpr edges⟩)
    refine ⟨hbelow ▸ tail.mono (fun x hx => hs.indexed x ?_) (fun _ _ => rfl) hfound fun _ _ => rfl, hs'⟩
    rw [hstack]
    exact mem_append_right _ (mem_cons_of_mem v hx)

/-- When a node is left, its low mark goes up, and it closes its component if it is the first of it. -/
theorem Steady.leave (h : Steady next nodes roots ((v, k) :: rest) t) (hk : (next v)[k]? = none) :
    Steady next nodes roots rest (t.leave v (rest.head?.map Prod.fst)) := by
  have hclose := h.close hk
  obtain ⟨h, hs⟩ := h
  have hindexed := hs.indexed
  have hindex : t.index v = some (t.rank v) := by
    obtain ⟨n, hn⟩ := Option.ne_none_iff_exists'.mp (hindexed v (h.mem_stack _ mem_cons_self))
    rw [rank, hn, Option.getD_some]
  have hsorted := hs.sorted
  generalize hstack : t.stack = stack at h hsorted hindexed
  cases h with
  | @cons _ _ _ done below link mates back edges bound tail =>
    obtain ⟨x, hx, hlead, hrank⟩ := back
    obtain ⟨hbelow, hsbelow⟩ := pairwise_cons.mp (pairwise_append.mp hsorted).2.1
    cases rest with
    | nil =>
      cases tail
      have hroot := mem_singleton.mp hx ▸ hrank
      have hleave : t.leave v none = t.close v := if_pos (hroot ▸ hindex)
      exact hleave ▸ hclose hroot
    | cons p rest =>
      have hlt := hbelow p.1 (tail.mem_stack p mem_cons_self)
      have hlowp := tail.low_le hsbelow
      have hlow : (t.lower p.1 (t.low v)).low v = t.low v := if_neg (by rintro rfl; omega)
      have hclosing : (t.lower p.1 (t.low v)).index v = some ((t.lower p.1 (t.low v)).low v) ↔
          t.rank v = t.low v := by
        rw [hlow]
        exact hindex ▸ Option.some_inj
      simp only [ComponentSearch.leave, head?_cons, Option.map_some, hclosing]
      split
      · next hroot =>
        rw [lower_eq_self (by omega)]
        exact hclose hroot
      · next hroot =>
        -- the node goes to the nodes that have been left since its parent was entered
        rw [take_of_length_le (getElem?_eq_none_iff.mp hk)] at edges
        have hxbelow : x ∈ below := by grind
        have hpv : Leads next p.1 v := .single (link p rfl)
        have hvp := hlead.trans (tail.leads hxbelow)
        have hwalk := tail.lower (fun y hy => hindexed y (mem_append_right _ (mem_cons_of_mem v hy))) hsbelow
          hxbelow (hpv.trans hlead)
        rw [hrank] at hwalk
        have hle : (t.lower p.1 (t.low v)).low p.1 ≤ t.low v := low_lower t p.1 _ ▸ min_le_right _ _
        refine ⟨?_, hs.lower p.1 _⟩
        change Walk next _ _ t.stack
        rw [hstack, append_cons]
        refine hwalk.absorb (forall_mem_append.mpr ⟨fun y hy => ?_, forall_mem_singleton.mpr ⟨hpv, hvp⟩⟩)
          (forall_mem_append.mpr ⟨fun y hy w hw => ?_, forall_mem_singleton.mpr fun w hw => ?_⟩)
        · exact ⟨hpv.trans (mates y hy).1, (mates y hy).2.trans hvp⟩
        · exact Bounded.le (bound y hy w hw) hle
        · exact Bounded.le (edges w hw) hle

theorem index_leave (t : ComponentSearch) (v : Nat) (parent : Option Nat) : (t.leave v parent).index = t.index := by
  cases parent <;>
  · simp only [ComponentSearch.leave]
    split <;> rfl

theorem Walk.enter (h : Walk next (t.enter v) frames t.stack) (hlink : ∀ p ∈ frames.head?, v ∈ next p.1) :
    Walk next (t.enter v) ((v, 0) :: frames) (t.enter v).stack := by
  have hback : (t.enter v).rank v = (t.enter v).low v := (rank_enter t v).trans (if_pos rfl).symm
  change Walk next (t.enter v) ((v, 0) :: frames) ([] ++ v :: t.stack)
  exact .cons hlink (forall_mem_nil _) ⟨v, mem_cons_self, .refl, hback⟩ (forall_mem_nil _) (forall_mem_nil _) h

theorem Steady.enter (h : Steady next nodes roots ((v, k) :: rest) t) (hw : (next v)[k]? = some w)
    (hmem : w ∈ nodes) (hnew : t.index w = none) :
    Steady next nodes roots ((w, 0) :: (v, k + 1) :: rest) (t.enter w) := by
  obtain ⟨h, hs⟩ := h
  have hframes : ∀ p ∈ (v, k) :: rest, (t.enter w).low p.1 = t.low p.1 := by
    refine fun p hp => if_neg ?_
    rintro rfl
    exact hs.indexed _ (h.mem_stack p hp) hnew
  have hwalk := h.mono hs.indexed (fun x => index_enter_of_ne hnew) (Subset.refl _) hframes
  refine ⟨(hwalk.follow hw (.inr ⟨?_, ?_⟩)).enter fun p hp => ?_, hs.enter hmem hnew⟩
  · exact (if_pos rfl).trans_ne (Option.some_ne_none _)
  · rw [rank_enter, hframes _ mem_cons_self]
    exact (h.low_le hs.sorted).trans (hs.fresh v (hs.indexed v (h.mem_stack _ mem_cons_self))).le
  · cases hp
    exact mem_of_getElem? hw

theorem Steady.meet (h : Steady next nodes roots ((v, k) :: rest) t) (hw : (next v)[k]? = some w)
    (hold : t.index w ≠ none) : (t.meet v w).index = t.index ∧
      Steady next nodes roots ((v, k + 1) :: rest) (t.meet v w) := by
  obtain ⟨h, hs⟩ := h
  rw [ComponentSearch.meet]
  split
  · next hon =>
    have hwalk := h.lower hs.indexed hs.sorted ((hs.onStack w).mp hon) (.single (mem_of_getElem? hw))
    refine ⟨rfl, hwalk.follow hw (.inr ⟨hold, ?_⟩), hs.lower v _⟩
    exact low_lower t v _ ▸ min_le_right _ _
  · next hon =>
    refine ⟨rfl, h.follow hw (.inl ?_), hs⟩
    exact (mem_append.mp ((hs.seen w).mp hold)).resolve_left (mt (hs.onStack w).mpr hon)

theorem search_keeps (hnodes : ∀ x ∈ nodes, ∀ y ∈ next x, y ∈ nodes) :
    (search next).Keeps nodes (fun t => t.stack ++ t.found.flatten) (Steady next nodes roots) := by
  have hseen : ∀ {frames frames'} {t t' : ComponentSearch}, Steady next nodes roots frames t →
      Steady next nodes roots frames' t' → t'.index = t.index →
      ∀ x, x ∈ t'.stack ++ t'.found.flatten ↔ x ∈ t.stack ++ t.found.flatten := by
    intro _ _ t t' h h' heq x
    rw [← h.2.seen, ← h'.2.seen, heq]
  refine ⟨fun v k rest t w h hw hnew => ?_, fun v k rest t w h hw hold => ?_, fun v k rest t h hk => ?_⟩
  · have hnone := Option.isNone_iff_eq_none.mp hnew
    have hv := h.2.inside v (h.2.indexed v (h.1.mem_stack _ mem_cons_self))
    have hmem := hnodes v hv w (mem_of_getElem? hw)
    exact ⟨hmem, fun hmem => (h.2.seen w).mpr hmem hnone, fun x => Iff.rfl, h.enter hw hmem hnone⟩
  · obtain ⟨hindex, h'⟩ := h.meet hw (Option.isSome_iff_ne_none.mp (Option.isNone_eq_false_iff.mp hold))
    exact ⟨hseen h h' hindex, h'⟩
  · exact ⟨hseen h (h.leave hk) (index_leave t v _), h.leave hk⟩

theorem Steady.stack_eq_nil (h : Steady next nodes roots [] t) : t.stack = [] := by
  obtain ⟨h, -⟩ := h
  generalize t.stack = stack at h
  cases h
  rfl

theorem Sound.root (h : Sound next nodes roots t) (hv : t.index v ≠ none) : Sound next nodes (v :: roots) t :=
  ⟨h.fresh, h.sorted, h.seen, h.onStack, h.apart, h.closed, h.classes, h.ordered, h.inside,
    forall_mem_cons.mpr ⟨hv, h.rooted⟩⟩

theorem Steady.explore (hnodes : ∀ x ∈ nodes, ∀ y ∈ next x, y ∈ nodes) (h : Steady next nodes roots [] t)
    (hroot : v ∈ nodes) (hnew : t.index v = none) :
    Steady next nodes (v :: roots) [] ((search next).explore nodes t v) := by
  have hwalk : Walk next (t.enter v) [] t.stack := h.stack_eq_nil ▸ .nil
  refine (search_keeps hnodes).explore hroot (fun hmem => (h.2.seen v).mpr hmem hnew) (fun x => Iff.rfl)
    ⟨hwalk.enter (fun p hp => by cases hp), (h.2.enter hroot hnew).root ?_⟩
  exact (if_pos rfl).trans_ne (Option.some_ne_none _)

theorem steady_empty : Steady next nodes [] [] empty :=
  ⟨.nil, fun _ h => absurd rfl h, .nil, fun _ => by simp [empty], fun _ => by simp [empty], forall_mem_nil _,
    forall_mem_nil _, forall_mem_nil _, .nil, fun _ h => absurd rfl h, forall_mem_nil _⟩

theorem steady_components (hnodes : ∀ x ∈ nodes, ∀ y ∈ next x, y ∈ nodes) :
    ∃ t, components next nodes = t.found ∧ Steady next nodes nodes.reverse [] t := by
  suffices h : ∀ (l roots : List Nat) (t : ComponentSearch), l ⊆ nodes → Steady next nodes roots [] t →
      Steady next nodes (l.reverse ++ roots) [] (l.foldl (fun t root =>
        if (t.index root).isNone then (search next).explore nodes t root else t) t) from
    ⟨_, rfl, append_nil nodes.reverse ▸ h nodes [] empty (Subset.refl _) steady_empty⟩
  intro l
  induction l with
  | nil => exact fun roots t _ h => h
  | cons root l ih =>
    intro roots t hsub h
    obtain ⟨hroot, hsub⟩ := cons_subset.mp hsub
    rw [foldl_cons, reverse_cons, append_assoc, singleton_append]
    split
    · next hnew => exact ih _ _ hsub (h.explore hnodes hroot (Option.isNone_iff_eq_none.mp hnew))
    · next hold => exact ih _ _ hsub ⟨h.1, h.2.root (mt Option.isNone_iff_eq_none.mpr hold)⟩

end ComponentSearch

namespace Construction

variable {s : Construction} {group members : List ValueId} {p q : ValueId}

theorem mem_operandsIn : q ∈ s.operandsIn group p ↔ (∃ a ∈ s.func.args p, s.resolve a = q) ∧ q ∈ group := by
  rw [operandsIn, mem_filter, mem_map, contains_iff_mem]

abbrev ReadsIn (s : Construction) (group : List ValueId) (p q : ValueId) : Prop :=
  Leads (s.operandsIn group) p q

theorem ReadsIn.mem (h : s.ReadsIn group p q) (hp : p ∈ group) : q ∈ group := by
  rcases Relation.ReflTransGen.cases_tail h with rfl | ⟨r, -, hr⟩
  · exact hp
  · exact (mem_operandsIn.mp hr).2

/-- A maximal set of members of a group that read each other. -/
structure Component (s : Construction) (group members : List ValueId) : Prop where
  nodup : members.Nodup
  sub : ∀ p ∈ members, p ∈ group
  connected : ∀ p ∈ members, ∀ q ∈ members, s.ReadsIn group p q
  maximal : ∀ p ∈ members, ∀ q, s.ReadsIn group p q → s.ReadsIn group q p → q ∈ members

theorem sound_search (s : Construction) (group : List ValueId) : ∃ t : ComponentSearch,
    s.components group = t.found ∧ t.stack = [] ∧ t.Sound (s.operandsIn group) group group.reverse := by
  obtain ⟨t, ht, h⟩ := ComponentSearch.steady_components fun (_ : Nat) _ (_ : Nat) hy => (mem_operandsIn.mp hy).2
  exact ⟨t, ht, h.stack_eq_nil, h.2⟩

theorem component_of_mem (h : members ∈ s.components group) : s.Component group members := by
  obtain ⟨t, ht, -, hs⟩ := s.sound_search group
  rw [ht] at h
  obtain ⟨hnd, -, hclass⟩ := hs.classes members h
  refine ⟨hnd, fun p hp => hs.inside p ((hs.seen p).mpr ?_), fun p hp q hq => ((hclass p hp q).mp hq).1,
    fun p hp q hpq hqp => (hclass p hp q).mpr ⟨hpq, hqp⟩⟩
  exact mem_append_right _ (mem_flatten.mpr ⟨members, h, hp⟩)

theorem components_ordered (s : Construction) (group : List ValueId) : (s.components group).Pairwise fun m m' =>
    ∀ p ∈ m, ∀ q ∈ m', ¬s.ReadsIn group p q := by
  obtain ⟨t, ht, -, hs⟩ := s.sound_search group
  exact ht ▸ hs.ordered

theorem exists_component (hp : p ∈ group) : ∃ m ∈ s.components group, p ∈ m := by
  obtain ⟨t, ht, hstack, hs⟩ := s.sound_search group
  have hmem := (hs.seen p).mp (hs.rooted p (mem_reverse.mpr hp))
  rw [hstack, nil_append] at hmem
  exact ht ▸ mem_flatten.mp hmem

/-- The components of a group are the classes of members that read each other, each member of the group is in
one of them, and none has an operand in a component behind it. -/
theorem components_are_exact (hnd : group.Nodup) : (s.components group).flatten.Perm group ∧
    (∀ m ∈ s.components group, m ≠ [] ∧ ∀ p ∈ m, ∀ q,
      q ∈ m ↔ Leads (s.operandsIn group) p q ∧ Leads (s.operandsIn group) q p) ∧
    (s.components group).Pairwise fun m m' => ∀ p ∈ m, ∀ q ∈ m', q ∉ s.operandsIn group p := by
  have hordered := s.components_ordered group
  refine ⟨?_, fun m hm => ?_, hordered.imp fun h p hp q hq hedge => h p hp q hq (.single hedge)⟩
  · have hflat : (s.components group).flatten.Nodup := by
      refine nodup_flatten.mpr ⟨fun m hm => (component_of_mem hm).nodup, hordered.imp ?_⟩
      exact fun h p hp hp' => h p hp p hp' .refl
    refine (perm_ext_iff_of_nodup hflat hnd).mpr fun p => ⟨fun hp => ?_, fun hp => ?_⟩
    · obtain ⟨m, hm, hpm⟩ := mem_flatten.mp hp
      exact (component_of_mem hm).sub p hpm
    · exact mem_flatten.mpr (exists_component hp)
  · obtain ⟨t, ht, -, hs⟩ := s.sound_search group
    exact (hs.classes m (ht ▸ hm)).2

/-- Four phis: the last two read each other and the first one, which reads itself through its replacement. -/
def knot : Construction where
  func := let f := (Func.new "knot" [] TypeId.void).addBlock .plain "entry" |>.2
    let f := (f.newValue 0 .phi TypeId.i64 [1, 4] .none).2
    let f := (f.newValue 0 .phi TypeId.i64 [0] .none).2
    let f := (f.newValue 0 .phi TypeId.i64 [3, 0] .none).2
    (f.newValue 0 .phi TypeId.i64 [2, 2] .none).2
  defs := #[[]]
  sealedBlocks := []
  filled := []
  incomplete := []
  forward := [(1, 0)]
  phiUsers := []
  phiVars := []
  assignments := []
  consts := []
  nodeValues := #[]
  phisCreated := 4
  phisRemoved := 1

theorem knot_components_are_exact : [3, 2, 0].Nodup ∧ knot.components [3, 2, 0] = [[0], [2, 3]] ∧
    [[0], [2, 3]].Pairwise fun m m' => ∀ p ∈ m, ∀ q ∈ m', q ∉ knot.operandsIn [3, 2, 0] p := by
  have hnd : [3, 2, 0].Nodup := by decide
  have heq : knot.components [3, 2, 0] = [[0], [2, 3]] := by decide +kernel
  exact ⟨hnd, heq, heq ▸ (components_are_exact (s := knot) hnd).2.2⟩

end Construction

end SsaCodegen
