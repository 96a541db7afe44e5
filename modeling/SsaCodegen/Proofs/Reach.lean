import Mathlib.Data.List.Flatten
import Mathlib.Logic.Relation
import Mathlib.Order.Nat
import Mathlib.Tactic.Common
import SsaCodegen.Reach

/-! The search of a finite graph finds exactly what can be reached, and ends since every node is expanded
once. -/

namespace SsaCodegen

open List

variable {next : Nat → List Nat} {nodes start : List Nat} {x : Nat}

abbrev Leads (next : Nat → List Nat) : Nat → Nat → Prop :=
  Relation.ReflTransGen fun a b => b ∈ next a

def edgesLeft (next : Nat → List Nat) (nodes found : List Nat) : Nat :=
  ((nodes.filter (· ∉ found)).flatMap next).length

theorem edgesLeft_congr {found found' : List Nat} (h : ∀ x, x ∈ found ↔ x ∈ found') :
    edgesLeft next nodes found = edgesLeft next nodes found' := by
  simp only [edgesLeft, h]

theorem edgesLeft_cons (next : Nat → List Nat) {found : List Nat} (hx : x ∈ nodes) (hnew : x ∉ found) :
    edgesLeft next nodes (x :: found) + (next x).length ≤ edgesLeft next nodes found := by
  induction nodes with
  | nil => cases hx
  | cons y nodes ih =>
    have hcons : ∀ found, edgesLeft next (y :: nodes) found =
        (if y ∈ found then 0 else (next y).length) + edgesLeft next nodes found := by
      intro found
      by_cases hy : y ∈ found <;> simp [edgesLeft, hy]
    have hmono : x ∉ nodes → edgesLeft next nodes (x :: found) = edgesLeft next nodes found := by
      intro hin
      rw [edgesLeft, edgesLeft, filter_congr fun z hz => ?_]
      grind
    grind

theorem leads_of_mem_reachWithin : ∀ (fuel : Nat) (work found : List Nat) {x : Nat},
    x ∈ reachWithin next fuel work found → x ∈ found ∨ ∃ s ∈ work, Leads next s x := by
  intro fuel
  induction fuel with
  | zero =>
    intro work found x hx
    exact .inl hx
  | succ fuel ih =>
    intro work found x hx
    cases work with
    | nil => exact .inl hx
    | cons y work =>
      rw [reachWithin] at hx
      split at hx
      · grind
      · rcases ih (next y ++ work) (y :: found) hx with h | ⟨s, hs, hsx⟩
        · rcases mem_cons.mp h with rfl | h
          · exact .inr ⟨x, mem_cons_self, .refl⟩
          · exact .inl h
        · rcases mem_append.mp hs with hs | hs
          · exact .inr ⟨y, mem_cons_self, .head hs hsx⟩
          · exact .inr ⟨s, mem_cons_of_mem y hs, hsx⟩

theorem reachWithin_closed (hnodes : ∀ x ∈ nodes, ∀ y ∈ next x, y ∈ nodes) :
    ∀ (fuel : Nat) (work found : List Nat), (∀ x ∈ work, x ∈ nodes) →
      (∀ x ∈ found, ∀ y ∈ next x, y ∈ found ∨ y ∈ work) → work.length + edgesLeft next nodes found < fuel →
      (∀ x, x ∈ work ∨ x ∈ found → x ∈ reachWithin next fuel work found) ∧
      ∀ x ∈ reachWithin next fuel work found, ∀ y ∈ next x, y ∈ reachWithin next fuel work found := by
  intro fuel
  induction fuel with
  | zero =>
    intro work found _ _ hfuel
    exact absurd hfuel (Nat.not_lt_zero _)
  | succ fuel ih =>
    intro work found hwork hfound hfuel
    cases work with
    | nil =>
      rw [reachWithin]
      · refine ⟨fun x hx => hx.resolve_left not_mem_nil, fun x hx y hy => ?_⟩
        exact (hfound x hx y hy).resolve_right not_mem_nil
      · exact Nat.succ_ne_zero fuel
    | cons z work =>
      rw [length_cons] at hfuel
      rw [reachWithin]
      split
      · next hz =>
        obtain ⟨h1, h2⟩ := ih work found (by grind) (by grind) (by omega)
        exact ⟨by grind, h2⟩
      · next hz =>
        have hless := edgesLeft_cons next (hwork z mem_cons_self) hz
        obtain ⟨h1, h2⟩ := ih (next z ++ work) (z :: found) (by grind) (by grind) (by grind)
        exact ⟨by grind, h2⟩

theorem mem_reach_iff (hstart : ∀ x ∈ start, x ∈ nodes) (hnodes : ∀ x ∈ nodes, ∀ y ∈ next x, y ∈ nodes) :
    x ∈ reach next nodes start ↔ ∃ s ∈ start, Leads next s x := by
  constructor
  · intro hx
    exact (leads_of_mem_reachWithin _ _ _ hx).resolve_left not_mem_nil
  · rintro ⟨s, hs, hsx⟩
    have hleft : edgesLeft next nodes [] = (nodes.flatMap next).length := by
      rw [edgesLeft, filter_eq_self.mpr fun a _ => by simp]
    obtain ⟨h1, h2⟩ := reachWithin_closed hnodes (start.length + (nodes.flatMap next).length + 1) start [] hstart
      (forall_mem_nil _) (by rw [hleft]; exact Nat.lt_succ_self _)
    induction hsx with
    | refl => exact h1 s (.inl hs)
    | tail _ hstep ih => exact h2 _ ih _ hstep

namespace Search

variable {σ : Type} {S : Search σ} {seen : σ → List Nat}

/-- The steps that are left: those of nodes that have not been entered, and those of nodes on the stack. -/
def cost (S : Search σ) (nodes found : List Nat) (frames : List (Nat × Nat)) : Nat :=
  edgesLeft (fun v => v :: S.next v) nodes found + frames.foldr (fun x n => (S.next x.1).length + 1 - x.2 + n) 0

/-- What holds of the stack and the state through every move. The search enters a node once. -/
structure Keeps (S : Search σ) (nodes : List Nat) (seen : σ → List Nat) (I : List (Nat × Nat) → σ → Prop) :
    Prop where
  enter : ∀ v k rest s w, I ((v, k) :: rest) s → (S.next v)[k]? = some w → S.isNew s w →
    w ∈ nodes ∧ w ∉ seen s ∧ (∀ x, x ∈ seen (S.enter s w) ↔ x ∈ w :: seen s) ∧
      I ((w, 0) :: (v, k + 1) :: rest) (S.enter s w)
  meet : ∀ v k rest s w, I ((v, k) :: rest) s → (S.next v)[k]? = some w → S.isNew s w = false →
    (∀ x, x ∈ seen (S.meet s v w) ↔ x ∈ seen s) ∧ I ((v, k + 1) :: rest) (S.meet s v w)
  leave : ∀ v k rest s, I ((v, k) :: rest) s → (S.next v)[k]? = none →
    (∀ x, x ∈ seen (S.leave s v (rest.head?.map Prod.fst)) ↔ x ∈ seen s) ∧
      I rest (S.leave s v (rest.head?.map Prod.fst))

variable {I : List (Nat × Nat) → σ → Prop}

/-- The search ends with an empty stack. -/
theorem Keeps.run (h : S.Keeps nodes seen I) : ∀ (fuel : Nat) (frames : List (Nat × Nat)) (s : σ),
    I frames s → (∀ x ∈ frames, x.2 ≤ (S.next x.1).length) → S.cost nodes (seen s) frames ≤ fuel →
    I [] (S.run fuel frames s) := by
  intro fuel
  induction fuel with
  | zero =>
    intro frames s hI hle hcost
    cases frames with
    | nil => exact hI
    | cons x rest =>
      have hx := hle x mem_cons_self
      rw [cost, foldr_cons] at hcost
      omega
  | succ fuel ih =>
    intro frames s hI hle hcost
    cases frames with
    | nil => exact hI
    | cons x rest =>
      obtain ⟨v, k⟩ := x
      have hvk := hle (v, k) mem_cons_self
      have hrest := fun x hx => hle x (mem_cons_of_mem (v, k) hx)
      simp only [cost, foldr_cons] at hcost hvk
      rw [Search.run]
      split
      · next hk =>
        obtain ⟨hseen, hI⟩ := h.leave v k rest s hI hk
        refine ih rest _ hI hrest ?_
        rw [cost, edgesLeft_congr hseen]
        omega
      · next w hk =>
        have hlt := (List.getElem?_eq_some_iff.mp hk).1
        split
        · next hnew =>
          obtain ⟨hw, hunseen, hseen, hI⟩ := h.enter v k rest s w hI hk hnew
          refine ih _ _ hI (forall_mem_cons.mpr ⟨Nat.zero_le _, forall_mem_cons.mpr ⟨hlt, hrest⟩⟩) ?_
          have hless := edgesLeft_cons (fun v => v :: S.next v) hw hunseen
          simp only [cost, edgesLeft_congr hseen, foldr_cons, length_cons] at hless ⊢
          omega
        · next hnew =>
          obtain ⟨hseen, hI⟩ := h.meet v k rest s w hI hk (by simpa using hnew)
          refine ih _ _ hI (forall_mem_cons.mpr ⟨hlt, hrest⟩) ?_
          simp only [cost, edgesLeft_congr hseen, foldr_cons]
          omega

theorem Keeps.explore (h : S.Keeps nodes seen I) {s : σ} {root : Nat} (hroot : root ∈ nodes) (hnew : root ∉ seen s)
    (hseen : ∀ x, x ∈ seen (S.enter s root) ↔ x ∈ root :: seen s) (hI : I [(root, 0)] (S.enter s root)) :
    I [] (S.explore nodes s root) := by
  refine h.run _ _ _ hI (forall_mem_singleton.mpr (Nat.zero_le _)) ?_
  have hless := edgesLeft_cons (fun v => v :: S.next v) hroot hnew
  have hall : edgesLeft (fun v => v :: S.next v) nodes (seen s) ≤ (nodes.flatMap fun v => v :: S.next v).length :=
    (filter_sublist.flatMap _).length_le
  simp only [cost, edgesLeft_congr hseen, foldr_cons, foldr_nil, length_cons] at hless ⊢
  omega

end Search

end SsaCodegen
