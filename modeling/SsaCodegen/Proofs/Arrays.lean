import Mathlib.Data.List.Nodup
import Mathlib.Tactic.Common

/-! Arrays that are read with a default past their end, and places in lists. -/

namespace SsaCodegen

variable {α : Type*} {xs : Array α} {i j : Nat} {d x : α}

theorem getD_of_size_le (h : xs.size ≤ i) : xs.getD i d = d := by
  rw [Array.getD_eq_getD_getElem?, Array.getElem?_eq_none h, Option.getD_none]

theorem getD_setIfInBounds (hi : i < xs.size) :
    (xs.setIfInBounds i x).getD j d = if j = i then x else xs.getD j d := by
  rw [Array.getD_eq_getD_getElem?, Array.getD_eq_getD_getElem?, Array.getElem?_setIfInBounds]
  by_cases hj : j = i
  · rw [if_pos hj, if_pos hj.symm, if_pos hi, Option.getD_some]
  · rw [if_neg hj, if_neg (Ne.symm hj)]

theorem getD_replicate (n i : Nat) (d : α) : (Array.replicate n d).getD i d = d := by
  rw [Array.getD_eq_getD_getElem?, Array.getElem?_replicate]
  split <;> rfl

theorem getD_map {g : α → α} (hg : g d = d) : (xs.map g).getD i d = g (xs.getD i d) := by
  rw [Array.getD_eq_getD_getElem?, Array.getD_eq_getD_getElem?, Array.getElem?_map]
  cases xs[i]? with
  | none => exact hg.symm
  | some x => rfl

theorem getD_modify {g : α → α} :
    (xs.modify i g).getD j d = if i = j ∧ j < xs.size then g (xs.getD j d) else xs.getD j d := by
  simp only [Array.getD_eq_getD_getElem?, Array.getElem?_modify]
  by_cases hij : i = j
  · by_cases hj : j < xs.size
    · simp [hij, hj]
    · simp [hij, hj]
  · simp [hij]

theorem getD_setIfInBounds_ne (h : j ≠ i) : (xs.setIfInBounds i x).getD j d = xs.getD j d := by
  rw [Array.getD_eq_getD_getElem?, Array.getD_eq_getD_getElem?, Array.getElem?_setIfInBounds_ne h.symm]

theorem idxOf?_eq_some_iff [DecidableEq α] {l : List α} (h : l.Nodup) : l.idxOf? x = some i ↔ l[i]? = some x := by
  rw [List.idxOf?_eq_some_iff, List.getElem?_eq_some_iff]
  constructor
  · rintro ⟨hlt, heq, -⟩
    exact ⟨hlt, heq⟩
  · rintro ⟨hlt, heq⟩
    refine ⟨hlt, heq, fun j hj hcontra => ?_⟩
    exact Nat.ne_of_lt hj ((List.Nodup.getElem_inj_iff h).mp (hcontra.trans heq.symm))

end SsaCodegen
