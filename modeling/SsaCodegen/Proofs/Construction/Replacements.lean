import Mathlib.Tactic.Common
import Mathlib.Data.List.Basic
import SsaCodegen.Ssa.Construction.PhiGroups

/-! Replacements of phis. Each replaces a phi that stood for itself by a value that stands for itself, so they
never run in a circle. -/

namespace SsaCodegen

open List

variable {v w : ValueId} {fw : List (ValueId × ValueId)} {members : List ValueId}

def Settled : List (ValueId × ValueId) → Prop
  | [] => True
  | (p, v) :: older => older.lookup p = none ∧ older.lookup v = none ∧ v ≠ p ∧ Settled older

def standsFor : List (ValueId × ValueId) → ValueId → ValueId
  | [], w => w
  | (p, v) :: older, w => if standsFor older w = p then v else standsFor older w

def detours : List (ValueId × ValueId) → ValueId → Nat
  | [], _ => 0
  | (p, _) :: older, w => if standsFor older w = p then detours older w + 1 else detours older w

theorem detours_le (fw : List (ValueId × ValueId)) (w : ValueId) : detours fw w ≤ fw.length := by
  induction fw with
  | nil => exact Nat.le_refl 0
  | cons e older ih =>
    simp only [detours, length_cons]
    split <;> omega

theorem lookup_cons_ne {p : ValueId} {older : List (ValueId × ValueId)} (h : w ≠ p) :
    ((p, v) :: older).lookup w = older.lookup w := by
  have hbeq := beq_false_of_ne h
  rw [lookup_cons, hbeq]

theorem standsFor_of_lookup_none (h : fw.lookup w = none) : standsFor fw w = w ∧ detours fw w = 0 := by
  induction fw with
  | nil => exact ⟨rfl, rfl⟩
  | cons e older ih =>
    obtain ⟨p, v⟩ := e
    by_cases hwp : w = p
    · rw [hwp] at h
      exact absurd h (by simp)
    · rw [lookup_cons_ne hwp] at h
      obtain ⟨hs, hd⟩ := ih h
      simp only [standsFor, detours, hs, hd, hwp, ↓reduceIte, and_self]

section

variable (hfw : Settled fw)

include hfw

theorem standsFor_of_lookup_some {u : ValueId} (h : fw.lookup w = some u) :
    standsFor fw w = standsFor fw u ∧ detours fw w = detours fw u + 1 := by
  induction fw with
  | nil => exact absurd h (by simp)
  | cons e older ih =>
    obtain ⟨p, v⟩ := e
    obtain ⟨hp, hv, hne, hold⟩ := hfw
    by_cases hwp : w = p
    · subst hwp
      rw [lookup_cons_self] at h
      obtain rfl := Option.some.inj h
      obtain ⟨hsp, hdp⟩ := standsFor_of_lookup_none hp
      obtain ⟨hsv, hdv⟩ := standsFor_of_lookup_none hv
      simp only [standsFor, detours, hsp, hdp, hsv, hdv, hne, ↓reduceIte, and_self]
    · rw [lookup_cons_ne hwp] at h
      obtain ⟨hs, hd⟩ := ih hold h
      simp only [standsFor, detours, hs, hd, true_and]
      split <;> rfl

theorem lookup_standsFor (w : ValueId) : fw.lookup (standsFor fw w) = none := by
  induction fw with
  | nil => rfl
  | cons e older ih =>
    obtain ⟨-, hv, hne, hold⟩ := hfw
    simp only [standsFor]
    split
    · rw [lookup_cons_ne hne]
      exact hv
    · next h =>
      rw [lookup_cons_ne h]
      exact ih hold

theorem standsFor_standsFor (w : ValueId) : standsFor fw (standsFor fw w) = standsFor fw w :=
  (standsFor_of_lookup_none (lookup_standsFor hfw w)).1

theorem standsFor_keeps {P : ValueId → Prop} (hstep : ∀ p v, fw.lookup p = some v → P p → P v) (hw : P w) :
    P (standsFor fw w) := by
  induction fw with
  | nil => exact hw
  | cons e older ih =>
    obtain ⟨p, v⟩ := e
    obtain ⟨hp, -, -, hold⟩ := hfw
    have hP : P (standsFor older w) := by
      refine ih hold fun q u hq => hstep q u ?_
      rwa [lookup_cons_ne]
      rintro rfl
      rw [hp] at hq
      cases hq
    simp only [standsFor]
    split
    · next h => exact hstep p v lookup_cons_self (h ▸ hP)
    · exact hP

/-- Following as many replacements as there are leads to what stands for the value. -/
theorem resolveWithin_eq_standsFor : ∀ (fuel : Nat) (w : ValueId), detours fw w ≤ fuel →
      Construction.resolveWithin fw fuel w = standsFor fw w := by
  intro fuel
  induction fuel with
  | zero =>
    intro w hd
    cases hw : fw.lookup w with
    | none => exact (standsFor_of_lookup_none hw).1.symm
    | some u =>
      have := (standsFor_of_lookup_some hfw hw).2
      omega
  | succ fuel ih =>
    intro w hd
    simp only [Construction.resolveWithin]
    cases hw : fw.lookup w with
    | none => exact (standsFor_of_lookup_none hw).1.symm
    | some u =>
      obtain ⟨hs, hdu⟩ := standsFor_of_lookup_some hfw hw
      rw [hs]
      exact ih u (by omega)

end

theorem resolve_eq_standsFor {s : Construction} (hfw : Settled s.forward) (w : ValueId) :
    s.resolve w = standsFor s.forward w :=
  resolveWithin_eq_standsFor hfw _ w (detours_le _ w)

theorem lookup_map_append : (members.map (·, v) ++ fw).lookup w = if w ∈ members then some v else fw.lookup w := by
  induction members with
  | nil => simp
  | cons p members ih =>
    rw [map_cons, cons_append]
    by_cases hwp : w = p
    · subst hwp
      rw [lookup_cons_self, if_pos mem_cons_self]
    · rw [lookup_cons_ne hwp, ih]
      simp [hwp]

/-- A set of phis that stand for themselves can be replaced by a value outside of it. -/
theorem Settled.map_append (hfw : Settled fw) (hnd : members.Nodup) (hm : ∀ p ∈ members, fw.lookup p = none)
    (hv : fw.lookup v = none) (hvm : v ∉ members) : Settled (members.map (·, v) ++ fw) := by
  induction members with
  | nil => exact hfw
  | cons p members ih =>
    obtain ⟨hp, hnd⟩ := nodup_cons.mp hnd
    obtain ⟨hvp, hvm⟩ := not_or.mp (mem_cons.not.mp hvm)
    rw [map_cons, cons_append]
    refine ⟨?_, ?_, hvp, ih hnd (fun q hq => hm q (mem_cons_of_mem p hq)) hvm⟩
    · rw [lookup_map_append, if_neg hp]
      exact hm p mem_cons_self
    · rw [lookup_map_append, if_neg hvm]
      exact hv

theorem standsFor_map_append (hvm : v ∉ members) (w : ValueId) : standsFor (members.map (·, v) ++ fw) w =
      if standsFor fw w ∈ members then v else standsFor fw w := by
  induction members with
  | nil => simp
  | cons p members ih =>
    obtain ⟨hvp, hvm⟩ := not_or.mp (mem_cons.not.mp hvm)
    rw [map_cons, cons_append, standsFor, ih hvm]
    by_cases hin : standsFor fw w ∈ members
    · simp [hin, hvp]
    · rw [if_neg hin]
      by_cases hp : standsFor fw w = p
      · rw [if_pos hp, if_pos (mem_cons.mpr (.inl hp))]
      · simp [hin, hp]

end SsaCodegen
