import Mathlib.Order.Nat
import SsaCodegen.Proofs.Arrays
import SsaCodegen.RegisterFile

/-! What a register file holds: which register has which word of which value is what `Claims` say. -/

namespace SsaCodegen

open List Option

variable {α : Type}

theorem lookup_of_mem {β : Type} [BEq α] [LawfulBEq α] {l : List (α × β)} {k : α} {x : β}
    (hmem : (k, x) ∈ l) (hnodup : (l.map Prod.fst).Nodup) : l.lookup k = some x := by
  obtain ⟨front, back, hsplit⟩ := append_of_mem hmem
  rw [lookup_eq_some_iff]
  refine ⟨front, back, hsplit, fun y hy => bne_iff_ne.mpr fun heq => ?_⟩
  rw [hsplit, List.map_append, nodup_append] at hnodup
  exact hnodup.2.2 y.1 (mem_map_of_mem hy) k mem_cons_self heq.symm

namespace RegSet

variable {s t : RegSet} {r : Reg}

theorem contains_diff : (s.diff t).contains r ↔ s.contains r ∧ t.contains r = false := by
  rw [contains, diff, BitVec.getLsbD_and, BitVec.getLsbD_not, Bool.and_eq_true, Bool.and_eq_true, Bool.not_eq_true']
  exact ⟨fun h => ⟨h.1, h.2.2⟩, fun h => ⟨h.1, decide_eq_true r.isLt, h.2⟩⟩

theorem mem_toList : r ∈ s.toList ↔ s.contains r := by
  rw [toList, mem_filter]
  exact ⟨And.right, fun h => ⟨mem_finRange r, h⟩⟩

theorem toList_nodup (s : RegSet) : s.toList.Nodup := (nodup_finRange 32).filter _

theorem contains_firstN {n : Nat} : (firstN n).contains r ↔ r.val < n := by
  rw [contains, firstN, BitVec.getLsbD_ofNat, show Nat.pow 2 n = 2 ^ n from rfl,
    Nat.testBit_two_pow_sub_one, Bool.and_eq_true, decide_eq_true_eq, decide_eq_true_eq]
  exact ⟨And.right, fun h => ⟨r.isLt, h⟩⟩

theorem contains_firstN_of_lt_two {n : Nat} (hn : 4 ≤ n) (r : Reg) (hr : r.val < 2) : (firstN n).contains r :=
  contains_firstN.mpr (by omega)

end RegSet

abbrev Claims := Reg → Option Occupant

namespace Claims

variable {P Q R : Claims} {u v copy : ValueId} {rs : List Reg} {r : Reg} {p : Nat} {o : Occupant}

def empty : Claims := fun _ => none

def Within (P Q : Claims) : Prop := ∀ r o, P r = some o → Q r = some o

def put (P : Claims) (v copy : ValueId) (rs : List Reg) : Claims := fun r =>
  match rs.idxOf? r with
  | some p => some ⟨v, copy, p⟩
  | none => P r

def Hold (P : Claims) (v copy : ValueId) (rs : List Reg) : Prop :=
  rs ≠ [] ∧ ∀ (p : Nat) r, rs[p]? = some r → P r = some ⟨v, copy, p⟩

protected theorem Within.refl (P : Claims) : P.Within P := fun _ _ h => h

protected theorem Within.trans (h : P.Within Q) (h' : Q.Within R) : P.Within R :=
  fun r o ho => h' r o (h r o ho)

theorem empty_within (P : Claims) : empty.Within P := nofun

theorem Hold.mono (h : P.Hold v copy rs) (hPQ : P.Within Q) : Q.Hold v copy rs :=
  ⟨h.1, fun p r hr => hPQ r _ (h.2 p r hr)⟩

theorem put_of_not_mem (h : r ∉ rs) : P.put v copy rs r = P r := by
  rw [put, idxOf?_eq_none_iff.mpr h]

theorem put_nil (P : Claims) (v copy : ValueId) : P.put v copy [] = P := rfl

theorem put_of_getElem? (hrs : rs.Nodup) (h : rs[p]? = some r) : P.put v copy rs r = some ⟨v, copy, p⟩ := by
  rw [put, (idxOf?_eq_some_iff hrs).mpr h]

theorem hold_put (hrs : rs.Nodup) (hne : rs ≠ []) : (P.put v copy rs).Hold v copy rs :=
  ⟨hne, fun _ _ h => put_of_getElem? hrs h⟩

theorem put_eq_some (h : P.put v copy rs r = some o) :
    (∃ p, rs[p]? = some r ∧ o = ⟨v, copy, p⟩) ∨ r ∉ rs ∧ P r = some o := by
  rw [put] at h
  cases hidx : rs.idxOf? r with
  | none =>
    rw [hidx] at h
    exact .inr ⟨idxOf?_eq_none_iff.mp hidx, h⟩
  | some p =>
    rw [hidx] at h
    obtain ⟨hlt, heq, -⟩ := List.idxOf?_eq_some_iff.mp hidx
    exact .inl ⟨p, List.getElem?_eq_some_iff.mpr ⟨hlt, heq⟩, (some.inj h).symm⟩

theorem put_mono (h : P.Within Q) : (P.put v copy rs).Within (Q.put v copy rs) := by
  intro r o ho
  rw [put] at ho ⊢
  cases hidx : rs.idxOf? r with
  | none =>
    rw [hidx] at ho
    exact h r o ho
  | some p =>
    rw [hidx] at ho
    exact ho

theorem Hold.put {qs : List Reg} (h : P.Hold v copy rs) (hdisj : ∀ r ∈ rs, r ∉ qs)
    (u c : ValueId) : (P.put u c qs).Hold v copy rs := by
  refine ⟨h.1, fun p r hr => ?_⟩
  rw [put_of_not_mem (hdisj r (mem_of_getElem? hr))]
  exact h.2 p r hr

end Claims

/-- A register that may be given out. -/
def RegisterFile.Free (f : RegisterFile) (exclude : RegSet) (r : Reg) : Prop :=
  f.allocatable.contains r ∧ exclude.contains r = false ∧ f.inUse r = false

namespace RegisterFile

variable {f : RegisterFile} {r q : Reg} {v : ValueId} {exclude : RegSet}

theorem free_iff : f.Free exclude r ↔ r ∈ ((f.allocatable.diff f.used).diff exclude).toList := by
  rw [RegSet.mem_toList, RegSet.contains_diff, RegSet.contains_diff, and_assoc, and_comm (b := _ = _)]
  rfl

theorem findFree?_eq_none_iff : f.findFree? exclude = none ↔ ∀ r, ¬f.Free exclude r := by
  rw [findFree?, RegSet.first?, head?_eq_none_iff, eq_nil_iff_forall_not_mem]
  exact forall_congr' fun r => by rw [free_iff]

theorem findFree?_eq_some (h : f.findFree? exclude = some r) : f.Free exclude r ∧ ∀ q, f.Free exclude q → r ≤ q := by
  obtain ⟨rest, hrest⟩ := head?_eq_some_iff.mp h
  have hsorted : ((f.allocatable.diff f.used).diff exclude).toList.Pairwise (· < ·) :=
    (pairwise_lt_finRange 32).filter _
  refine ⟨free_iff.mpr (hrest ▸ mem_cons_self), fun q hq => ?_⟩
  rw [hrest] at hsorted
  rcases mem_cons.mp (hrest ▸ free_iff.mp hq) with rfl | hmem
  · exact Fin.le_refl q
  · exact Fin.le_of_lt (rel_of_pairwise_cons hsorted hmem)

theorem mem_evictable : r ∈ f.evictable exclude ↔ f.inUse r ∧ f.isLocked r = false ∧ exclude.contains r = false := by
  rw [evictable, RegSet.mem_toList, RegSet.contains_diff, RegSet.contains_diff, and_assoc]
  rfl

theorem regsOf_nodup (f : RegisterFile) (v : ValueId) : (f.regsOf v).Nodup := by
  have hperm : f.regsOf v ~ (f.held v).map Prod.snd := (mergeSort_perm _ _).map _
  rw [hperm.nodup_iff, held, map_filterMap]
  have hself : ∀ r q, (((f.occupant? r).bind fun o => if o.value = v then some (o.part, r) else none).map
      Prod.snd) = some q → r = q := by
    intro r q hq
    obtain ⟨x, hx, rfl⟩ := map_eq_some_iff.mp hq
    obtain ⟨o, -, hif⟩ := bind_eq_some_iff.mp hx
    split at hif
    · exact congrArg Prod.snd (some.inj hif)
    · cases hif
  exact f.used.toList_nodup.filterMap fun r r' q hq hq' => (hself r q hq).trans (hself r' q hq').symm

theorem mem_held {x : Nat × Reg} : x ∈ f.held v ↔
    f.inUse x.2 ∧ ∃ o, f.occupant? x.2 = some o ∧ o.value = v ∧ o.part = x.1 := by
  rw [held, mem_filterMap]
  constructor
  · rintro ⟨q, hmem, hq⟩
    obtain ⟨o, ho, hif⟩ := bind_eq_some_iff.mp hq
    split at hif
    · next h =>
      obtain rfl := some.inj hif
      exact ⟨RegSet.mem_toList.mp hmem, o, ho, h, rfl⟩
    · cases hif
  · rintro ⟨huse, o, ho, h, hpart⟩
    exact ⟨x.2, RegSet.mem_toList.mpr huse, bind_eq_some_iff.mpr ⟨o, ho, by rw [if_pos h, hpart]⟩⟩

theorem mem_regsOf_iff : r ∈ f.regsOf v ↔ f.inUse r ∧ ∃ o, f.occupant? r = some o ∧ o.value = v := by
  simp only [regsOf, List.mem_map, mem_mergeSort, mem_held]
  constructor
  · rintro ⟨x, ⟨huse, o, ho, h, -⟩, rfl⟩
    exact ⟨huse, o, ho, h⟩
  · rintro ⟨huse, o, ho, h⟩
    exact ⟨(o.part, r), ⟨huse, o, ho, h, rfl⟩, rfl⟩

theorem regsOf_ordered (f : RegisterFile) (v : ValueId) : (f.regsOf v).Pairwise fun r q =>
    ∀ o o', f.occupant? r = some o → f.occupant? q = some o' → o.part ≤ o'.part := by
  rw [regsOf, pairwise_map]
  have hsorted := @pairwise_mergeSort (Nat × Reg) (fun a b => a.1 ≤ b.1) (by simp; omega) (by simp; omega) (f.held v)
  refine hsorted.imp_of_mem fun {x y} hx hy hle o o' ho ho' => ?_
  obtain ⟨-, p, hp, -, hpart⟩ := mem_held.mp (mem_mergeSort.mp hx)
  obtain ⟨-, p', hp', -, hpart'⟩ := mem_held.mp (mem_mergeSort.mp hy)
  obtain rfl := some.inj (hp.symm.trans ho)
  obtain rfl := some.inj (hp'.symm.trans ho')
  rw [hpart, hpart']
  exact of_decide_eq_true hle

theorem occupied_nodup (f : RegisterFile) : (f.occupied.map Prod.fst).Nodup := by
  have hsub : (f.occupied.map Prod.fst).Sublist f.used.toList := by
    rw [occupied, map_filterMap]
    have heq : (fun r => ((f.occupant? r).map (r, ·)).map Prod.fst) =
        Option.guard fun r => (f.occupant? r).isSome := by
      funext r
      cases h : f.occupant? r <;> simp [Option.guard, h]
    rw [heq, filterMap_eq_filter]
    exact filter_sublist
  exact hsub.nodup f.used.toList_nodup

end RegisterFile

namespace Registers

variable {f : Registers} {r q : Reg} {v : ValueId} {o : Occupant} {rs : List Reg}

theorem inUse_eq_false_iff : f.inUse r = false ↔ f.occupant? r = none := by
  rw [f.consistent.used, isSome_eq_false_iff, isNone_iff_eq_none]

theorem inUse_of_occupant? (h : f.occupant? r = some o) : f.inUse r = true := by
  rw [f.consistent.used, h, isSome_some]

theorem occupant?_of_isLocked (h : f.isLocked r) : ∃ o, f.occupant? r = some o :=
  isSome_iff_exists.mp (f.consistent.used r ▸ f.consistent.locked r h)

theorem mem_regsOf : r ∈ f.regsOf v ↔ ∃ o, f.occupant? r = some o ∧ o.value = v := by
  rw [RegisterFile.mem_regsOf_iff]
  exact ⟨And.right, fun ⟨o, ho, h⟩ => ⟨inUse_of_occupant? ho, o, ho, h⟩⟩

theorem mem_occupied : (r, o) ∈ f.occupied ↔ f.occupant? r = some o := by
  rw [RegisterFile.occupied, mem_filterMap]
  constructor
  · rintro ⟨q, -, hq⟩
    obtain ⟨o', ho, heq⟩ := map_eq_some_iff.mp hq
    obtain ⟨rfl, rfl⟩ := heq
    exact ho
  · intro h
    exact ⟨r, RegSet.mem_toList.mpr (inUse_of_occupant? h), map_eq_some_iff.mpr ⟨o, h, rfl⟩⟩

theorem findFree?_eq_some {exclude : RegSet} (h : f.findFree? exclude = some r) :
    f.allocatable.contains r ∧ exclude.contains r = false ∧ f.occupant? r = none := by
  obtain ⟨hal, hex, huse⟩ := (RegisterFile.findFree?_eq_some h).1
  exact ⟨hal, hex, inUse_eq_false_iff.mp huse⟩

section

variable (f : Registers)

theorem lookup_occupied (r : Reg) : f.occupied.lookup r = f.occupant? r := by
  cases ho : f.occupant? r with
  | none =>
    rw [lookup_eq_none_iff]
    rintro ⟨q, o⟩ hq
    rw [bne_iff_ne]
    rintro rfl
    rw [mem_occupied.mp hq] at ho
    cases ho
  | some o => exact lookup_of_mem (mem_occupied.mpr ho) f.occupied_nodup

@[simp] theorem occupant?_clear : f.clear.occupant? = Claims.empty := by
  funext r
  simp [RegisterFile.occupant?, clear, new, RegisterFile.new, Claims.empty]

@[simp] theorem isLocked_clear (r : Reg) : f.clear.isLocked r = false := RegSet.contains_empty r

@[simp] theorem isLocked_unlockAll (r : Reg) : f.unlockAll.isLocked r = false := RegSet.contains_empty r

theorem occupant?_assign (r q : Reg) (o : Occupant) (dirty : Bool) :
    (f.assign r o dirty).occupant? q = if q = r then some o else f.occupant? q :=
  f.toRegisterFile.occupant?_assign ..

end

theorem lockAll_keeps (rs : List Reg) : ∀ f : Registers,
    (rs.foldl lock f).allocatable = f.allocatable ∧ (rs.foldl lock f).occupant? = f.occupant? := by
  induction rs with
  | nil => exact fun _ => ⟨rfl, rfl⟩
  | cons r rs ih => exact fun f => ih (f.lock r)

theorem isLocked_lockAll (rs : List Reg) (q : Reg) : ∀ f : Registers,
    (rs.foldl lock f).isLocked q ↔ f.isLocked q ∨ q ∈ rs ∧ f.inUse q := by
  induction rs with
  | nil => simp
  | cons r rs ih =>
    intro f
    have hlock : (f.lock r).isLocked q ↔ f.isLocked q ∨ q = r ∧ f.inUse q := by
      rw [show (f.lock r).isLocked q = _ from f.toRegisterFile.isLocked_lock r q, Bool.or_eq_true, Bool.and_eq_true,
        beq_iff_eq]
      exact or_congr_right (and_congr_right fun h => h ▸ Iff.rfl)
    rw [foldl_cons, ih, show (f.lock r).inUse q = f.inUse q from rfl, hlock, mem_cons, or_and_right]
    exact or_assoc

theorem freeAll_keeps (rs : List Reg) : ∀ f : Registers, (rs.foldl free f).allocatable = f.allocatable ∧
    ∀ q, (rs.foldl free f).occupant? q = (if rs.contains q then none else f.occupant? q) ∧
      (rs.foldl free f).isLocked q = (f.isLocked q && !rs.contains q) := by
  induction rs with
  | nil => exact fun _ => ⟨rfl, fun _ => by simp⟩
  | cons r rs ih =>
    intro f
    obtain ⟨hal, hrest⟩ := ih (f.free r)
    refine ⟨hal, fun q => ?_⟩
    have hocc : (f.free r).occupant? q = if q = r then none else f.occupant? q := f.toRegisterFile.occupant?_free r q
    have hlock : (f.free r).isLocked q = (f.isLocked q && q != r) := f.toRegisterFile.isLocked_free r q
    rw [foldl_cons, (hrest q).1, (hrest q).2, hocc, hlock, contains_cons, Bool.not_or, Bool.and_assoc, bne]
    by_cases hq : q = r <;> simp [hq]

theorem occupant?_release_eq_some : (f.release v).occupant? r = some o ↔ f.occupant? r = some o ∧ o.value ≠ v := by
  rw [release, ((freeAll_keeps _ f).2 r).1]
  constructor
  · intro h
    split at h
    · cases h
    · next hnot => exact ⟨h, fun hv => hnot (contains_iff_mem.mpr (mem_regsOf.mpr ⟨o, h, hv⟩))⟩
  · rintro ⟨ho, hne⟩
    rw [if_neg, ho]
    intro hmem
    obtain ⟨o', ho', hv⟩ := mem_regsOf.mp (contains_iff_mem.mp hmem)
    exact hne (some.inj (ho.symm.trans ho') ▸ hv)

theorem allocatable_release (f : Registers) (v : ValueId) : (f.release v).allocatable = f.allocatable :=
  (freeAll_keeps _ f).1

theorem release_within (f : Registers) (v : ValueId) : Claims.Within (f.release v).occupant? f.occupant? :=
  fun _ _ h => (occupant?_release_eq_some.mp h).1

theorem isLocked_release (h : (f.release v).isLocked r) : f.isLocked r := by
  rw [release, ((freeAll_keeps _ f).2 r).2, Bool.and_eq_true] at h
  exact h.1

theorem isLocked_release_of_ne (ho : f.occupant? r = some o) (hne : o.value ≠ v) :
    (f.release v).isLocked r = f.isLocked r := by
  rw [release, ((freeAll_keeps _ f).2 r).2, Bool.and_eq_left_iff_imp]
  intro _
  rw [Bool.not_eq_true', contains_eq_mem, decide_eq_false_iff_not]
  intro hmem
  obtain ⟨o', ho', hv⟩ := mem_regsOf.mp hmem
  exact hne (some.inj (ho.symm.trans ho') ▸ hv)

theorem occupant?_assignAll (v copy : ValueId) (dirty : Bool) (hrs : rs.Nodup) :
    ∀ (k : Nat) (f : Registers) (q : Reg),
      ((rs.zipIdx k).foldl (fun f (r, part) => f.assign r ⟨v, copy, part⟩ dirty) f).occupant? q =
        match rs.idxOf? q with
        | some p => some ⟨v, copy, k + p⟩
        | none => f.occupant? q := by
  induction rs with
  | nil => exact fun _ _ _ => rfl
  | cons r rs ih =>
    intro k f q
    obtain ⟨hnot, hrs⟩ := nodup_cons.mp hrs
    rw [zipIdx_cons, foldl_cons, ih hrs, idxOf?_cons]
    by_cases h : r = q
    · subst h
      rw [idxOf?_eq_none_iff.mpr hnot, occupant?_assign, if_pos rfl, if_pos (beq_self_eq_true r)]
      rfl
    · rw [if_neg (by simpa using h)]
      cases rs.idxOf? q with
      | none =>
        rw [occupant?_assign, if_neg fun hc => h hc.symm]
        rfl
      | some p =>
        simp only [map_some, some_inj, Occupant.mk.injEq, true_and]
        omega

theorem occupant?_hold (f : Registers) (v copy : ValueId) (dirty : Bool) (hrs : rs.Nodup) :
    (rs.zipIdx.foldl (fun f (r, part) => f.assign r ⟨v, copy, part⟩ dirty) f).occupant? =
      Claims.put f.occupant? v copy rs := by
  funext q
  rw [occupant?_assignAll v copy dirty hrs, Claims.put]
  cases rs.idxOf? q with
  | none => rfl
  | some p => simp

theorem hold_keeps (v copy : ValueId) (dirty : Bool) (rs : List Reg) : ∀ (k : Nat) (f : Registers),
    let g := (rs.zipIdx k).foldl (fun f (r, part) => f.assign r ⟨v, copy, part⟩ dirty) f
    g.allocatable = f.allocatable ∧ ∀ q, g.isLocked q = f.isLocked q := by
  induction rs with
  | nil => exact fun _ _ => ⟨rfl, fun _ => rfl⟩
  | cons r rs ih =>
    intro k f
    obtain ⟨hal, hlocked⟩ := ih (k + 1) (f.assign r ⟨v, copy, k⟩ dirty)
    exact ⟨hal, fun q => hlocked q⟩

end Registers

namespace RegisterFile

variable {f : RegisterFile} {r : Reg}

/-- The states of a file whose registers are taken only while they are not in use. -/
inductive Reached (allocatable : RegSet) : RegisterFile → Prop
  | new : Reached allocatable (.new allocatable)
  | assign {f : RegisterFile} {r : Reg} (h : Reached allocatable f) (hr : f.inUse r = false) (o : Occupant)
    (dirty : Bool) : Reached allocatable (f.assign r o dirty)
  | free {f : RegisterFile} (h : Reached allocatable f) (r : Reg) : Reached allocatable (f.free r)
  | markClean {f : RegisterFile} (h : Reached allocatable f) (v : ValueId) :
    Reached allocatable (f.markClean v)
  | lock {f : RegisterFile} (h : Reached allocatable f) (r : Reg) : Reached allocatable (f.lock r)
  | unlockAll {f : RegisterFile} (h : Reached allocatable f) : Reached allocatable f.unlockAll
  | clear {f : RegisterFile} (h : Reached allocatable f) : Reached allocatable f.clear

theorem Reached.allocatable {a : RegSet} (h : Reached a f) : f.allocatable = a := by
  induction h with
  | new => rfl
  | assign _ _ _ _ ih | free _ _ ih | markClean _ _ ih | lock _ _ ih | unlockAll _ ih | clear _ ih => exact ih

theorem Reached.consistent {a : RegSet} (h : Reached a f) : f.Consistent := by
  induction h with
  | new => exact .new a
  | assign _ _ o dirty ih => exact ih.assign _ o dirty
  | free _ r ih => exact ih.free r
  | markClean _ v ih => exact ih.markClean v
  | lock _ r ih => exact ih.lock r
  | unlockAll _ ih => exact ih.unlockAll
  | clear _ _ => exact .new _

/-- However a register file came about, it is consistent: what is dirty or locked is in use, the registers of
a value come in the order of its parts, the free register that is found is the lowest, what may be evicted is
neither free nor locked nor excluded, and marking a value as clean changes only its dirty bits. -/
theorem reached_consistent (a : RegSet) (f : RegisterFile) (h : Reached a f) : f.allocatable = a ∧
    (∀ r, f.inUse r ↔ ∃ o, f.occupant? r = some o) ∧ (∀ r, f.isDirty r ∨ f.isLocked r → f.inUse r) ∧
    (∀ v, (∀ r, r ∈ f.regsOf v ↔ f.inUse r ∧ ∃ o, f.occupant? r = some o ∧ o.value = v) ∧
      (f.regsOf v).Nodup ∧ (f.regsOf v).Pairwise fun r q =>
        ∀ o o', f.occupant? r = some o → f.occupant? q = some o' → o.part ≤ o'.part) ∧
    (∀ exclude r, f.findFree? exclude = some r → f.Free exclude r ∧ ∀ q, f.Free exclude q → r ≤ q) ∧
    (∀ exclude, f.findFree? exclude = none ↔ ∀ r, ¬f.Free exclude r) ∧
    (∀ exclude, ∀ r ∈ f.evictable exclude, f.inUse r ∧ f.isLocked r = false ∧ exclude.contains r = false) ∧
    ∀ v, (f.markClean v).allocatable = f.allocatable ∧ (f.markClean v).occupant? = f.occupant? ∧
      ∀ r, (f.markClean v).isLocked r = f.isLocked r ∧
        ((f.markClean v).isDirty r ↔ f.isDirty r ∧ r ∉ f.regsOf v) := by
  have hc := h.consistent
  have huse : ∀ r, f.inUse r ↔ ∃ o, f.occupant? r = some o := fun r => by
    rw [hc.used, isSome_iff_exists]
  refine ⟨h.allocatable, huse, fun r hr => hr.elim (hc.dirty r) (hc.locked r), fun v => ⟨fun r => mem_regsOf_iff,
      f.regsOf_nodup v, f.regsOf_ordered v⟩, fun _ _ => findFree?_eq_some, fun _ => findFree?_eq_none_iff,
    fun _ _ => mem_evictable.mp, fun v => ⟨rfl, rfl, fun r => ⟨rfl, ?_⟩⟩⟩
  rw [isDirty_markClean, Bool.and_eq_true, Bool.not_eq_true', contains_eq_mem, decide_eq_false_iff_not]

/-- A value of two words that is marked as clean. -/
theorem twoWords_consistent : let f := ((new (.firstN 4)).assign 2 ⟨7, 7, 0⟩ true).assign 1 ⟨7, 7, 1⟩ true
    Reached (.firstN 4) f ∧ f.findFree? ∅ = some 0 ∧ f.isDirty 1 ∧ ¬(f.markClean 7).isDirty 1 := by
  intro f
  have hf : Reached (.firstN 4) f := .assign (.assign .new (by decide) _ _) (by decide) _ _
  obtain ⟨-, -, -, -, -, -, -, hclean⟩ := reached_consistent (.firstN 4) f hf
  refine ⟨hf, by decide, by decide, fun hdirty => ?_⟩
  exact (((hclean 7).2.2 1).2.mp hdirty).2 (mem_regsOf_iff.mpr ⟨by decide, _, rfl, rfl⟩)

end RegisterFile

end SsaCodegen
