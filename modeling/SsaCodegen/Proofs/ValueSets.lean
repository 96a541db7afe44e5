import Mathlib.Data.List.Nodup
import Mathlib.Order.Nat
import SsaCodegen.Ssa.ValueSet

/-! Membership in dense sets of values: what each operation does to the members, whatever the number
of words. -/

namespace SsaCodegen.ValueSet

open List

instance : Membership ValueId ValueSet := ⟨fun s v => s.contains v = true⟩

instance (s : ValueSet) (v : ValueId) : Decidable (v ∈ s) := inferInstanceAs (Decidable (s.contains v = true))

variable {s t : ValueSet} {u v i n : Nat}

theorem mem_iff_getLsbD : v ∈ s ↔ (s.word (v / 64)).getLsbD (v % 64) := Iff.rfl

theorem word_eq_getElem? (s : ValueSet) (i : Nat) : s.word i = s.words[i]?.getD 0#64 :=
  Array.getD_eq_getD_getElem?

theorem word_of_size_le (h : s.words.size ≤ i) : s.word i = 0#64 := by
  rw [word_eq_getElem?, Array.getElem?_eq_none h, Option.getD_none]

@[simp] theorem word_extend (s : ValueSet) (n i : Nat) : (s.extend n).word i = s.word i := by
  rw [word_eq_getElem?, word_eq_getElem?, extend, Array.getElem?_append]
  split
  · rfl
  · next h =>
    rw [Array.getElem?_eq_none (not_lt.mp h), Array.getElem?_replicate]
    split <;> rfl

theorem size_extend (s : ValueSet) (n : Nat) : (s.extend n).words.size = max s.words.size n := by
  rw [extend, Array.size_append, Array.size_replicate]
  omega

theorem not_mem_withCapacity : v ∉ withCapacity n := by
  rw [mem_iff_getLsbD, word_eq_getElem?, withCapacity, Array.getElem?_replicate]
  split <;> simp

theorem not_mem_empty : v ∉ (∅ : ValueSet) := by
  intro h
  have hbit : (0#64).getLsbD (v % 64) := h
  simp at hbit

theorem getLsbD_one_shiftLeft {j k : Nat} (hj : j < 64) : (1#64 <<< k).getLsbD j = decide (j = k) := by
  by_cases hjk : j = k
  · simp [hjk, hjk ▸ hj]
  · by_cases hlt : j < k
    · simp [hlt, hjk]
    · have hsub : j - k ≠ 0 := by omega
      simp [hjk, hsub]

theorem eq_iff_div_mod : u = v ↔ u / 64 = v / 64 ∧ u % 64 = v % 64 := by
  omega

theorem mem_insert : u ∈ s.insert v ↔ u = v ∨ u ∈ s := by
  have hlt : u % 64 < 64 := Nat.mod_lt u (by decide)
  have hword : (s.insert v).word (u / 64) =
      if v / 64 = u / 64 then s.word (u / 64) ||| 1#64 <<< (v % 64) else s.word (u / 64) := by
    have hsize := size_extend s (v / 64 + 1)
    rw [word_eq_getElem?, insert, insertNew, Array.getElem?_modify]
    split
    · next heq =>
      have hin : u / 64 < (s.extend (v / 64 + 1)).words.size := by omega
      rw [← word_extend s (v / 64 + 1), word_eq_getElem?, Array.getElem?_eq_getElem hin]
      rfl
    · rw [← word_eq_getElem?, word_extend]
  rw [mem_iff_getLsbD, hword, eq_iff_div_mod (u := u)]
  by_cases hdiv : v / 64 = u / 64
  · rw [if_pos hdiv, BitVec.getLsbD_or, getLsbD_one_shiftLeft hlt, Bool.or_eq_true, decide_eq_true_eq]
    constructor
    · exact fun h => h.elim .inr fun hmod => .inl ⟨hdiv.symm, hmod⟩
    · exact fun h => h.elim (fun h => .inr h.2) .inl
  · rw [if_neg hdiv]
    exact ⟨.inr, fun h => h.elim (fun h => absurd h.1.symm hdiv) id⟩

theorem mem_erase : u ∈ s.erase v ↔ u ∈ s ∧ u ≠ v := by
  have hlt : u % 64 < 64 := Nat.mod_lt u (by decide)
  have hword : (s.erase v).word (u / 64) =
      if v / 64 = u / 64 then s.word (u / 64) &&& ~~~(1#64 <<< (v % 64)) else s.word (u / 64) := by
    rw [word_eq_getElem?, erase, Array.getElem?_modify, word_eq_getElem?]
    split
    · cases s.words[u / 64]? with
      | none => simp
      | some w => rfl
    · rfl
  rw [mem_iff_getLsbD, mem_iff_getLsbD, hword, ne_eq, eq_iff_div_mod (u := u)]
  by_cases hdiv : v / 64 = u / 64
  · rw [if_pos hdiv, BitVec.getLsbD_and, BitVec.getLsbD_not, getLsbD_one_shiftLeft hlt]
    simp [hlt, hdiv]
  · rw [if_neg hdiv]
    exact ⟨fun h => ⟨h, fun heq => hdiv heq.1.symm⟩, fun h => h.1⟩

theorem mem_union : v ∈ s.union t ↔ v ∈ s ∨ v ∈ t := by
  have hword : (s.union t).word (v / 64) = s.word (v / 64) ||| t.word (v / 64) := by
    have hget : (s.union t).words[v / 64]? =
        (s.extend t.words.size).words[v / 64]?.map (· ||| t.word (v / 64)) := Array.getElem?_mapIdx
    rw [word_eq_getElem?, hget]
    by_cases hin : v / 64 < (s.extend t.words.size).words.size
    · rw [← word_extend s t.words.size, word_eq_getElem? (s.extend _), Array.getElem?_eq_getElem hin,
        Option.map_some, Option.getD_some, Option.getD_some]
    · have hsize := size_extend s t.words.size
      rw [Array.getElem?_eq_none (not_lt.mp hin), word_of_size_le (s := s) (by omega), word_of_size_le (by omega)]
      rfl
  rw [mem_iff_getLsbD, hword, BitVec.getLsbD_or, Bool.or_eq_true]
  rfl

theorem mem_diff : v ∈ s.diff t ↔ v ∈ s ∧ v ∉ t := by
  have hlt : v % 64 < 64 := Nat.mod_lt v (by decide)
  have hword : (s.diff t).word (v / 64) = s.word (v / 64) &&& ~~~(t.word (v / 64)) := by
    have hget : (s.diff t).words[v / 64]? = s.words[v / 64]?.map (· &&& ~~~(t.word (v / 64))) := Array.getElem?_mapIdx
    rw [word_eq_getElem?, hget, word_eq_getElem? s]
    cases s.words[v / 64]? with
    | none => simp
    | some w => rfl
  rw [mem_iff_getLsbD, hword, BitVec.getLsbD_and, mem_iff_getLsbD, mem_iff_getLsbD]
  simp [hlt]

theorem mem_insertAll {vs : List ValueId} : ∀ {s : ValueSet}, u ∈ s.insertAll vs ↔ u ∈ vs ∨ u ∈ s := by
  induction vs with
  | nil => simp [insertAll]
  | cons v vs ih =>
    intro s
    calc u ∈ s.insertAll (v :: vs) ↔ u ∈ (s.insert v).insertAll vs := Iff.rfl
      _ ↔ u ∈ vs ∨ u = v ∨ u ∈ s := by rw [ih, mem_insert]
      _ ↔ u ∈ v :: vs ∨ u ∈ s := by rw [mem_cons, or_left_comm, or_assoc]

theorem mem_foldl_union {α : Type} (g : α → ValueSet) {xs : List α} : ∀ {s : ValueSet},
    u ∈ xs.foldl (fun s x => s.union (g x)) s ↔ u ∈ s ∨ ∃ x ∈ xs, u ∈ g x := by
  induction xs with
  | nil => simp
  | cons x xs ih =>
    intro s
    simp only [foldl_cons, ih, mem_union, mem_cons, exists_eq_or_imp, or_assoc]

theorem mem_bit {j : Nat} (hj : j < 64) : 64 * i + j ∈ s ↔ (s.word i).getLsbD j := by
  rw [mem_iff_getLsbD, show (64 * i + j) / 64 = i by omega, show (64 * i + j) % 64 = j by omega]

/-- Two sets are told apart exactly by their members. -/
theorem sameMembers_iff : s.sameMembers t ↔ ∀ v : Nat, v ∈ s ↔ v ∈ t := by
  rw [sameMembers, all_eq_true]
  constructor
  · intro h v
    have hword : s.word (v / 64) = t.word (v / 64) := by
      by_cases hlt : v / 64 < max s.words.size t.words.size
      · exact beq_iff_eq.mp (h _ (mem_range.mpr hlt))
      · rw [word_of_size_le (by omega), word_of_size_le (by omega)]
    rw [mem_iff_getLsbD, mem_iff_getLsbD, hword]
  · intro h i _
    rw [beq_iff_eq]
    apply BitVec.eq_of_getLsbD_eq
    intro j hj
    rw [Bool.eq_iff_iff, ← mem_bit hj, ← mem_bit hj]
    exact h (64 * i + j)

theorem lacks_iff : s.lacks v ↔ v ∉ s := by
  have hlt : v % 64 < 64 := Nat.mod_lt v (by decide)
  rw [lacks, insertNew, word_extend, beq_iff_eq, mem_iff_getLsbD, Bool.not_eq_true]
  constructor
  · intro h
    have hbit := congrArg (·.getLsbD (v % 64)) h
    simpa [getLsbD_one_shiftLeft hlt] using hbit
  · intro h
    refine BitVec.eq_of_getLsbD_eq fun j hj => ?_
    rw [BitVec.getLsbD_and, getLsbD_one_shiftLeft hj, BitVec.getLsbD_zero]
    by_cases hj : j = v % 64
    · rw [hj, h, Bool.false_and]
    · rw [decide_eq_false hj, Bool.and_false]

theorem gains_iff : s.gains t ↔ ¬(s.union t).sameMembers s := by
  have hsize : (s.union t).words.size = (s.extend t.words.size).words.size := Array.size_mapIdx
  have hgains : s.gains t ↔ (s.union t).words ≠ (s.extend t.words.size).words := bne_iff_ne
  rw [hgains, not_iff_not, sameMembers_iff]
  constructor
  · intro h v
    rw [mem_iff_getLsbD, word, h, ← word, word_extend, mem_iff_getLsbD]
  · intro h
    refine Array.ext hsize fun i hi hi' => BitVec.eq_of_getLsbD_eq fun j hj => ?_
    have hbit := h (64 * i + j)
    rw [mem_bit hj, mem_bit hj, ← word_extend s t.words.size, word_eq_getElem?, word_eq_getElem?,
      Array.getElem?_eq_getElem hi, Array.getElem?_eq_getElem hi', ← Bool.eq_iff_iff] at hbit
    exact hbit

theorem length_toList (s : ValueSet) : s.toList.length = s.size := by
  have aux : ∀ (is : List Nat) (n : Nat), n + (is.flatMap fun i => (List.range 64).filterMap fun j =>
      if (s.word i).getLsbD j then some (i * 64 + j) else none).length =
        is.foldl (fun n i => n + (List.range 64).countP (s.word i).getLsbD) n := by
    intro is
    induction is with
    | nil => exact fun _ => rfl
    | cons i is ih =>
      intro n
      rw [foldl_cons, ← ih, flatMap_cons, length_append, length_filterMap_eq_countP, ← Nat.add_assoc]
      refine congrArg (n + · + _) (countP_congr fun j _ => ?_)
      split <;> simp_all
  exact (Nat.zero_add _).symm.trans (aux _ 0)

theorem mem_toList : v ∈ s.toList ↔ v ∈ s := by
  rw [toList, mem_flatMap, mem_iff_getLsbD]
  constructor
  · rintro ⟨i, -, hi⟩
    obtain ⟨j, hj, hif⟩ := mem_filterMap.mp hi
    rw [mem_range] at hj
    split at hif
    · next hbit =>
      have hv : i * 64 + j = v := Option.some.inj hif
      rw [show v / 64 = i by omega, show v % 64 = j by omega]
      exact hbit
    · cases hif
  · intro hbit
    refine ⟨v / 64, mem_range.mpr ?_, mem_filterMap.mpr ⟨v % 64, ?_, ?_⟩⟩
    · by_contra hge
      rw [word_of_size_le (not_lt.mp hge)] at hbit
      simp at hbit
    · exact mem_range.mpr (Nat.mod_lt v (by decide))
    · rw [if_pos hbit]
      exact congrArg some (show v / 64 * 64 + v % 64 = v by omega)

theorem toList_ascending (s : ValueSet) : s.toList.Pairwise (· < ·) := by
  have hval : ∀ {i j v : Nat}, (if (s.word i).getLsbD j then some (i * 64 + j) else none) = some v →
      i * 64 + j = v := by
    intro i j v h
    split at h
    · exact Option.some.inj h
    · cases h
  rw [toList, pairwise_flatMap]
  refine ⟨fun i _ => ?_, pairwise_lt_range.imp fun {i i'} hlt v hv v' hv' => ?_⟩
  · rw [pairwise_filterMap]
    refine pairwise_lt_range.imp fun {j j'} hlt v hv v' hv' => ?_
    rw [← hval hv, ← hval hv']
    exact Nat.add_lt_add_left hlt _
  · obtain ⟨j, hj, hif⟩ := mem_filterMap.mp hv
    obtain ⟨j', hj', hif'⟩ := mem_filterMap.mp hv'
    rw [mem_range] at hj hj'
    rw [← hval hif, ← hval hif']
    -- the words of the two have other places
    exact (show i * 64 + j < i' * 64 + j' by omega)

theorem toList_nodup (s : ValueSet) : s.toList.Nodup := s.toList_ascending.imp ne_of_lt

theorem isEmpty_iff : s.isEmpty ↔ ∀ v : Nat, v ∉ s := by
  rw [isEmpty, Array.all_eq_true]
  constructor
  · intro h v hv
    rw [mem_iff_getLsbD, word_eq_getElem?] at hv
    cases hw : s.words[v / 64]? with
    | none => simp [hw] at hv
    | some w =>
      obtain ⟨hlt, rfl⟩ := Array.getElem?_eq_some_iff.mp hw
      simp [hw, beq_iff_eq.mp (h _ hlt)] at hv
  · intro h i hi
    rw [beq_iff_eq]
    apply BitVec.eq_of_getLsbD_eq
    intro j hj
    have hnot := h (64 * i + j)
    rw [mem_bit hj, word_eq_getElem?, Array.getElem?_eq_getElem hi] at hnot
    simpa using hnot

/-- Dense sets behave as the finite sets of their members, whatever the numbers of their words. Inserting
and joining tell whether a member came in, and the list of a set has every member once, in ascending order. -/
theorem tells_members (s t : ValueSet) (v : ValueId) :
    (∀ n, ∀ u : Nat, u ∉ withCapacity n) ∧ (∀ u : Nat, u ∉ (∅ : ValueSet)) ∧
    (∀ u : Nat, u ∈ s.insert v ↔ u = v ∨ u ∈ s) ∧ (∀ u : Nat, u ∈ s.erase v ↔ u ∈ s ∧ u ≠ v) ∧
    (∀ u : Nat, u ∈ s.union t ↔ u ∈ s ∨ u ∈ t) ∧ (∀ u : Nat, u ∈ s.diff t ↔ u ∈ s ∧ u ∉ t) ∧
    (s.lacks v ↔ ∃ u : Nat, u ∈ s.insert v ∧ u ∉ s) ∧ (s.gains t ↔ ∃ u : Nat, u ∈ s.union t ∧ u ∉ s) ∧
    (∀ u, u ∈ s.toList ↔ u ∈ s) ∧ s.toList.Pairwise (· < ·) ∧
    (∀ us : List ValueId, us.Nodup → (∀ u, u ∈ us ↔ u ∈ s) → us.length = s.size) ∧
    (s.isEmpty ↔ ∀ u : Nat, u ∉ s) ∧ (s.sameMembers t ↔ ∀ u : Nat, u ∈ s ↔ u ∈ t) := by
  refine ⟨fun _ _ => not_mem_withCapacity, fun _ => not_mem_empty, fun _ => mem_insert,
    fun _ => mem_erase, fun _ => mem_union, fun _ => mem_diff, ?_, ?_, fun _ => mem_toList,
    s.toList_ascending, fun us hnodup hus => ?_, isEmpty_iff, sameMembers_iff⟩
  · rw [lacks_iff]
    constructor
    · exact fun h => ⟨v, mem_insert.mpr (.inl rfl), h⟩
    · rintro ⟨u, hu, hnot⟩
      obtain rfl := (mem_insert.mp hu).resolve_right hnot
      exact hnot
  · rw [gains_iff, sameMembers_iff, not_forall]
    refine exists_congr fun u => ⟨fun h => ?_, fun ⟨hu, hnot⟩ h => hnot (h.mp hu)⟩
    by_contra hno
    exact h ⟨fun hu => by_contra fun hnot => hno ⟨hu, hnot⟩, fun hu => mem_union.mpr (.inl hu)⟩
  · rw [← length_toList]
    apply Perm.length_eq
    rw [perm_ext_iff_of_nodup hnodup s.toList_nodup]
    exact fun u => (hus u).trans mem_toList.symm

end SsaCodegen.ValueSet
