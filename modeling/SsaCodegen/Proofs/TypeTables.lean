import Mathlib.Order.Nat
import SsaCodegen.Proofs.Arrays
import SsaCodegen.Types

/-! Tables of types as they come about: the builtin types, and structs that are registered one after the
other. -/

namespace SsaCodegen.TypeTable

open List

/-- A table that was made by registering structs. -/
inductive Made : TypeTable → Prop
  | builtins : Made builtins
  | internStruct {t : TypeTable} (h : Made t) (fields : List TypeId) : Made (t.internStruct fields).2

variable {t : TypeTable} {ty : TypeId} {fields : List TypeId} {offsets : List Nat}

theorem length_placeFields (t : TypeTable) (fields : List TypeId) : ∀ start,
    (t.placeFields start fields).1.length = fields.length := by
  induction fields with
  | nil => exact fun _ => rfl
  | cons ty rest ih =>
    intro start
    exact congrArg Nat.succ (ih _)

theorem info_push (t : TypeTable) (i : TypeInfo) (structs : List (List TypeId × TypeId)) (ty : TypeId) :
    info ⟨t.infos.push i, structs⟩ ty = if ty = t.count then i else t.info ty := by
  rw [info, Array.getD_eq_getD_getElem?, Array.getElem?_push, info, Array.getD_eq_getD_getElem?, count]
  split <;> rfl

theorem info_eq_getElem (h : ty < t.infos.size) : t.info ty = t.infos[ty] := by
  rw [info, Array.getD_eq_getD_getElem?, Array.getElem?_eq_getElem h, Option.getD_some]

theorem lt_count_of_struct (h : t.kind ty = .struct fields offsets) : ty < t.count := by
  refine not_le.mp fun hge => ?_
  rw [kind, info, getD_of_size_le hge] at h
  cases h

/-- A list of fields that is in the map keeps its number, and a new one gets the next. -/
theorem internStruct_cases (t : TypeTable) (fields : List TypeId) :
    (∃ ty, t.internStruct fields = (ty, t) ∧ t.structs.lookup fields = some ty) ∨
    (t.internStruct fields = (t.count, ⟨t.infos.push (t.structInfo fields), (fields, t.count) :: t.structs⟩) ∧
      t.structs.lookup fields = none) := by
  rw [internStruct]
  cases hfind : t.structs.lookup fields with
  | some ty => exact .inl ⟨ty, rfl, rfl⟩
  | none => exact .inr ⟨rfl, rfl⟩

theorem builtins_ne_struct : builtins.kind ty ≠ .struct fields offsets := by
  intro h
  have hall : ∀ i ∈ builtins.infos, ∀ fields offsets, i.kind ≠ .struct fields offsets := by
    simp [builtins, intInfo]
  have hlt : ty < builtins.infos.size := lt_count_of_struct h
  rw [kind, info_eq_getElem hlt] at h
  exact hall _ (Array.getElem_mem hlt) fields offsets h

theorem info_internStruct (t : TypeTable) (fields : List TypeId) (hty : ty < t.count) :
    ty < (t.internStruct fields).2.count ∧ (t.internStruct fields).2.info ty = t.info ty := by
  rcases t.internStruct_cases fields with ⟨_, heq, -⟩ | ⟨heq, -⟩
  · rw [heq]
    exact ⟨hty, rfl⟩
  · rw [heq, count, Array.size_push, info_push, if_neg hty.ne]
    exact ⟨Nat.lt_succ_of_lt hty, rfl⟩

section

variable (h : t.Made)

include h

theorem Made.info_builtin (hty : ty < TypeTable.builtins.count) :
    ty < t.count ∧ t.info ty = TypeTable.builtins.info ty := by
  induction h with
  | builtins => exact ⟨hty, rfl⟩
  | internStruct _ fields ih =>
    obtain ⟨hlt, hinfo⟩ := info_internStruct _ fields ih.1
    exact ⟨hlt, hinfo.trans ih.2⟩

theorem Made.isMemoryAggregate_builtin (hty : ty < TypeTable.builtins.count) :
    t.isMemoryAggregate ty = TypeTable.builtins.isMemoryAggregate ty := by
  have hinfo := (h.info_builtin hty).2
  simp only [isMemoryAggregate, kind, size, hinfo]
  rfl

theorem Made.bool_not_memory : t.isMemoryAggregate TypeId.bool = false :=
  h.isMemoryAggregate_builtin (by decide)

theorem Made.void_not_memory : t.isMemoryAggregate TypeId.void = false :=
  h.isMemoryAggregate_builtin (by decide)

theorem Made.parts_builtin (hty : ty < TypeTable.builtins.count) : t.parts ty = TypeTable.builtins.parts ty := by
  have hinfo := (h.info_builtin hty).2
  simp only [parts, kind, size, hinfo]
  rfl

theorem Made.parts_mem : t.parts TypeId.mem = 0 :=
  h.parts_builtin (by decide)

theorem Made.parts_void : t.parts TypeId.void = 0 :=
  h.parts_builtin (by decide)

theorem Made.parts_ptr : t.parts TypeId.ptr = 1 :=
  h.parts_builtin (by decide)

theorem Made.kind_cases (ty : TypeId) : ty < TypeTable.builtins.count ∨
    (∃ fields offsets, t.kind ty = .struct fields offsets ∧ offsets.length = fields.length) ∨
    t.kind ty = .void := by
  induction h with
  | builtins =>
    by_cases hlt : ty < TypeTable.builtins.count
    · exact .inl hlt
    · right; right
      rw [kind, info, getD_of_size_le (not_lt.mp hlt)]
      rfl
  | @internStruct t _ fields ih =>
    rcases t.internStruct_cases fields with ⟨_, heq, -⟩ | ⟨heq, -⟩
    · rw [heq]
      exact ih
    · rw [heq, kind, info_push]
      split
      · exact .inr (.inl ⟨fields, _, rfl, length_placeFields t fields 0⟩)
      · exact ih

theorem Made.kind_builtin (hty : ty < TypeTable.builtins.count) :
    t.kind ty = TypeTable.builtins.kind ty := congrArg TypeInfo.kind (h.info_builtin hty).2

theorem Made.size_builtin (hty : ty < TypeTable.builtins.count) :
    t.size ty = TypeTable.builtins.size ty := congrArg TypeInfo.size (h.info_builtin hty).2

theorem Made.builtin_of_isInteger (hty : t.isInteger ty) : ty < TypeTable.builtins.count := by
  rcases h.kind_cases ty with hlt | ⟨fields, offsets, hkind, -⟩ | hkind
  · exact hlt
  · rw [isInteger, hkind] at hty
    cases hty
  · rw [isInteger, hkind] at hty
    cases hty

theorem Made.integer (hty : t.isInteger ty) :
    t.parts ty = 1 ∧ ty ≠ TypeId.mem ∧ ty ≠ TypeId.void ∧ t.isMemoryAggregate ty = false := by
  have hlt := h.builtin_of_isInteger hty
  have hall : ∀ ty < TypeTable.builtins.count, TypeTable.builtins.isInteger ty →
      TypeTable.builtins.parts ty = 1 ∧ ty ≠ TypeId.mem ∧ ty ≠ TypeId.void ∧
        TypeTable.builtins.isMemoryAggregate ty = false := by decide
  rw [h.parts_builtin hlt, h.isMemoryAggregate_builtin hlt]
  rw [isInteger, h.kind_builtin hlt] at hty
  exact hall ty hlt hty

theorem Made.integer_ptr : t.isInteger TypeId.ptr := by
  rw [isInteger, h.kind_builtin (by decide)]
  rfl

theorem Made.integer_bool : t.isInteger TypeId.bool := by
  rw [isInteger, h.kind_builtin (by decide)]
  rfl

theorem Made.length_offsets (hkind : t.kind ty = .struct fields offsets) : offsets.length = fields.length := by
  rcases h.kind_cases ty with hlt | ⟨fields', offsets', hkind', hlen⟩ | hkind'
  · rw [h.kind_builtin hlt] at hkind
    exact absurd hkind builtins_ne_struct
  · cases hkind.symm.trans hkind'
    exact hlen
  · cases hkind.symm.trans hkind'

theorem Made.wordPartitioned (hty : t.isWordPartitioned ty) : ty ≠ TypeId.void ∧ t.fieldCount ty ≤ 2 ∧
      ∀ i field, t.fieldType? ty i = some field → t.size field = wordSize := by
  refine ⟨?_, ?_⟩
  · rintro rfl
    rw [isWordPartitioned, h.kind_builtin (by decide)] at hty
    cases hty
  · simp only [isWordPartitioned, fieldCount, fieldType?] at hty ⊢
    generalize hkind : t.kind ty = kind at hty ⊢
    cases kind with
    | slice =>
      refine ⟨le_refl 2, fun i field hfield => ?_⟩
      have hmem := mem_of_getElem? hfield
      rcases mem_cons.mp hmem with rfl | hmem
      · rw [h.size_builtin (by decide)]
        rfl
      · rw [mem_singleton.mp hmem, h.size_builtin (by decide)]
        rfl
    | struct fields offsets =>
      simp only [Bool.and_eq_true, decide_eq_true_eq, all_eq_true, beq_iff_eq] at hty
      refine ⟨hty.1, fun i field hfield => ?_⟩
      obtain ⟨hi, rfl⟩ := List.getElem?_eq_some_iff.mp hfield
      have hi' : i < offsets.length := h.length_offsets hkind ▸ hi
      refine (hty.2 ((fields[i], offsets[i]), i) ?_).1
      rw [mem_zipIdx_iff_getElem?]
      exact getElem?_zip_eq_some.mpr ⟨getElem?_eq_getElem hi, getElem?_eq_getElem hi'⟩
    | void | bool | int _ _ | ptr | mem => cases hty

end

theorem not_memory_of_size (hty : t.size ty = wordSize) : t.isMemoryAggregate ty = false := by
  rw [isMemoryAggregate]
  split
  · rw [hty]
    rfl
  · rfl

end SsaCodegen.TypeTable
