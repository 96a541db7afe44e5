import Mathlib.Order.MinMax
import SsaCodegen.Proofs.Frame
import SsaCodegen.Proofs.TypeTables

/-! Structs in a table of types. The sizes and alignments of types never change, so layouts stay right. -/

namespace SsaCodegen.TypeTable

open List

variable {t t' : TypeTable} {ty : TypeId} {fields : List TypeId} {offsets : List Nat}

/-- Registers structs one after the other: their numbers, and the table in the end. -/
def registerAll : TypeTable → List (List TypeId) → List TypeId × TypeTable
  | t, [] => ([], t)
  | t, fields :: rest =>
    let (ty, t) := t.internStruct fields
    let (tys, t) := t.registerAll rest
    (ty :: tys, t)

/-- Every field is known when its struct is registered. -/
def Admits : TypeTable → List (List TypeId) → Prop
  | _, [] => True
  | t, fields :: rest => (∀ ty ∈ fields, t.isValid ty) ∧ (t.internStruct fields).2.Admits rest

theorem isGreatest_align (t : TypeTable) (fields : List TypeId) : ∀ a,
    IsGreatest (insert a {a | ∃ field ∈ fields, t.align field = a})
      (fields.foldl (fun a ty => max a (t.align ty)) a) := by
  induction fields with
  | nil => exact fun a => by simp [IsGreatest, upperBounds]
  | cons field fields ih =>
    intro a
    obtain ⟨hmem, hle⟩ := ih (max a (t.align field))
    have hmax := hle (Set.mem_insert _ _)
    refine ⟨?_, ?_⟩
    · rcases hmem with heq | ⟨f, hf, hval⟩
      · rw [foldl_cons, heq]
        exact (max_choice a (t.align field)).imp id fun h => ⟨field, mem_cons_self, h.symm⟩
      · exact .inr ⟨f, mem_cons_of_mem _ hf, hval⟩
    · rintro _ (rfl | ⟨f, hf, rfl⟩)
      · exact (Nat.le_max_left _ _).trans hmax
      · rcases mem_cons.mp hf with rfl | hf
        · exact (Nat.le_max_right _ _).trans hmax
        · exact hle (.inr ⟨f, hf, rfl⟩)

theorem structInfo_congr (h : ∀ field ∈ fields, t'.info field = t.info field) :
    t'.structInfo fields = t.structInfo fields := by
  have hplace : ∀ start, t'.placeFields start fields = t.placeFields start fields := by
    induction fields with
    | nil => exact fun _ => rfl
    | cons field fields ih =>
      intro start
      simp only [placeFields, align, size, h field mem_cons_self, ih fun f hf => h f (mem_cons_of_mem _ hf)]
  have halign : ∀ a, ∀ field ∈ fields, max a (t'.align field) = max a (t.align field) := fun a field hf => by
    rw [align, h field hf, align]
  rw [structInfo, structInfo, hplace, foldl_ext _ _ _ halign]

/-- A table whose structs are laid out as its own entries say, and whose map has the number of each. -/
structure Sound (t : TypeTable) : Prop where
  power : ∀ ty, ∃ k, t.align ty = 2 ^ k
  struct : ∀ {ty fields offsets}, t.kind ty = .struct fields offsets →
    (∀ field ∈ fields, field < t.count) ∧ t.info ty = t.structInfo fields
  mapped : ∀ fields ty, t.structs.lookup fields = some ty ↔ ∃ offsets, t.kind ty = .struct fields offsets

theorem Sound.internStruct (h : t.Sound) (hfields : ∀ field ∈ fields, field < t.count) :
    (t.internStruct fields).2.Sound := by
  rcases t.internStruct_cases fields with ⟨ty, heq, -⟩ | ⟨heq, hnew⟩
  · rw [heq]
    exact h
  · rw [heq]
    generalize ht' : TypeTable.mk _ _ = t'
    have hinfo : ∀ ty, t'.info ty = if ty = t.count then t.structInfo fields else t.info ty :=
      fun ty => ht' ▸ t.info_push _ _ ty
    have hcount : ∀ ty < t.count, ty < t'.count := fun ty hty => by
      rw [← ht']
      exact (Nat.lt_succ_of_lt hty).trans_eq (Array.size_push _).symm
    have hsame : ∀ {fs : List TypeId}, (∀ field ∈ fs, field < t.count) → t'.structInfo fs = t.structInfo fs :=
      fun hfs => structInfo_congr fun field hf => by rw [hinfo, if_neg (hfs field hf).ne]
    refine ⟨fun ty => ?_, fun {ty fs os} hkind => ?_, fun fs ty => ?_⟩
    · rw [align, hinfo]
      split
      · rcases (t.isGreatest_align fields 1).1 with hone | ⟨field, -, halign⟩
        · exact ⟨0, hone⟩
        · obtain ⟨k, hk⟩ := h.power field
          exact ⟨k, halign.symm.trans hk⟩
      · exact h.power ty
    · rw [kind, hinfo] at hkind
      rw [hinfo]
      by_cases hty : ty = t.count
      · rw [if_pos hty] at hkind ⊢
        obtain ⟨rfl, -⟩ := TypeKind.struct.inj hkind
        exact ⟨fun field hf => hcount field (hfields field hf), (hsame hfields).symm⟩
      · rw [if_neg hty] at hkind ⊢
        obtain ⟨hfs, hstruct⟩ := h.struct hkind
        exact ⟨fun field hf => hcount field (hfs field hf), hstruct.trans (hsame hfs).symm⟩
    · -- the new entry of the map is the last type of the table
      have hmap : t'.structs.lookup fs = if fs = fields then some t.count else t.structs.lookup fs := by
        rw [← ht']
        grind
      have hlt : ∀ {os}, t.kind ty = .struct fs os → ty < t.count := lt_count_of_struct
      have hold := h.mapped fs ty
      rw [hmap, kind, hinfo]
      by_cases hty : ty = t.count
      · rw [if_pos hty]
        change _ ↔ ∃ os, TypeKind.struct fields _ = .struct fs os
        simp only [TypeKind.struct.injEq, exists_and_left, exists_eq', and_true]
        grind
      · rw [if_neg hty]
        grind [kind]

theorem Sound.struct_internStruct (h : t.Sound) (fields : List TypeId) :
    ∃ offsets, (t.internStruct fields).2.kind (t.internStruct fields).1 = .struct fields offsets := by
  rcases t.internStruct_cases fields with ⟨ty, heq, hty⟩ | ⟨heq, -⟩
  · rw [heq]
    exact (h.mapped fields ty).mp hty
  · rw [heq, kind, info_push, if_pos rfl]
    exact ⟨_, rfl⟩

theorem info_registerAll (regs : List (List TypeId)) : ∀ {t : TypeTable}, ty < t.count →
    ty < (t.registerAll regs).2.count ∧ (t.registerAll regs).2.info ty = t.info ty := by
  induction regs with
  | nil => exact fun hty => ⟨hty, rfl⟩
  | cons fields regs ih =>
    intro t hty
    obtain ⟨hlt, hinfo⟩ := t.info_internStruct fields hty
    exact ⟨(ih hlt).1, (ih hlt).2.trans hinfo⟩

theorem Sound.registerAll (regs : List (List TypeId)) : ∀ {t : TypeTable}, t.Sound → t.Admits regs →
    (t.registerAll regs).2.Sound ∧
      Forall₂ (fun ty fields => ∃ offsets, (t.registerAll regs).2.kind ty = .struct fields offsets)
        (t.registerAll regs).1 regs := by
  induction regs with
  | nil => exact fun h _ => ⟨h, .nil⟩
  | cons fields regs ih =>
    intro t h hadmits
    obtain ⟨hsound, hall⟩ := ih (h.internStruct fun f hf => of_decide_eq_true (hadmits.1 f hf)) hadmits.2
    obtain ⟨offsets, hkind⟩ := h.struct_internStruct fields
    refine ⟨hsound, .cons ⟨offsets, ?_⟩ hall⟩
    exact (congrArg TypeInfo.kind (info_registerAll regs (lt_count_of_struct hkind)).2).trans hkind

end SsaCodegen.TypeTable
