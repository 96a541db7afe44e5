import Mathlib.Algebra.BigOperators.Group.List.Basic
import SsaCodegen.Proofs.Checks
import SsaCodegen.Proofs.Construction.Form

/-! What use counts count: operands of values and returns, and the controls of blocks. The operands of a
control that another block lists are counted once more. -/

namespace SsaCodegen

open List

namespace Func

variable {f : Func} {b : BlockId} {v : ValueId}

/-- The values that a block holds: those that it lists, and its return. -/
def held (f : Func) (b : BlockId) : List ValueId :=
  (f.block b).values ++ if (f.block b).kind = .ret then (f.block b).control.toList else []

/-- What the operands of values that blocks hold are, each place once. -/
def slots (f : Func) : List ValueId :=
  ((List.range f.values.size).filter fun w => f.blockIds.any fun b => (f.held b).contains w).flatMap f.args

def controls (f : Func) : List ValueId := f.blockIds.flatMap fun b => (f.block b).control.toList

/-- The value on which a block branches, if the block does not list it. -/
def borrowed (f : Func) (b : BlockId) : List ValueId :=
  if (f.block b).kind = .branch then (f.block b).control.toList.filter (· ∉ (f.block b).values) else []

section

variable (h : f.SsaForm)

include h

theorem SsaForm.mem_held (hb : b < f.blocks.size) (hv : v ∈ f.held b) :
    v < f.values.size ∧ (f.value v).block = b := by
  rcases mem_append.mp hv with hv | hv
  · exact h.placed b v hv
  · split at hv
    · next hk =>
      obtain ⟨c, hc, hlt, -, hblock, -⟩ := h.ret b hb hk
      rw [hc, Option.toList_some, mem_singleton] at hv
      rw [hv]
      exact ⟨hlt, hblock⟩
    · cases hv

theorem SsaForm.nodup_held (hb : b < f.blocks.size) : (f.held b).Nodup := by
  rw [held]
  split
  · next hk =>
    obtain ⟨c, hc, -, -, -, hnot, -⟩ := h.ret b hb hk
    rw [hc]
    exact List.Nodup.append (h.nodup b) (nodup_singleton c) (disjoint_singleton.mpr (hnot b))
  · rw [append_nil]
    exact h.nodup b

/-- Every value is held by one block, so its operands are counted once. -/
theorem SsaForm.slots_perm : f.slots.Perm (f.blockIds.flatMap fun b => (f.held b).flatMap f.args) := by
  have hlt : ∀ b ∈ f.blockIds, b < f.blocks.size := fun b hb => mem_range.mp hb
  have hnodup : (f.blockIds.flatMap f.held).Nodup := by
    refine nodup_flatMap.mpr ⟨fun b hb => h.nodup_held (hlt b hb), ?_⟩
    refine List.Pairwise.imp_of_mem (fun hb hc hne v hvb hvc => hne ?_) (nodup_range)
    rw [← (h.mem_held (hlt _ hb) hvb).2, (h.mem_held (hlt _ hc) hvc).2]
  rw [← flatMap_assoc]
  refine List.Perm.flatMap_right _ ((perm_ext_iff_of_nodup (nodup_range.filter _) hnodup).mpr fun v => ?_)
  simp only [mem_filter, mem_range, any_eq_true, contains_iff_mem, mem_flatMap]
  exact ⟨And.right, fun ⟨b, hb, hv⟩ => ⟨(h.mem_held (hlt b hb) hv).1, b, hb, hv⟩⟩

theorem SsaForm.count_blockRefs (hb : b < f.blocks.size) : (f.blockRefs b).count v =
    ((f.held b).flatMap f.args).count v + (f.block b).control.toList.count v +
      ((f.borrowed b).flatMap f.args).count v := by
  rw [blockRefs, held, borrowed]
  cases hk : (f.block b).kind with
  | plain => simp [h.plain b hk]
  | branch =>
    obtain ⟨c, hc, -⟩ := h.branch b hb hk
    by_cases hmem : c ∈ (f.block b).values
    · simp [hc, hmem, count_cons]
    · simp [hc, hmem, count_cons]
      omega
  | ret =>
    obtain ⟨c, hc, -, -, -, hnot, -⟩ := h.ret b hb hk
    simp [hc, hnot b, count_cons]
    omega

theorem SsaForm.count_refs (v : ValueId) : (f.blockIds.flatMap f.blockRefs).count v =
    f.slots.count v + f.controls.count v + ((f.blockIds.flatMap f.borrowed).flatMap f.args).count v := by
  rw [h.slots_perm.count_eq, controls, flatMap_assoc]
  simp only [count_flatMap, ← sum_map_add]
  exact congrArg List.sum (map_congr_left fun b hb => h.count_blockRefs (mem_range.mp hb))

end

end Func

variable {ir : Ir.Func} {types : TypeTable} {built : Built} {v : ValueId}

/-- In a function that was brought into SSA form the count of a value is the number of places that hold it, among
the operands of the values that blocks list and of the returns, and of the blocks whose control it is; and
besides that, of the operands of values on which a block branches without listing them. -/
theorem buildSsa_counts_uses (hbuilt : buildSsa ir types = .ok built) (hv : v < built.func.values.size) :
    (built.func.value v).uses = built.func.slots.count v + built.func.controls.count v +
      ((built.func.blockIds.flatMap built.func.borrowed).flatMap built.func.args).count v := by
  obtain ⟨hvalid, s, hs, rfl⟩ := lowered_of_buildSsa hbuilt
  have hc := (Construction.complete_of_lowered hvalid hs).collapse.complete
  rw [Construction.finish_func] at hv ⊢
  rw [← hc.ssaForm.recountUses.count_refs, Func.blockIds, Func.blocks_recountUses,
    funext (Func.blockRefs_recountUses _), Func.value_recountUses _ (by rwa [← Func.values_size_recountUses])]
  rfl

/-- A test that is made in one block and decides in the next one. -/
def relay : Ir.Func where
  name := "relay"
  params := [TypeId.bool]
  result := TypeId.void
  locals := #[⟨"c", TypeId.bool⟩]
  blocks := #[⟨"entry", [0, 1, 2], some (.jump 1)⟩, ⟨"next", [3], some (.branch 3 2 3)⟩,
    ⟨"yes", [], some (.ret none)⟩, ⟨"no", [], some (.ret none)⟩]
  nodes := #[⟨TypeId.bool, .param 0⟩, ⟨TypeId.bool, .unary .not 0⟩, ⟨TypeId.void, .storeLocal 0 1⟩,
    ⟨TypeId.bool, .loadLocal 0⟩]

theorem relay_counts_uses : ∃ built, buildSsa relay .builtins = .ok built ∧ 1 < built.func.values.size ∧
    (built.func.value 1).uses = built.func.slots.count 1 + built.func.controls.count 1 +
      ((built.func.blockIds.flatMap built.func.borrowed).flatMap built.func.args).count 1 := by
  obtain ⟨built, hbuilt, hlt⟩ := exists_ok_of_any (m := buildSsa relay .builtins)
    (p := fun built => 1 < built.func.values.size) (by decide +kernel)
  exact ⟨built, hbuilt, of_decide_eq_true hlt, buildSsa_counts_uses hbuilt (of_decide_eq_true hlt)⟩

/-- The parameter is the operand of the test alone, and is counted twice. -/
theorem relay_counts_twice : ∃ built, buildSsa relay .builtins = .ok built ∧ (built.func.value 1).uses = 2 ∧
    built.func.slots.count 1 + built.func.controls.count 1 = 1 := by
  obtain ⟨built, hbuilt, hany⟩ := exists_ok_of_any (m := buildSsa relay .builtins)
    (p := fun built => (built.func.value 1).uses = 2 ∧ built.func.slots.count 1 + built.func.controls.count 1 = 1)
    (by decide +kernel)
  exact ⟨built, hbuilt, of_decide_eq_true hany⟩

end SsaCodegen
