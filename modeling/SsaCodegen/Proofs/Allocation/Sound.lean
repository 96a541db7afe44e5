import SsaCodegen.Proofs.Allocation.Words
import SsaCodegen.Proofs.Construction.Allocatable

/-! The result of register allocation passes the checks and stays within the registers handed out. -/

namespace SsaCodegen

open List

theorem Draft.Step.located {d : Draft} {b : BlockId} {pre : List ValueId} {P P' : Claims} {w : ValueId}
    (hstep : d.Step b pre P w P') (hkin : ∀ v < d.source.values.size, d.source.Kin d.func v)
    (hres : (d.func.value w).hasResult) : (d.func.value w).loc ≠ none := by
  have hregs : d.func.regsOf w ≠ [] → (d.func.value w).loc ≠ none := by
    intro hne hloc
    rw [Func.regsOf, hloc] at hne
    exact hne rfl
  have hsource : ∀ hlt : w < d.source.values.size, (d.source.value w).hasResult := by
    intro hlt
    rw [Value.hasResult, ← (hkin w hlt).ty]
    exact hres
  cases hstep with
  | compute lt op inner other reads settled => exact settled.located (hsource lt)
  | call lt op isCall reads settled => exact settled.located (hsource lt)
  | store new op args home before loc =>
    rw [loc]
    exact Option.some_ne_none _
  | load new op args stored loc available ty regs => exact hregs regs
  | remake new op payload args const value ty regs => exact hregs regs

namespace Setting.Resolved

variable {c : Setting} {allowed : RegSet} {f : Func} {moves : Array (List WordMove)} {t : Outline}
  {b q : BlockId} {v : ValueId} {l : ValueLoc} {r : Reg} {m : WordMove}

section

variable (h : Resolved c allowed f moves t)

include h

theorem located (hf : f.SsaForm) (hv : v ∈ (t.func.block b).values)
    (hres : (t.func.value v).hasResult) : (t.func.value v).loc ≠ none := by
  obtain ⟨S, rest, hpath⟩ := h.path hf (h.lt_of_mem hv)
  rw [hpath.values] at hv
  rcases mem_append.mp hv with hv | hv
  · refine hpath.start.located v hv ?_
    rw [← h.consistent.hasResult (hf.placed b v (Func.mem_values_of_mem_leading hv)).1]
    exact hres
  · obtain ⟨ws, post, rfl⟩ := append_of_mem hv
    obtain ⟨M, P, P', -, -, hstep, -⟩ := hpath.steps.at_mem
    exact hstep.located h.consistent.kin hres

theorem reg_cases (hl : (t.func.value v).loc = some l)
    (hr : r ∈ l.regs) : allowed.contains r ∨ c.signature.Delivers (t.func.value v) l := by
  rcases h.consistent.tidy.origin v l hl with hdel | ⟨hregs, -⟩
  · exact .inr hdel
  · exact .inl (hregs r hr)

theorem loc_of_move (hm : m ∈ moves.getD q [])
    (hr : m.src = .reg r ∨ m.dst = .reg r) : ∃ v l, (t.func.value v).loc = some l ∧ r ∈ l.regs := by
  rw [h.moves] at hm
  obtain ⟨b, -, hm⟩ := mem_flatMap.mp hm
  rw [Func.edgeCopies] at hm
  split at hm
  · cases hm
  · obtain ⟨p, -, hm⟩ := mem_flatMap.mp hm
    obtain ⟨src, dst, i, hsrc, hdst, -, rfl⟩ := mem_phiCopies hm
    rcases hr with hr | hr
    · exact ⟨_, src, hsrc, ValueLoc.mem_regs_of_part hr⟩
    · exact ⟨p, dst, hdst, ValueLoc.mem_regs_of_part hr⟩

end

end Setting.Resolved

theorem Signature.delivered_le {types : TypeTable} {f : Func} {sig : Signature} {x : Value}
    {l : ValueLoc} {r : Reg} (hsig : Signature.of types f = .ok sig) (h : sig.Delivers x l)
    (hr : r ∈ l.regs) : r.val ≤ 8 := by
  rcases h with ⟨-, i, -, hl⟩ | ⟨-, rfl⟩
  · exact ((Signature.location_of_param hsig hl).2.1 r hr).le
  · rw [mem_singleton.mp hr]
    decide

def reservedRegs : List Reg := [Reg.ip0, Reg.ip1, Reg.fp, Reg.lr, Reg.sp]

theorem not_reserved_of_lt {r : Reg} (hr : r.val < 16) : r ∉ reservedRegs := by
  intro hmem
  simp only [reservedRegs, mem_cons, not_mem_nil, or_false] at hmem
  rcases hmem with rfl | rfl | rfl | rfl | rfl <;> exact absurd hr (by decide)

/-- A successful register allocation of what construction built passes the checks on SSA form and on
conflicts between registers. Every result has a location; its registers are among the first `n`, or they
are those in which the caller passes it; moves at the ends of blocks mention only such registers, have
different destinations, and there are none before a choice. -/
theorem allocate_checks {ir : Ir.Func} {types : TypeTable} {built : Built} {n : Nat} {a : Allocation}
    {g : Func} (htypes : types.Made) (hbuilt : buildSsa ir types = .ok built) (hmin : 4 ≤ n)
    (hmax : n ≤ 16)
    (h : allocate built.func.splitCriticalEdges types (RegSet.firstN n) = .ok (a, g)) :
    g.verify = .ok () ∧ g.checkAllocation = .ok () ∧
    (∀ b, ∀ v ∈ (g.block b).values, (g.value v).hasResult = true → (g.value v).loc ≠ none) ∧
    Signature.of types built.func.splitCriticalEdges = .ok a.signature ∧
    (∀ v l, (g.value v).loc = some l → ∀ r ∈ l.regs,
      r ∉ reservedRegs ∧ (r.val < n ∨ a.signature.Delivers (g.value v) l)) ∧
    (∀ b, ∀ m ∈ a.edgeMoves.getD b [], ∀ r, m.src = .reg r ∨ m.dst = .reg r →
      r ∉ reservedRegs ∧ ∃ v l, (g.value v).loc = some l ∧ r ∈ l.regs) ∧
    (∀ b, ((a.edgeMoves.getD b []).map WordMove.dst).Nodup) ∧
    ∀ b, (g.block b).kind = .branch → a.edgeMoves.getD b [] = [] := by
  have hf := prepared_of_buildSsa htypes hbuilt
  obtain ⟨c, t, rfl, hsig, hasig, -, rfl, hres⟩ := allocate_spec hf (RegSet.contains_firstN_of_lt_two hmin) h
  have hres' := hres.recount
  have hregs : ∀ v l, (t.recount.func.value v).loc = some l → ∀ r ∈ l.regs,
      r ∉ reservedRegs ∧ (r.val < n ∨ c.signature.Delivers (t.recount.func.value v) l) := by
    intro v l hl r hr
    have hcases := hres'.reg_cases hl hr
    rw [RegSet.contains_firstN] at hcases
    refine ⟨not_reserved_of_lt ?_, hcases⟩
    rcases hcases with hlt | hdel
    · exact Nat.lt_of_lt_of_le hlt hmax
    · exact Nat.lt_of_le_of_lt (Signature.delivered_le hsig hdel hr) (by decide)
  refine ⟨?_, hres'.checkAllocation hf, fun b v => hres'.located hf.ssa, by rw [hasig]; exact hsig, ?_,
    fun b m hm r hr => ?_, hres'.moves_nodup hf hsig, fun b hk => ?_⟩
  · exact (hres.ssaForm hf.ssa).verify (hres.branchesOnBool hf.ssa hf.onBool)
  · rw [hasig]
    exact hregs
  · obtain ⟨v, l, hl, hmem⟩ := hres'.loc_of_move hm hr
    exact ⟨(hregs v l hl r hmem).1, v, l, hl, hmem⟩
  · have hkind : (built.func.splitCriticalEdges.block b).kind = .branch := by
      rw [← hres'.consistent.graph.kind]
      exact hk
    refine hres'.moves_of_choice hf ?_
    rw [hf.ssa.flow.kind b (Nat.lt_of_not_le fun hge => ?_), hkind]
    · exact Nat.le_refl 2
    · rw [Func.block_eq_default _ hge] at hkind
      cases hkind

theorem exists_allocate_countdown : ∃ built a g, buildSsa countdown .builtins = .ok built ∧
    allocate built.func.splitCriticalEdges .builtins (RegSet.firstN 4) = .ok (a, g) := by
  obtain ⟨built, hbuilt, h⟩ := exists_ok_of_any (m := buildSsa countdown .builtins) (p := fun built =>
    (allocate built.func.splitCriticalEdges .builtins (RegSet.firstN 4)).toOption.any fun _ => true)
    (by decide +kernel)
  obtain ⟨⟨a, g⟩, h, -⟩ := exists_ok_of_any h
  exact ⟨built, a, g, hbuilt, h⟩

/-- The loop of `countdown` fits in four registers. -/
theorem countdown_allocation_checks : ∃ built a g, buildSsa countdown .builtins = .ok built ∧
    allocate built.func.splitCriticalEdges .builtins (RegSet.firstN 4) = .ok (a, g) ∧
    g.verify = .ok () ∧ g.checkAllocation = .ok () ∧
    ∀ v l, (g.value v).loc = some l → ∀ r ∈ l.regs,
      r ∉ reservedRegs ∧ (r.val < 4 ∨ a.signature.Delivers (g.value v) l) := by
  obtain ⟨built, a, g, hbuilt, h⟩ := exists_allocate_countdown
  obtain ⟨hverify, hcheck, -, -, hregs, -⟩ :=
    allocate_checks .builtins hbuilt (Nat.le_refl 4) (by decide) h
  exact ⟨built, a, g, hbuilt, h, hverify, hcheck, hregs⟩

end SsaCodegen
