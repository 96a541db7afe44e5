import Mathlib.Algebra.BigOperators.Fin
import Mathlib.InformationTheory.Hamming
import SsaCodegen.Proofs.Emission.Arithmetic

/-! Constants. Each instruction that moves an immediate sets one of four halfwords, so a constant takes as
many instructions as it has halfwords that differ from the filler, but at least one. -/

namespace SsaCodegen

open List BitVec Instr MovWide

def halves (x : BitVec 64) (i : Fin 4) : BitVec 16 := halfword x i

theorem halves_injective : Function.Injective halves := by
  intro x y h
  apply eq_of_getLsbD_eq
  intro i hi
  have hhalf : halfword x (i / 16) = halfword y (i / 16) := congrFun h ⟨i / 16, by omega⟩
  have hbit := congrArg (getLsbD · (i % 16)) hhalf
  simp only [halfword, getLsbD_extractLsb', Nat.div_add_mod] at hbit
  simpa [Nat.mod_lt] using hbit

def MovWide.filler (old : BitVec 64) : MovWide → BitVec 64
  | movn => allOnes 64
  | movz => 0#64
  | movk => old

def MovWide.half (imm16 : BitVec 16) (op : MovWide) : BitVec 16 := if op = movn then ~~~imm16 else imm16

theorem MovWide.half_half (op : MovWide) (x : BitVec 16) : op.half (op.half x) = x := by
  cases op with
  | movn => exact not_not
  | movz | movk => rfl

theorem getLsbD_placed (x : BitVec 16) (hw : Nat) {i j : Nat} (hi : i < 4) (hj : j < 16) :
    (x.setWidth 64 <<< (16 * hw)).getLsbD (16 * i + j) = (decide (i = hw) && x.getLsbD j) := by
  rw [getLsbD_shiftLeft]
  rcases Nat.lt_trichotomy i hw with hlt | rfl | hgt
  · simp [show 16 * i + j < 16 * hw by omega, show i ≠ hw by omega]
  · simp [show 16 * i + j < 64 by omega, hj]
    omega
  · simp [getLsbD_of_ge x (16 * i + j - 16 * hw) (by omega), show i ≠ hw by omega]

section

variable (op : MovWide) (old : BitVec 64) (imm16 : BitVec 16) (hw : Nat)

include op old imm16 hw

theorem halves_apply (i : Fin 4) :
    halves (op.apply old imm16 hw) i = if i.val = hw then op.half imm16 else halves (op.filler old) i := by
  apply eq_of_getLsbD_eq
  intro j hj
  have hlt : 16 * i.val + j < 64 := by omega
  have hplaced := getLsbD_placed imm16 hw i.isLt hj
  have hmask : (0xffff#64 <<< (16 * hw)).getLsbD (16 * i + j) = (decide (i.val = hw) && (allOnes 16).getLsbD j) :=
    getLsbD_placed (allOnes 16) hw i.isLt hj
  rw [getLsbD_allOnes, decide_eq_true hj] at hmask
  by_cases hi : i.val = hw
  · rw [decide_eq_true hi] at hplaced hmask
    rw [if_pos hi]
    cases op <;> simp [halves, halfword, apply, half, hplaced, hmask, hj, hlt,
      -getLsbD_eq_getElem, -getLsbD_shiftLeft]
  · rw [decide_eq_false hi] at hplaced hmask
    rw [if_neg hi]
    cases op <;> simp [halves, halfword, apply, filler, hplaced, hmask, hj, hlt,
      -getLsbD_eq_getElem, -getLsbD_shiftLeft, -reduceAllOnes]

theorem distance_apply : hammingDist (halves (op.apply old imm16 hw)) (halves (op.filler old)) ≤ 1 := by
  refine Finset.card_le_one.mpr fun i hi j hj => ?_
  have hset : ∀ i : Fin 4, halves (op.apply old imm16 hw) i ≠ halves (op.filler old) i → i.val = hw := by
    intro i hne
    by_contra hi
    exact hne ((halves_apply op old imm16 hw i).trans (if_neg hi))
  exact Fin.ext ((hset i (Finset.mem_filter.mp hi).2).trans (hset j (Finset.mem_filter.mp hj).2).symm)

end

theorem distance_not (x : BitVec 64) : hammingDist (halves x) (halves (~~~x)) = 4 := by
  have hne : ∀ i : Fin 4, halves x i ≠ halves (~~~x) i := by
    intro i heq
    have hbit := congrArg (getLsbD · 0) heq
    have hlt : 16 * i.val < 64 := by omega
    simp [halves, halfword, hlt] at hbit
  rw [hammingDist, Finset.filter_true_of_mem fun i _ => hne i]
  rfl

namespace Instr

variable {rd : Reg} {origin : BitVec 64} {is : List Instr}

def MovesInto (rd : Reg) (i : Instr) : Prop := ∃ op imm16 hw, i = movWide op rd imm16 hw

theorem sets_movWide {s : Machine} (hrd : rd ≠ Reg.xzr) (op : MovWide) (imm16 : BitVec 16) (hw : Nat) :
    s.Sets rd (op.apply (s.x rd) imm16 hw) [rd] ((movWide op rd imm16 hw).exec origin s) := sets_exec rfl hrd

theorem distance_execAll (hrd : rd ≠ Reg.xzr) (h : ∀ i ∈ is, i.MovesInto rd) (s : Machine) :
    ∃ start, hammingDist (halves ((execAll origin is s).x rd)) (halves start) ≤ is.length ∧
      (start = s.x rd ∨ 0 < is.length ∧ (start = 0#64 ∨ start = allOnes 64)) := by
  -- the last instruction decides, so the induction goes from the end
  induction is using List.reverseRecOn with
  | nil => exact ⟨s.x rd, (hammingDist_self _).le, .inl rfl⟩
  | append_singleton is i ih =>
    obtain ⟨start, hdist, hstart⟩ := ih fun j hj => h j (mem_append_left _ hj)
    obtain ⟨op, imm16, hw, rfl⟩ := h i (mem_append_right _ mem_cons_self)
    have hlast := distance_apply op ((execAll origin is s).x rd) imm16 hw
    rw [execAll_append, length_append,
      show (execAll origin [movWide op rd imm16 hw] (execAll origin is s)).x rd = _ from
        (sets_movWide hrd op imm16 hw).1]
    cases op with
    | movz => exact ⟨0#64, hlast.trans (Nat.le_add_left 1 _), .inr ⟨Nat.succ_pos _, .inl rfl⟩⟩
    | movn => exact ⟨_, hlast.trans (Nat.le_add_left 1 _), .inr ⟨Nat.succ_pos _, .inr rfl⟩⟩
    | movk =>
      have htriangle := (hammingDist_triangle _ _ _).trans (Nat.add_le_add hlast hdist)
      exact ⟨start, htriangle.trans (Nat.add_comm ..).le, hstart.imp_right fun h => ⟨Nat.succ_pos _, h.2⟩⟩

def leastMoves (value : BitVec 64) : Nat :=
  max 1 (min (hammingDist (halves value) (halves 0#64)) (hammingDist (halves value) (halves (allOnes 64))))

theorem leastMoves_le (hrd : rd ≠ Reg.xzr) (h : ∀ i ∈ is, i.MovesInto rd) {value : BitVec 64}
    (hload : ∀ s : Machine, (execAll origin is s).x rd = value) : leastMoves value ≤ is.length := by
  let s : Machine := ⟨fun _ => ~~~value, 0#64, ⟨false, false, false, false⟩, fun _ => 0#8, 0⟩
  have hs : s.x rd = ~~~value := if_neg hrd
  obtain ⟨start, hdist, hstart⟩ := distance_execAll hrd h s
  rw [hload s] at hdist
  have hcard := @hammingDist_le_card_fintype _ _ _ _ (halves value) (halves 0#64)
  rw [Fintype.card_fin] at hcard
  rw [leastMoves]
  rcases hstart with rfl | ⟨hpos, rfl | rfl⟩
  · -- nothing of the old content is left, or all four halfwords had to be set
    rw [hs, distance_not] at hdist
    omega
  · omega
  · omega

theorem length_filter_halves (value w : BitVec 64) {f : BitVec 16} (hw : ∀ i, halves w i = f) :
    (((List.range 4).map fun i => (i, halfword value i)).filter (·.2 != f)).length =
      hammingDist (halves value) (halves w) := by
  simp only [hammingDist, Finset.card_filter, Fin.sum_univ_four, hw, show List.range 4 = [0, 1, 2, 3] from rfl,
    map_cons, map_nil, ← countP_eq_length_filter, countP_cons, countP_nil, bne_iff_ne]
  ac_rfl

/-- The first instruction of a constant moves a halfword over a filler, and each of the others inserts one. Of
the halfwords that are not moved, all are the filler. -/
structure Composes (value : BitVec 64) (op : MovWide) (parts : List (Nat × BitVec 16)) : Prop where
  first : op ≠ .movk
  own : ∀ p ∈ parts, p.1 < 4 ∧ p.2 = halfword value p.1
  rest : ∀ i : Fin 4, i.val ∉ parts.map Prod.fst → halves value i = halves (op.filler 0#64) i
  least : parts.length = leastMoves value

/-- The better filler leaves as few halfwords as any sequence has to set. -/
theorem leastMoves_eq {value : BitVec 64} {all : List (Nat × BitVec 16)} {inverted : Bool}
    (hall : (List.range 4).map (fun i => (i, halfword value i)) = all)
    (hinverted : decide (all.countP (·.2 == 0#16) < all.countP (·.2 == 0xffff#16)) = inverted) :
    leastMoves value = max 1 (all.filter (·.2 != if inverted then 0xffff#16 else 0#16)).length := by
  have hfour : ∀ f : BitVec 16, all.countP (·.2 == f) + (all.filter (·.2 != f)).length = 4 := by
    intro f
    rw [countP_eq_length_filter]
    exact (length_eq_length_filter_add _).symm.trans (by rw [← hall]; rfl)
  have hzeros := length_filter_halves value 0#64 (f := 0#16) (by decide)
  have hones := length_filter_halves value (allOnes 64) (f := 0xffff#16) (by decide)
  have hzeros' := hfour 0#16
  have hones' := hfour 0xffff#16
  rw [hall] at hzeros hones
  rw [leastMoves, ← hzeros, ← hones]
  cases inverted with
  | true =>
    rw [decide_eq_true_iff] at hinverted
    rw [if_pos rfl, min_eq_right (by omega)]
  | false =>
    rw [decide_eq_false_iff_not] at hinverted
    rw [if_neg (by decide), min_eq_left (by omega)]

theorem movImm_eq (rd : Reg) (value : BitVec 64) : ∃ op hw half parts,
    movImm rd value = movWide op rd (op.half half) hw :: parts.map (fun p => movWide .movk rd p.2 p.1) ∧
      Composes value op ((hw, half) :: parts) := by
  have hmem : ∀ {p}, p ∈ (List.range 4).map (fun i => (i, halfword value i)) → p.1 < 4 ∧ p.2 = halfword value p.1 := by
    intro p hp
    obtain ⟨i, hi, rfl⟩ := mem_map.mp hp
    exact ⟨mem_range.mp hi, rfl⟩
  rw [movImm]
  generalize hall : (List.range 4).map (fun i => (i, halfword value i)) = all at *
  generalize hinverted : decide (all.countP (·.2 == 0#16) < all.countP (·.2 == 0xffff#16)) = inverted
  have hleast := leastMoves_eq hall hinverted
  generalize hf : (if inverted then 0xffff#16 else 0#16) = f at hleast ⊢
  generalize hop : (if inverted then movn else .movz) = op
  have hfirst : op ≠ .movk := by
    rw [← hop]
    cases inverted <;> decide
  have hfiller : ∀ i, halves (op.filler 0#64) i = f := by
    rw [← hop, ← hf]
    cases inverted <;> decide
  have hhalf : ∀ x, op.half x = if inverted then ~~~x else x := by
    rw [← hop]
    cases inverted <;> exact fun _ => rfl
  have hrest : ∀ i : Fin 4, i.val ∉ (all.filter (·.2 != f)).map Prod.fst →
      halves value i = halves (op.filler 0#64) i := by
    intro i hi
    rw [hfiller]
    by_contra hne
    refine hi (mem_map.mpr ⟨(i.val, halfword value i), mem_filter.mpr ⟨?_, bne_iff_ne.mpr hne⟩, rfl⟩)
    exact hall ▸ mem_map.mpr ⟨i.val, mem_range.mpr i.isLt, rfl⟩
  split
  · rename_i hparts
    rw [hparts] at hrest hleast
    refine ⟨op, 0, f, [], ?_, hfirst, fun p hp => ?_, fun i _ => hrest i not_mem_nil, hleast.symm⟩
    · rw [hhalf, ← hf]
      cases inverted <;> rfl
    · rw [mem_singleton.mp hp]
      exact ⟨Nat.succ_pos 3, ((hrest 0 not_mem_nil).trans (hfiller 0)).symm⟩
  · rename_i hw half parts hparts
    rw [← hhalf]
    refine ⟨op, hw, half, parts, rfl, hfirst, fun p hp => hmem (mem_of_mem_filter (hparts ▸ hp)), hparts ▸ hrest, ?_⟩
    rw [hleast, hparts, length_cons]
    omega

theorem sets_inserted (hrd : rd ≠ Reg.xzr) {value : BitVec 64} : ∀ {parts : List (Nat × BitVec 16)} {s : Machine},
    (∀ p ∈ parts, p.1 < 4 ∧ p.2 = halfword value p.1) →
    (∀ i : Fin 4, i.val ∉ parts.map Prod.fst → halves (s.x rd) i = halves value i) →
    s.Sets rd value [rd] (execAll origin (parts.map fun p => movWide .movk rd p.2 p.1) s)
  | [], s, _, hrest => ⟨halves_injective (funext fun i => hrest i not_mem_nil), .refl s [rd]⟩
  | (hw, half) :: parts, s, hown, hrest => by
    have hset : s.Sets rd _ [rd] ((movWide .movk rd half hw).exec origin s) := sets_movWide hrd .movk half hw
    have hall := @sets_inserted hrd value parts ((movWide .movk rd half hw).exec origin s)
      (fun p hp => hown p (mem_cons_of_mem _ hp)) fun i hi => ?_
    · exact ⟨hall.1, hset.2.trans hall.2⟩
    · rw [hset.1, halves_apply]
      split
      · rename_i heq
        exact (hown _ mem_cons_self).2.trans (congrArg (halfword value) heq.symm)
      · rename_i hne
        exact hrest i (not_mem_cons_of_ne_of_not_mem hne hi)

theorem sets_movImm (hrd : rd ≠ Reg.xzr) (value : BitVec 64) (s : Machine) :
    s.Sets rd value [rd] (execAll origin (movImm rd value) s) := by
  obtain ⟨op, hw, half, parts, heq, hcomp⟩ := movImm_eq rd value
  have hfirst : s.Sets rd _ [rd] ((movWide op rd (op.half half) hw).exec origin s) :=
    sets_movWide hrd op (op.half half) hw
  have hall := @sets_inserted rd origin hrd value parts ((movWide op rd (op.half half) hw).exec origin s)
    (fun p hp => hcomp.own p (mem_cons_of_mem _ hp)) fun i hi => ?_
  · rw [heq]
    exact ⟨hall.1, hfirst.2.trans hall.2⟩
  · have hfiller : op.filler (s.x rd) = op.filler 0#64 := by
      cases op with
      | movk => exact absurd rfl hcomp.first
      | movz | movn => rfl
    rw [hfirst.1, halves_apply, half_half, hfiller]
    split
    · rename_i heq
      exact (hcomp.own _ mem_cons_self).2.trans (congrArg (halfword value) heq.symm)
    · rename_i hne
      exact (hcomp.rest i (not_mem_cons_of_ne_of_not_mem hne hi)).symm

theorem data_of_mem_movImm {value : BitVec 64} {i : Instr} (hi : i ∈ movImm rd value) : i.isData ∧ i.Fits := by
  obtain ⟨op, hw, half, parts, heq, hcomp⟩ := movImm_eq rd value
  rw [heq] at hi
  rcases mem_cons.mp hi with rfl | hi
  · exact ⟨rfl, (hcomp.own _ mem_cons_self).1⟩
  · obtain ⟨p, hp, rfl⟩ := mem_map.mp hi
    exact ⟨rfl, (hcomp.own p (mem_cons_of_mem _ hp)).1⟩

end Instr

open Instr in
/-- A constant is loaded whatever the register held before: by one instruction that fills the register and by
others that each insert a halfword. No sequence of instructions that move an immediate into the register
and always leave the constant there is shorter. -/
theorem constant_loaded_shortest {rd : Reg} (hrd : rd ≠ Reg.xzr) (value : BitVec 64) :
    Succeeds (emitAll (movImm rd value)) ∧
    (Achieves (emitAll (movImm rd value)) fun s s' => s.Sets rd value [rd] s') ∧
    (∃ op imm16 hw rest, op ≠ .movk ∧ movImm rd value = movWide op rd imm16 hw :: rest ∧
      ∀ i ∈ rest, ∃ imm16 hw, i = movWide .movk rd imm16 hw) ∧
    ∀ is : List Instr, (∀ i ∈ is, i.MovesInto rd) →
      (∀ (origin : BitVec 64) (s : Machine), (execAll origin is s).x rd = value) →
      (movImm rd value).length ≤ is.length := by
  obtain ⟨hsucceeds, hachieves⟩ := computes_emitAll (fun i hi => data_of_mem_movImm hi)
    fun origin s => @sets_movImm rd origin hrd value s
  obtain ⟨op, hw, half, parts, heq, hcomp⟩ := movImm_eq rd value
  refine ⟨hsucceeds, hachieves, ⟨op, _, hw, _, hcomp.first, heq, fun i hi => ?_⟩, fun is his hload => ?_⟩
  · obtain ⟨p, -, rfl⟩ := List.mem_map.mp hi
    exact ⟨p.2, p.1, rfl⟩
  · have hlen : (movImm rd value).length = leastMoves value := by
      rw [heq, List.length_cons, List.length_map]
      exact hcomp.least
    exact hlen ▸ leastMoves_le hrd his (hload 0#64)

/-- Two halfwords of a negative number are neither zero nor all ones. -/
theorem negative_loaded_shortest : Reg.x1 ≠ Reg.xzr ∧ Instr.movImm Reg.x1 0xFFFFFFFE0000FFFF#64 =
      [.movWide .movn Reg.x1 0xFFFF#16 1, .movWide .movk Reg.x1 0xFFFE#16 2] ∧
    (Achieves (emitAll (Instr.movImm Reg.x1 0xFFFFFFFE0000FFFF#64)) fun s s' =>
      s.Sets Reg.x1 0xFFFFFFFE0000FFFF#64 [Reg.x1] s') ∧
    ∀ i : Instr, i.MovesInto Reg.x1 →
      ¬∀ (origin : BitVec 64) (s : Machine), (Instr.execAll origin [i] s).x Reg.x1 = 0xFFFFFFFE0000FFFF#64 := by
  obtain ⟨-, hachieves, -, hleast⟩ := @constant_loaded_shortest Reg.x1 (by decide) 0xFFFFFFFE0000FFFF#64
  refine ⟨by decide, by decide, hachieves, fun i hi hload => ?_⟩
  have hlen : 2 ≤ 1 := hleast [i] (fun j hj => List.mem_singleton.mp hj ▸ hi) hload
  omega

end SsaCodegen
