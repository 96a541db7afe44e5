import Mathlib.Algebra.Group.Nat.Defs
import Mathlib.Data.List.Chain
import Mathlib.Order.Bounds.Basic
import SsaCodegen.Frame

/-! The layout of a frame. The areas follow one another below the frame record. -/

namespace SsaCodegen

open List

theorem alignTo_eq (n : Nat) {k : Nat} (hk : ∃ e, k = 2 ^ e) : alignTo n k = (n + k - 1) / k * k := by
  obtain ⟨e, rfl⟩ := hk
  have hdiv := Nat.div_add_mod' (n + 2 ^ e - 1) (2 ^ e)
  rw [alignTo, Nat.and_two_pow_sub_one_eq_mod]
  omega

theorem isLeast_alignTo (n : Nat) {k : Nat} (hpow : ∃ e, k = 2 ^ e) : IsLeast {m | k ∣ m ∧ n ≤ m} (alignTo n k) := by
  have hk : 0 < k := hpow.elim fun e he => he ▸ Nat.two_pow_pos e
  have hlt : n + k - 1 < (n + k - 1) / k * k + k := Nat.lt_div_mul_add hk
  rw [alignTo_eq n hpow]
  refine ⟨⟨Nat.dvd_mul_left k _, by omega⟩, ?_⟩
  · rintro _ ⟨⟨q, rfl⟩, hle⟩
    rw [Nat.mul_comm k]
    refine Nat.mul_le_mul_right k (Nat.lt_succ_iff.mp ((Nat.div_lt_iff_lt_mul hk).mpr ?_))
    rw [Nat.succ_mul, Nat.mul_comm q]
    omega

theorem alignTo_wordSize (n : Nat) : wordSize ∣ alignTo n wordSize ∧ n ≤ alignTo n wordSize :=
  (isLeast_alignTo n ⟨3, rfl⟩).1

theorem alignTo_stackAlign (n : Nat) : stackAlign ∣ alignTo n stackAlign ∧ n ≤ alignTo n stackAlign :=
  (isLeast_alignTo n ⟨4, rfl⟩).1

/-- A range of bytes. -/
structure Extent where
  start : Nat
  size : Nat
  align : Nat

namespace Extent

def stop (x : Extent) : Nat := x.start + x.size

def Before (x y : Extent) : Prop := x.stop ≤ y.start

/-- `y` starts at the least aligned offset that is not before the end of `x`. -/
def Next (x y : Extent) : Prop := IsLeast {m | y.align ∣ m ∧ x.stop ≤ m} y.start

theorem pairwise_of_isChain {x : Extent} {l : List Extent} (h : (x :: l).IsChain Next) :
    l.Pairwise Before ∧ ∀ y ∈ l, x.stop ≤ y.start ∧ y.align ∣ y.start := by
  have : IsTrans Extent fun x y => x.stop ≤ y.start ∧ y.align ∣ y.start :=
    ⟨fun _ y _ hxy hyz => ⟨hxy.1.trans ((Nat.le_add_right y.start y.size).trans hyz.1), hyz.2⟩⟩
  have hall := pairwise_cons.mp (h.imp fun _ _ hnext => hnext.1.symm).pairwise
  exact ⟨hall.2.imp And.left, hall.1⟩

/-- Aligned ranges that stand one after the other between two addresses. -/
structure Stacked (first last : Nat) (l : List Extent) : Prop where
  apart : l.Pairwise Before
  within : ∀ x ∈ l, first ≤ x.start ∧ x.stop ≤ last
  aligned : ∀ x ∈ l, x.align ∣ x.start

theorem Stacked.append {a b c : Nat} {l m : List Extent} (hl : Stacked a b l) (hm : Stacked b c m)
    (hab : a ≤ b) (hbc : b ≤ c) : Stacked a c (l ++ m) where
  apart := pairwise_append.mpr ⟨hl.apart, hm.apart, fun x hx y hy =>
    (hl.within x hx).2.trans (hm.within y hy).1⟩
  within := forall_mem_append.mpr ⟨fun x hx => ⟨(hl.within x hx).1, (hl.within x hx).2.trans hbc⟩,
      fun x hx => ⟨hab.trans (hm.within x hx).1, (hm.within x hx).2⟩⟩
  aligned := forall_mem_append.mpr ⟨hl.aligned, hm.aligned⟩

end Extent

namespace Frame

open Extent (Stacked)

def extents (offsets : List Nat) (things : List (Nat × Nat)) : List Extent :=
  (offsets.zip things).map fun p => ⟨p.1, p.2.1, max p.2.2 1⟩

theorem isChain_placeLocals (locals : List (Nat × Nat)) (h : ∀ l ∈ locals, ∃ e, max l.2 1 = 2 ^ e) : ∀ x : Extent,
    (x :: extents (placeLocals x.stop locals).1 locals).IsChain Extent.Next ∧
      IsLeast {m | ∀ y ∈ x :: extents (placeLocals x.stop locals).1 locals, y.stop ≤ m}
        (placeLocals x.stop locals).2 := by
  induction locals with
  | nil =>
    intro x
    refine ⟨.singleton x, fun y hy => ?_, fun m hm => hm x mem_cons_self⟩
    rw [mem_singleton.mp hy]
    exact le_rfl
  | cons l locals ih =>
    intro x
    obtain ⟨hl, h⟩ := forall_mem_cons.mp h
    have hnext := isLeast_alignTo x.stop hl
    obtain ⟨hchain, hleast⟩ := ih h ⟨alignTo x.stop (max l.2 1), l.1, max l.2 1⟩
    refine ⟨.cons_cons hnext hchain, forall_mem_cons.mpr ⟨?_, hleast.1⟩, fun m hm => hleast.2 ?_⟩
    · exact hnext.1.2.trans ((Nat.le_add_right _ _).trans (hleast.1 _ mem_cons_self))
    · exact (forall_mem_cons.mp hm).2

theorem length_placeLocals (locals : List (Nat × Nat)) : ∀ start,
    (placeLocals start locals).1.length = locals.length := by
  induction locals with
  | nil => exact fun _ => rfl
  | cons l locals ih =>
    intro start
    exact congrArg Nat.succ (ih _)

variable (f : Frame) (sp : Nat)

/-- The address that a base register and an offset stand for. The frame record is at the frame pointer. -/
def resolve : Reg × Nat → Nat
  | (base, offset) => (if base = Reg.fp then sp + f.bodySize else sp) + offset

def localAreas (locals : List (Nat × Nat)) : List Extent :=
  locals.mapIdx fun i l => ⟨f.resolve sp (f.localAddress i), l.1, max l.2 1⟩

def spillAreas : List Extent :=
  (range (f.spillSize / wordSize)).map fun k =>
    ⟨f.resolve sp (f.address (.spill (k * wordSize))), wordSize, wordSize⟩

/-- What lies in the body of a frame: the outgoing area that was asked for, the locals, and the words of the
spill area. -/
def areas (locals : List (Nat × Nat)) (outgoing : Nat) : List Extent :=
  ⟨f.resolve sp (f.address (.outgoing 0)), outgoing, wordSize⟩ :: f.localAreas sp locals ++ f.spillAreas sp

theorem resolve_spill (o : Nat) : f.resolve sp (f.address (.spill o)) = sp + f.outgoingSize + f.localsSize + o := by
  rw [Nat.add_assoc sp, Nat.add_assoc sp]
  rfl

theorem stacked_spillAreas (hbase : wordSize ∣ sp + f.outgoingSize + f.localsSize)
    (hend : f.outgoingSize + f.localsSize + f.spillSize ≤ f.bodySize) :
    Stacked (sp + f.outgoingSize + f.localsSize) (sp + f.bodySize) (f.spillAreas sp) where
  apart := pairwise_map.mpr (pairwise_lt_range.imp fun {i j} hlt => by
    rw [Extent.Before, Extent.stop, resolve_spill, resolve_spill, Nat.add_assoc, ← Nat.succ_mul]
    exact Nat.add_le_add_left (Nat.mul_le_mul_right _ hlt) _)
  within := forall_mem_map.mpr fun k hk => by
    have hfits := (Nat.mul_le_mul_right wordSize (mem_range.mp hk)).trans (Nat.div_mul_le_self _ _)
    rw [Extent.stop, resolve_spill, Nat.add_assoc _ (k * wordSize), ← Nat.succ_mul]
    exact ⟨Nat.le_add_right _ _, by omega⟩
  aligned := forall_mem_map.mpr fun k _ => by
    rw [resolve_spill]
    exact Nat.dvd_add hbase (Nat.dvd_mul_left _ k)

variable (locals : List (Nat × Nat)) (spillSize outgoing : Nat) (calls incoming : Bool)

theorem stacked_localAreas (hlocals : ∀ l ∈ locals, max l.2 1 ∣ stackAlign) (hsp : stackAlign ∣ sp) :
    let f := layout locals spillSize outgoing calls incoming
    Stacked (sp + f.outgoingSize) (sp + f.outgoingSize + f.localsSize) (f.localAreas sp locals) := by
  intro f
  have hbase : stackAlign ∣ sp + f.outgoingSize := Nat.dvd_add hsp (alignTo_stackAlign _).1
  have hpow : ∀ k ≤ stackAlign, k ∣ stackAlign → ∃ e ≤ 4, k = 2 ^ e := by decide
  obtain ⟨hchain, hstop⟩ := isChain_placeLocals locals (fun l hl => (hpow _
    (Nat.le_of_dvd (by decide) (hlocals l hl)) (hlocals l hl)).imp fun _ => And.right) ⟨0, 0, 1⟩
  obtain ⟨hpairs, hall⟩ := Extent.pairwise_of_isChain hchain
  have heq : f.localAreas sp locals = (extents f.localOffsets locals).map fun x =>
      ⟨sp + f.outgoingSize + x.start, x.size, x.align⟩ := by
    have hlen : f.localOffsets.length = locals.length := length_placeLocals locals 0
    refine ext_getElem ?_ fun i hi _ => ?_
    · simp [localAreas, extents, hlen]
    · have hlt : i < f.localOffsets.length := by simpa [localAreas, hlen] using hi
      simp only [localAreas, extents, getElem_mapIdx, getElem_map, getElem_zip, resolve, localAddress,
        getD_eq_getElem?_getD, getElem?_eq_getElem hlt, Nat.add_assoc]
      rfl
  rw [heq]
  refine ⟨pairwise_map.mpr (hpairs.imp fun hbefore => ?_), forall_mem_map.mpr fun x hx => ⟨?_, ?_⟩,
    forall_mem_map.mpr fun x hx => Nat.dvd_add (Nat.dvd_trans ?_ hbase) (hall x hx).2⟩
  · rw [Extent.Before, Extent.stop, Nat.add_assoc]
    exact Nat.add_le_add_left hbefore _
  · exact Nat.le_add_right _ x.start
  · rw [Extent.stop, Nat.add_assoc (sp + _)]
    exact Nat.add_le_add_left ((hstop.1 x (mem_cons_of_mem _ hx)).trans (alignTo_wordSize _).2) _
  · obtain ⟨p, hp, rfl⟩ := mem_map.mp hx
    exact hlocals p.2 (of_mem_zip hp).2

/-- The areas of a frame stand apart in its body, each as its alignment asks, and the incoming arguments stand
above the frame record. -/
theorem layout_areas_apart (hlocals : ∀ l ∈ locals, l.2 ∈ [0, 1, 2, 4, 8, 16]) (hsp : stackAlign ∣ sp) :
    let f := layout locals spillSize outgoing calls incoming
    Stacked sp (sp + f.bodySize) (f.areas sp locals outgoing) ∧
      (∀ o, wordSize ∣ o → wordSize ∣ f.resolve sp (f.address (.outgoing o)) ∧
        wordSize ∣ f.resolve sp (f.address (.spill o))) ∧
      stackAlign ∣ f.bodySize ∧ stackAlign ∣ f.size ∧
      ∀ o, f.resolve sp (f.address (.incoming o)) = sp + f.bodySize + frameRecordSize + o := by
  intro f
  have hword : wordSize ∣ stackAlign := by decide
  have hbody : stackAlign ∣ f.bodySize := (alignTo_stackAlign _).1
  have hend : f.outgoingSize + f.localsSize + f.spillSize ≤ f.bodySize := (alignTo_stackAlign _).2
  have hbase : wordSize ∣ sp + f.outgoingSize + f.localsSize :=
    Nat.dvd_add (Nat.dvd_trans hword (Nat.dvd_add hsp (alignTo_stackAlign _).1)) (alignTo_wordSize _).1
  have hout : Stacked sp (sp + f.outgoingSize) [⟨sp, outgoing, wordSize⟩] :=
    ⟨pairwise_singleton .., forall_mem_singleton.mpr
      ⟨Nat.le_refl sp, Nat.add_le_add_left (alignTo_stackAlign _).2 sp⟩,
      forall_mem_singleton.mpr (Nat.dvd_trans hword hsp)⟩
  have haligns : ∀ align ∈ [0, 1, 2, 4, 8, 16], max align 1 ∣ stackAlign := by decide
  have hplaces := stacked_localAreas sp locals spillSize outgoing calls incoming
    (fun l hl => haligns l.2 (hlocals l hl)) hsp
  have hlower := hout.append hplaces (Nat.le_add_right ..) (Nat.le_add_right ..)
  refine ⟨hlower.append (f.stacked_spillAreas sp hbase hend) ?_ ?_,
    fun o ho => ⟨Nat.dvd_add (Nat.dvd_trans hword hsp) ho, ?_⟩, hbody, ?_, fun o => (Nat.add_assoc _ _ o).symm⟩
  · exact Nat.le_trans (Nat.le_add_right sp _) (Nat.le_add_right _ _)
  · rw [Nat.add_assoc]
    exact Nat.add_le_add_left (Nat.le_of_add_right_le hend) sp
  · rw [resolve_spill]
    exact Nat.dvd_add hbase ho
  · rw [size]
    split
    · exact Nat.dvd_add hbody (by decide)
    · exact hbody

theorem layout_areas_apart_mixed : let f := layout [(1, 1), (24, 16), (0, 0), (4, 4)] 24 20 true false
    f.localOffsets = [0, 16, 40, 40] ∧ f.bodySize = 112 ∧
      (f.areas 64 [(1, 1), (24, 16), (0, 0), (4, 4)] 20).Pairwise Extent.Before :=
  ⟨rfl, rfl, (layout_areas_apart 64 [(1, 1), (24, 16), (0, 0), (4, 4)] 24 20 true false (by decide)
    (by decide)).1.apart⟩

end Frame

end SsaCodegen
