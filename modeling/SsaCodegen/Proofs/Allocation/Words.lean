import SsaCodegen.Proofs.Allocation.Conflicts
import SsaCodegen.Proofs.Tokens

/-! What a function does on registers and stack slots once its values have locations. Words are named by the
value and the step that made them; copies pass them on. -/

namespace SsaCodegen

/-- The content of a machine word: a constant, or a part of what was computed at some step. -/
inductive Datum where
  | const (k : Int)
  | part (token : Token) (part : Nat)
  deriving DecidableEq

abbrev Contents := WordLoc → Option Datum

namespace Contents

def start : Contents
  | .imm k => some (.const k)
  | _ => none

def write (σ : Contents) (ls : List WordLoc) (word : Nat → Option Datum) : Contents := fun l =>
  match ls.idxOf? l with
  | some p => word p
  | none => σ l

def clobber (σ : Contents) : Contents
  | .reg r => if r.val ≤ 17 then none else σ (.reg r)
  | l => σ l

def moveAll (σ : Contents) (moves : List WordMove) : Contents := fun l =>
  match moves.find? fun m => m.dst = l with
  | some m => σ m.src
  | none => σ l

end Contents

/-- The words of a location, where `n` of them are on the stack. -/
def ValueLoc.words (n : Nat) : ValueLoc → List WordLoc
  | reg r => [.reg r]
  | pair lo hi => [.reg lo, .reg hi]
  | stack slot => (List.range n).map fun p => .stack (slot.word p)
  | imm k => [.imm k]

namespace Func

def datum (f : Func) (token : Token) (p : Nat) : Datum :=
  match (f.value token.1).op, (f.value token.1).payload with
  | .const, .int k => .const k
  | _, _ => .part token p

def wordLocs (f : Func) (types : TypeTable) (v : ValueId) : List WordLoc :=
  match (f.value v).loc with
  | none => []
  | some loc => loc.words (types.parts (f.value v).ty)

/-- Runs one value at a step of a walk. Phis do nothing, since the moves at the ends of the predecessors
do their work. -/
def execute (f : Func) (types : TypeTable) (step : Nat) (σ : Contents) (v : ValueId) : Contents :=
  let result := fun p => some (f.datum (v, step) p)
  match (f.value v).op with
  | .phi => σ
  | .storeReg | .loadReg =>
    σ.write (f.wordLocs types v) fun p => (f.wordLocs types (f.arg v 0))[p]?.bind σ
  | .call => σ.clobber.write (f.wordLocs types v) result
  | _ => σ.write (f.wordLocs types v) result

/-- What the locations hold at the end of a walk, the last block of which stands first. -/
def contents (f : Func) (types : TypeTable) (moves : Array (List WordMove)) : List BlockId → Contents
  | [] => .start
  | b :: rest =>
    ((f.block b).values.foldl (f.execute types rest.length) (f.contents types moves rest)).moveAll (moves.getD b [])

def contentsPast (f : Func) (types : TypeTable) (moves : Array (List WordMove)) (rest : List BlockId)
    (vs : List ValueId) : Contents :=
  vs.foldl (f.execute types rest.length) (f.contents types moves rest)

def Holds (f g : Func) (types : TypeTable) (σ : Contents) (token : Option Token) (v : ValueId) : Prop :=
  ∃ t, token = some t ∧ g.wordLocs types v ≠ [] ∧ ∀ p l, (g.wordLocs types v)[p]? = some l → σ l = some (f.datum t p)

end Func

/-! The words of the locations of values. Those of one value are distinct, and values on the stack keep out of
each other's words. -/

open List Func Signature ValueLoc

theorem StackSlot.word_injective (slot : StackSlot) : Function.Injective slot.word := by
  intro p q h
  cases slot <;>
  · simp only [word, spill.injEq, incoming.injEq, outgoing.injEq] at h
    omega

namespace ValueLoc

variable {l : ValueLoc} {n : Nat}

theorem words_of_isReg (h : l.isReg) (n : Nat) : l.words n = l.regs.map WordLoc.reg := by
  cases l <;> first | rfl | cases h

theorem reg_mem_words {r : Reg} : WordLoc.reg r ∈ l.words n ↔ r ∈ l.regs := by
  cases l <;> simp [words, regs]

theorem words_eq_parts (hfit : l.regs ≠ [] → l.regs.length = n) (himm : ∀ k, l ≠ .imm k) :
    l.words n = (List.range n).map l.part := by
  cases l with
  | reg r =>
    obtain rfl : 1 = n := hfit nofun
    rfl
  | pair lo hi =>
    obtain rfl : 2 = n := hfit nofun
    rfl
  | stack slot => rfl
  | imm k => exact absurd rfl (himm k)

end ValueLoc

namespace Func

variable {f : Func} {types : TypeTable} {v : ValueId} {l : ValueLoc}

theorem wordLocs_of_loc (h : (f.value v).loc = some l) :
    f.wordLocs types v = l.words (types.parts (f.value v).ty) := by
  rw [wordLocs, h]

theorem wordLocs_of_regs (h : f.regsOf v ≠ []) : f.wordLocs types v = (f.regsOf v).map WordLoc.reg := by
  obtain ⟨l, hl, hreg⟩ := exists_loc_of_regsOf h
  rw [wordLocs_of_loc hl, words_of_isReg hreg, regsOf_of_loc hl]

theorem reg_mem_wordLocs {r : Reg} : WordLoc.reg r ∈ f.wordLocs types v ↔ r ∈ f.regsOf v := by
  cases hl : (f.value v).loc with
  | none =>
    rw [wordLocs, hl, regsOf_of_none hl]
    exact iff_of_false not_mem_nil not_mem_nil
  | some l => rw [wordLocs_of_loc hl, regsOf_of_loc hl, reg_mem_words]

theorem stack_mem_wordLocs {x : StackSlot} : WordLoc.stack x ∈ f.wordLocs types v ↔
    ∃ s i, (f.value v).loc = some (.stack s) ∧ i < types.parts (f.value v).ty ∧ s.word i = x := by
  cases hl : (f.value v).loc with
  | none => simp [wordLocs, hl]
  | some l =>
    rw [wordLocs_of_loc hl]
    cases l <;> simp [words]

theorem imm_mem_wordLocs {k : Int} : WordLoc.imm k ∈ f.wordLocs types v ↔ (f.value v).loc = some (.imm k) := by
  cases hl : (f.value v).loc with
  | none => simp [wordLocs, hl]
  | some l =>
    rw [wordLocs_of_loc hl]
    cases l <;> simp [words, eq_comm]

end Func

namespace Setting.Resolved

variable {c : Setting} {allowed : RegSet} {f : Func} {moves : Array (List WordMove)} {t : Outline}
  {b q : BlockId} {u v w a p : ValueId} {l : ValueLoc} {s s' : StackSlot} {i j k : Nat}
  {x : WordLoc}

section

variable (h : Resolved c allowed f moves t)

include h

theorem wordLocs_nodup (v : ValueId) : (t.func.wordLocs c.types v).Nodup := by
  cases hl : (t.func.value v).loc with
  | none =>
    rw [wordLocs, hl]
    exact nodup_nil
  | some l =>
    rw [wordLocs_of_loc hl]
    have hnodup := h.consistent.tidy.nodup v
    rw [regsOf_of_loc hl] at hnodup
    cases l with
    | reg r => exact nodup_singleton _
    | pair lo hi => exact hnodup.map fun _ _ => WordLoc.reg.inj
    | stack slot =>
      refine nodup_range.map fun i j heq => ?_
      exact slot.word_injective (WordLoc.stack.inj heq)
    | imm k => exact nodup_singleton _

theorem delivered (hf : f.Prepared c.types)
    (hv : v ∈ (t.func.block b).values) (hl : c.signature.Delivers (t.func.value v) l) :
    v ∈ f.leading f.entry ∧ c.signature.Delivers (f.value v) l := by
  have hlead : (t.func.value v).op.isLeading := by
    rcases hl with ⟨hop, -⟩ | ⟨hop, -⟩ <;> rw [hop] <;> rfl
  have hmem := h.mem_leading hf.ssa hv hlead
  have hkin := h.consistent.kin v (hf.ssa.placed b v (mem_values_of_mem_leading hmem)).1
  rw [Signature.Delivers, hkin.op, hkin.payload] at hl
  have hentry : b = f.entry := by
    refine hf.inputs b v hmem fun hop => ?_
    rcases hl with ⟨hop', -⟩ | ⟨hop', -⟩ <;> cases hop.symm.trans hop'
  exact ⟨hentry ▸ hmem, hl⟩

theorem slot_cases (hf : f.Prepared c.types)
    (hsig : of c.types f = .ok c.signature) (hv : v ∈ (t.func.block b).values)
    (hl : (t.func.value v).loc = some (.stack s)) : (∃ o, s = .spill o) ∨
      ∃ o i, s = .incoming o ∧ v ∈ (f.block f.entry).values ∧ (f.value v).op = .arg ∧
        (f.value v).payload = .int (i : Nat) ∧
        c.signature.paramLocation? i = some (.stack (.incoming o)) := by
  rcases h.consistent.tidy.origin v _ hl with hdel | ⟨-, hspill⟩
  · obtain ⟨hmem, ⟨hop, i, hi, hloc⟩ | ⟨-, hreg⟩⟩ := h.delivered hf hv hdel
    · obtain ⟨-, -, hreg | ⟨o, ho⟩, -⟩ := location_of_param hsig hloc
      · cases hreg
      · rw [ho] at hloc
        exact .inr ⟨o, i, stack.inj ho, mem_values_of_mem_leading hmem, hop, hi, hloc⟩
    · cases hreg
  · exact .inl (hspill s rfl)

end

theorem incoming_apart {o o' : Nat} (hf : f.Prepared c.types)
    (hsig : of c.types f = .ok c.signature) (hv : v ∈ (f.block f.entry).values)
    (hop : (f.value v).op = .arg) (hi : (f.value v).payload = .int (i : Nat))
    (hloc : c.signature.paramLocation? i = some (.stack (.incoming o)))
    (hloc' : c.signature.paramLocation? j = some (.stack (.incoming o'))) (hij : i < j) :
    o + c.types.parts (f.value v).ty * wordSize ≤ o' := by
  obtain ⟨i', ty, hi', hty, heq⟩ := hf.params f.entry v hv hop
  obtain rfl : i = i' := Int.ofNat_inj.mp (Payload.int.inj (hi.symm.trans hi'))
  rw [heq]
  exact (locations_apart hsig hloc hloc' hij).2 ty o o' hty rfl rfl

section

variable (h : Resolved c allowed f moves t) (hf : f.Prepared c.types)

include h hf

theorem slots_apart (hsig : of c.types f = .ok c.signature) (hv : v ∈ (t.func.block b).values)
    (hw : w ∈ (t.func.block q).values) (hne : v ≠ w) (hl : (t.func.value v).loc = some (.stack s))
    (hl' : (t.func.value w).loc = some (.stack s')) (hi : i < c.types.parts (t.func.value v).ty)
    (hj : j < c.types.parts (t.func.value w).ty) : s.word i ≠ s'.word j := by
  have hgap : ∀ {x y m n : Nat}, i < m → j < n → x + m * wordSize ≤ y ∨ y + n * wordSize ≤ x →
      x + i * 8 ≠ y + j * 8 := by
    intro x y m n hi hj hgap
    rw [show wordSize = 8 from rfl] at hgap
    omega
  rcases h.slot_cases hf hsig hv hl with ⟨o, rfl⟩ | ⟨o, k, rfl, hmem, hop, hk, hloc⟩
  · rcases h.slot_cases hf hsig hw hl' with ⟨o', rfl⟩ | ⟨o', k', rfl, -⟩
    · exact fun heq => hgap hi hj (h.consistent.tidy.apart v w o o' hne hl hl') (StackSlot.spill.inj heq)
    · exact nofun
  · rcases h.slot_cases hf hsig hw hl' with ⟨o', rfl⟩ | ⟨o', k', rfl, hmem', hop', hk', hloc'⟩
    · exact nofun
    · have hkin := h.consistent.kin v (hf.ssa.placed _ v hmem).1
      have hkin' := h.consistent.kin w (hf.ssa.placed _ w hmem').1
      rw [hkin.ty] at hi
      rw [hkin'.ty] at hj
      refine fun heq => hgap hi hj ?_ (StackSlot.incoming.inj heq)
      rcases lt_trichotomy k k' with hlt | rfl | hlt
      · exact .inl (incoming_apart hf hsig hmem hop hk hloc hloc' hlt)
      · exact absurd (hf.params_inj _ v hmem w hmem' hop hop' (hk.trans hk'.symm)) hne
      · exact .inr (incoming_apart hf hsig hmem' hop' hk' hloc' hloc hlt)

section

variable (hp : p ∈ (f.block b).values) (hop : (f.value p).op = .phi) (hl : (t.func.value p).loc = some l)

include hp hop hl

theorem hasResult_of_loc : (f.value p).hasResult ∧ c.types.parts (f.value p).ty ≠ 0 := by
  have hkin := h.consistent.kin p (hf.ssa.placed b p hp).1
  have hparts := h.consistent.tidy.sized p l hl (.inr (.inl (hkin.op.trans hop)))
  rw [hkin.ty] at hparts
  refine ⟨?_, hparts⟩
  rw [Value.hasResult, Bool.and_eq_true, bne_iff_ne, bne_iff_ne]
  constructor
  · intro hty
    exact hparts (hty ▸ hf.weightless.1)
  · intro hty
    exact hparts (hty ▸ hf.weightless.2)

theorem wordLocs_phi : t.func.wordLocs c.types p = (List.range (c.types.parts (t.func.value p).ty)).map l.part := by
  have hkin := h.consistent.kin p (hf.ssa.placed b p hp).1
  rw [wordLocs_of_loc hl]
  refine words_eq_parts (fun hne => ?_) ?_
  · rw [← regsOf_of_loc hl] at hne ⊢
    exact h.consistent.tidy.width p hne (hkin.ty ▸ (h.hasResult_of_loc hf hp hop hl).2)
  · rintro k rfl
    exact nomatch (hkin.op.trans hop).symm.trans (h.consistent.tidy.const p k hl).1

end

theorem words_apart (hsig : of c.types f = .ok c.signature) (hv : v ∈ (t.func.block b).values)
    (hw : w ∈ (t.func.block q).values) (hne : v ≠ w) (hregs : ∀ r ∈ t.func.regsOf v, r ∉ t.func.regsOf w)
    (hx : x ∈ t.func.wordLocs c.types v) (hx' : x ∈ t.func.wordLocs c.types w) : ∃ k, x = .imm k := by
  cases x with
  | reg r => exact absurd (reg_mem_wordLocs.mp hx') (hregs r (reg_mem_wordLocs.mp hx))
  | stack x =>
    obtain ⟨s, i, hl, hi, rfl⟩ := stack_mem_wordLocs.mp hx
    obtain ⟨s', j, hl', hj, heq⟩ := stack_mem_wordLocs.mp hx'
    exact absurd heq.symm (h.slots_apart hf hsig hv hw hne hl hl' hi hj)
  | imm k => exact ⟨k, rfl⟩

theorem phis_apart (hsig : of c.types f = .ok c.signature) (hv : v ∈ f.placedPhis b)
    (hw : w ∈ f.placedPhis b) (hne : v ≠ w) (hx : x ∈ t.func.wordLocs c.types v) :
    x ∉ t.func.wordLocs c.types w := by
  intro hx'
  obtain ⟨hv, hop, -⟩ := mem_placedPhis hv
  obtain ⟨hw, hop', -⟩ := mem_placedPhis hw
  have hkin := h.consistent.kin v (hf.ssa.placed b v hv).1
  have hv' := h.mem_values hf.ssa hv
  have hw' := h.mem_values hf.ssa hw
  obtain ⟨S, rest, hpath⟩ := h.path hf.ssa (lt_of_mem_values hv)
  have hheld : ∀ u ∈ (f.block b).values, (f.value u).op = .phi → (t.draft f).Claimed S u := by
    intro u hu hop hregs
    refine ⟨u, hpath.start.held u (h.mem_leading_of_phi hf.ssa (h.mem_values hf.ssa hu) ?_) hregs⟩
    rw [(h.consistent.kin u (hf.ssa.placed b u hu).1).op, hop]
  obtain ⟨k, rfl⟩ := h.words_apart hf hsig hv' hw' hne (fun r hr hr' =>
    hne ((hheld v hv hop).unique (hheld w hw hop') hr hr')) hx hx'
  exact nomatch (hkin.op.trans hop).symm.trans (h.consistent.tidy.const v k (imm_mem_wordLocs.mp hx)).1

end

theorem mem_phiCopies {m : WordMove} (hm : m ∈ t.func.phiCopies c.types k p) :
    ∃ src dst i, (t.func.value (t.func.arg p k)).loc = some src ∧ (t.func.value p).loc = some dst ∧
      i < c.types.parts (t.func.value p).ty ∧ m = ⟨src.part i, dst.part i⟩ := by
  rw [phiCopies] at hm
  split at hm
  · rename_i src dst hsrc hdst
    obtain ⟨i, hi, rfl⟩ := mem_map.mp (mem_filter.mp hm).1
    exact ⟨src, dst, i, hsrc, hdst, mem_range.mp hi, rfl⟩
  · cases hm

section

variable (h : Resolved c allowed f moves t) (hf : f.Prepared c.types)

include h hf

theorem dst_phiCopies (hp : p ∈ f.placedPhis b) (k : Nat) :
    ((t.func.phiCopies c.types k p).map WordMove.dst).Sublist (t.func.wordLocs c.types p) := by
  obtain ⟨hmem, hop, -⟩ := mem_placedPhis hp
  rw [phiCopies]
  split
  · rename_i src dst hsrc hdst
    rw [h.wordLocs_phi hf hmem hop hdst]
    refine (filter_sublist.map _).trans ?_
    rw [map_map]
    exact List.Sublist.refl _
  · exact nil_sublist _

theorem ty_of_fed {x : ValueId} (hq : q < f.blocks.size) (hp : p ∈ f.placedPhis b) (hx : (f.args p)[k]? = some x)
    (hhand : (t.draft f).AtHand q (t.func.block q).values (t.atEnd q) x a) :
    (t.func.value a).ty = (t.func.value p).ty := by
  obtain ⟨hpb, hop, hres⟩ := mem_placedPhis hp
  rw [(h.consistent.kin p (hf.ssa.placed b p hpb).1).ty, ← hf.phis b p hpb hop hres x (mem_of_getElem? hx)]
  rcases hhand with hheld | hstored
  · obtain ⟨S, ws, hpath⟩ := h.path hf.ssa hq
    exact h.ty_of_held hf.ssa hq hpath.start hpath.steps hheld
  · exact h.ty_of_home hstored.1

end

theorem no_phi_of_preds (hf : f.SsaForm) (hb : (f.block b).preds.length ≤ 1)
    (hp : p ∈ (f.block b).values) : (f.value p).op ≠ .phi := by
  intro hop
  have htwo := (hf.phi_args b p hp hop).2
  omega

section

variable (h : Resolved c allowed f moves t)

include h

theorem edgeCopies_eq_nil (hf : f.SsaForm) (hedge : b ∈ (f.block q).succs) (hb : (f.block b).preds.length ≤ 1) :
    t.func.edgeCopies c.types q b = [] := by
  have hphis : t.func.placedPhis b = [] := by
    rw [h.consistent.placedPhis_eq hf (hf.flow.mem_reversePostorder.mpr (hf.flow.succ_lt q b hedge))
      (h.current_ne b), eq_nil_iff_forall_not_mem]
    intro p hp
    obtain ⟨hmem, hop, -⟩ := mem_placedPhis hp
    exact no_phi_of_preds hf hb hmem hop
  rw [edgeCopies]
  split
  · rfl
  · rw [hphis]
    rfl

theorem moves_of_choice (hf : f.Prepared c.types) (hq : 2 ≤ (f.block q).succs.length) : moves.getD q [] = [] := by
  rw [h.moves, endCopies, h.consistent.graph.succs, flatMap_eq_nil_iff]
  exact fun b hedge => h.edgeCopies_eq_nil hf.ssa hedge (hf.noncritical q b hedge hq)

theorem moves_of_edge (hf : f.Prepared c.types)
    (hedge : b ∈ (f.block q).succs) : moves.getD q [] = t.func.edgeCopies c.types q b := by
  by_cases hq : 2 ≤ (f.block q).succs.length
  · rw [h.moves_of_choice hf hq, h.edgeCopies_eq_nil hf.ssa hedge (hf.noncritical q b hedge hq)]
  · have hone : (f.block q).succs = [b] := by
      obtain ⟨x, hx⟩ := length_eq_one_iff.mp
        (show (f.block q).succs.length = 1 by have := length_pos_of_mem hedge; omega)
      rw [hx, mem_singleton] at hedge
      rw [hx, hedge]
    rw [h.moves, endCopies, h.consistent.graph.succs, hone, flatMap_singleton]

theorem edgeCopies_eq (hf : f.SsaForm) (hk : (f.block b).preds[k]? = some q) :
    t.func.edgeCopies c.types q b = (f.placedPhis b).flatMap (t.func.phiCopies c.types k) := by
  have hedge := hf.flow.edge.mpr (mem_of_getElem? hk)
  have hindex : t.func.predIndex? b q = some k := by
    rw [predIndex?, h.consistent.graph.preds]
    exact hf.flow.predIndex?_eq_some.mpr hk
  rw [edgeCopies, hindex]
  rw [h.consistent.placedPhis_eq hf (hf.flow.mem_reversePostorder.mpr (hf.flow.succ_lt q b hedge)) (h.current_ne b)]

section

variable (hf : f.Prepared c.types) (hsig : of c.types f = .ok c.signature)

include hf hsig

theorem edgeCopies_nodup (hedge : b ∈ (f.block q).succs) :
    ((t.func.edgeCopies c.types q b).map WordMove.dst).Nodup := by
  obtain ⟨k, hk⟩ := mem_iff_getElem?.mp (hf.ssa.flow.edge.mp hedge)
  rw [h.edgeCopies_eq hf.ssa hk, map_flatMap, nodup_flatMap]
  refine ⟨fun p hp => (h.wordLocs_nodup p).sublist (h.dst_phiCopies hf hp k), ?_⟩
  refine (hf.ssa.placedPhis_nodup b).pairwise_of_forall_ne fun v hv w hw hne x hx hx' => ?_
  exact h.phis_apart hf hsig hv hw hne ((h.dst_phiCopies hf hv k).subset hx) ((h.dst_phiCopies hf hw k).subset hx')

theorem moves_nodup (q : BlockId) : ((moves.getD q []).map WordMove.dst).Nodup := by
  cases hsuccs : (f.block q).succs with
  | nil =>
    rw [h.moves, endCopies, h.consistent.graph.succs, hsuccs]
    exact nodup_nil
  | cons b bs =>
    have hedge := hsuccs ▸ mem_cons_self
    rw [h.moves_of_edge hf hedge]
    exact h.edgeCopies_nodup hf hsig hedge

end

end

end Setting.Resolved

end SsaCodegen
