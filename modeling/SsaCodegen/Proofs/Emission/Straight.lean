import Mathlib.Data.List.Forall2
import SsaCodegen.Emission.Values
import SsaCodegen.Proofs.Encoding
import SsaCodegen.Proofs.Execution

/-! Code that grows, described by the instructions that are appended, each with what is still open about it. The
effect of code without jumps is that of its instructions one after the other, wherever it stands. -/

namespace SsaCodegen

open List

variable {is : List Instr} {α : Type} {i : Instr}

/-- What is still open about an instruction when it is emitted. -/
inductive Fixup where
  | none
  | symbol (name : String) (kind : RelocKind)
  | block (target : BlockId) (kind : BranchKind)

/-- An instruction as it is emitted. -/
structure Item where
  instr : Instr
  fixup : Fixup

def Item.whole (is : List Instr) : List Item := is.map (⟨·, .none⟩)

@[simp] theorem Item.whole_append (is js : List Instr) :
    Item.whole (is ++ js) = Item.whole is ++ Item.whole js := List.map_append

@[simp] theorem Item.length_whole (is : List Instr) : (Item.whole is).length = is.length :=
  length_map _

theorem Item.mem_whole {it : Item} : it ∈ Item.whole is ↔ it.instr ∈ is ∧ it.fixup = .none := by
  simp only [Item.whole, mem_map]
  constructor
  · rintro ⟨i, hi, rfl⟩
    exact ⟨hi, rfl⟩
  · rintro ⟨hi, hnone⟩
    exact ⟨it.instr, hi, by rw [← hnone]⟩

def Item.reloc? (it : Item) (n : Nat) : Option Reloc :=
  match it.fixup with
  | .symbol name kind => some ⟨4 * n, name, kind, 0⟩
  | _ => none

def Item.branch? (it : Item) (n : Nat) : Option PendingBranch :=
  match it.fixup with
  | .block target kind => some ⟨4 * n, target, it.instr, kind⟩
  | _ => none

def openIn {α : Type} (left : Item → Nat → Option α) (n : Nat) (items : List Item) : List α :=
  (items.zipIdx n).filterMap fun e => left e.1 e.2

theorem openIn_append (left : Item → Nat → Option α) (n : Nat) (items more : List Item) :
    openIn left n (items ++ more) = openIn left n items ++ openIn left (n + items.length) more := by
  rw [openIn, zipIdx_append, filterMap_append]
  rfl

theorem mem_openIn {left : Item → Nat → Option α} {n : Nat} {items : List Item} {a : α} :
    a ∈ openIn left n items ↔ ∃ k it, items[k]? = some it ∧ left it (n + k) = some a := by
  rw [openIn, mem_filterMap]
  constructor
  · rintro ⟨⟨it, m⟩, hmem, hleft⟩
    rw [mk_mem_zipIdx_iff_le_and_getElem?_sub] at hmem
    refine ⟨m - n, it, hmem.2, ?_⟩
    rw [Nat.add_sub_cancel' hmem.1]
    exact hleft
  · rintro ⟨k, it, hit, hleft⟩
    refine ⟨(it, n + k), ?_, hleft⟩
    rw [mk_mem_zipIdx_iff_le_and_getElem?_sub, Nat.add_sub_cancel_left]
    exact ⟨Nat.le_add_right n k, hit⟩

namespace Code

variable {c c' c'' : Code} {items more : List Item} {u : Unit} {k : Nat}

/-- The items have been appended, and no block has been placed. -/
structure Appends (c : Code) (items : List Item) (c' : Code) : Prop where
  words : ∃ ws, c'.words.toList = c.words.toList ++ ws ∧ List.Forall₂ (fun it w => it.instr.encode = .ok w) items ws
  relocs : c'.relocs = c.relocs ++ openIn Item.reloc? c.words.size items
  branches : c'.branches = c.branches ++ openIn Item.branch? c.words.size items
  starts : c'.starts = c.starts

theorem Appends.refl (c : Code) : c.Appends [] c :=
  ⟨⟨[], (append_nil _).symm, .nil⟩, (append_nil _).symm, (append_nil _).symm, rfl⟩

section

variable (h : c.Appends items c')

include h

theorem Appends.size : c'.words.size = c.words.size + items.length := by
  obtain ⟨ws, hws, hall⟩ := h.words
  rw [← Array.length_toList, hws, length_append, Array.length_toList, hall.length_eq]

theorem Appends.trans (h' : c'.Appends more c'') : c.Appends (items ++ more) c'' := by
  obtain ⟨ws, hws, hall⟩ := h.words
  obtain ⟨ws', hws', hall'⟩ := h'.words
  refine ⟨⟨ws ++ ws', ?_, rel_append hall hall'⟩, ?_, ?_, h'.starts.trans h.starts⟩
  · rw [hws', hws, append_assoc]
  · rw [h'.relocs, h.relocs, h.size, openIn_append, append_assoc]
  · rw [h'.branches, h.branches, h.size, openIn_append, append_assoc]

theorem Appends.getElem?_old (hk : k < c.words.size) : c'.words[k]? = c.words[k]? := by
  obtain ⟨ws, hws, -⟩ := h.words
  rw [← Array.getElem?_toList, hws, getElem?_append_left (by rwa [Array.length_toList]), Array.getElem?_toList]

theorem Appends.getElem?_new {it : Item} (hk : items[k]? = some it) :
    ∃ w, c'.words[c.words.size + k]? = some w ∧ it.instr.encode = .ok w := by
  obtain ⟨ws, hws, hall⟩ := h.words
  obtain ⟨hlt, rfl⟩ := List.getElem?_eq_some_iff.mp hk
  have hlt' := hall.length_eq ▸ hlt
  refine ⟨ws[k], ?_, hall.get hlt hlt'⟩
  rw [← Array.getElem?_toList, hws, getElem?_append_right (by rw [Array.length_toList]; omega),
    Array.length_toList, Nat.add_sub_cancel_left, getElem?_eq_getElem hlt']

end

theorem appends_push {i : Instr} {w : Word} (hw : i.encode = .ok w) (fixup : Fixup) (c : Code)
    {relocs : List Reloc} {branches : List PendingBranch}
    (hrelocs : relocs = c.relocs ++ (Item.reloc? ⟨i, fixup⟩ c.words.size).toList)
    (hbranches : branches = c.branches ++ (Item.branch? ⟨i, fixup⟩ c.words.size).toList) :
    c.Appends [⟨i, fixup⟩] { c with words := c.words.push w, relocs, branches } := by
  refine ⟨⟨[w], Array.toList_push, .cons hw .nil⟩, ?_, ?_, rfl⟩
  · rw [openIn, zipIdx_singleton, filterMap_cons, hrelocs]
    cases Item.reloc? ⟨i, fixup⟩ c.words.size <;> rfl
  · rw [openIn, zipIdx_singleton, filterMap_cons, hbranches]
    cases Item.branch? ⟨i, fixup⟩ c.words.size <;> rfl

end Code

open Code

variable {c c' : Code} {u : Unit}

theorem runs_emit : Runs (emit i) c u c' ↔ ∃ w, i.encode = .ok w ∧ c' = { c with words := c.words.push w } := by
  rw [emit]
  cases hw : i.encode with
  | error e =>
    constructor
    · exact fun h => absurd (runs_throw.mp h) id
    · rintro ⟨w, hw', -⟩
      cases hw'
  | ok w =>
    rw [runs_modify]
    constructor
    · exact fun h => ⟨w, rfl, h⟩
    · rintro ⟨w', hw', h⟩
      cases hw'
      exact h

theorem appends_of_emit (h : Runs (emit i) c u c') : c.Appends (Item.whole [i]) c' := by
  obtain ⟨w, hw, rfl⟩ := runs_emit.mp h
  exact appends_push hw .none c (append_nil _).symm (append_nil _).symm

theorem appends_of_emitAll (h : Runs (emitAll is) c u c') : c.Appends (Item.whole is) c' := by
  refine runs_forM_invariant (fun pre t => c.Appends (Item.whole pre) t) ?_ (Appends.refl c) h
  intro pre i post _ t t' ht hrun
  rw [Item.whole_append]
  exact ht.trans (appends_of_emit hrun)

theorem appends_of_emitBranch {target : BlockId} {kind : BranchKind}
    (h : Runs (emitBranch i target kind) c u c') : c.Appends [⟨i, .block target kind⟩] c' := by
  obtain ⟨u', t, hmod, hemit⟩ := runs_bind.mp h
  rw [runs_modify] at hmod
  obtain ⟨w, hw, rfl⟩ := runs_emit.mp hemit
  subst hmod
  exact appends_push hw _ c (append_nil _).symm rfl

theorem appends_of_emitReloc {name : String} {kind : RelocKind} (h : Runs (emitReloc i name kind) c u c') :
    c.Appends [⟨i, .symbol name kind⟩] c' := by
  obtain ⟨u', t, hmod, hemit⟩ := runs_bind.mp h
  rw [runs_modify] at hmod
  obtain ⟨w, hw, rfl⟩ := runs_emit.mp hemit
  subst hmod
  exact appends_push hw _ c rfl (append_nil _).symm

variable {m : Emit Unit}

open Instr

/-- The instruction is read back as it is, execution goes on after it, and nothing is left to the linker. -/
def Instr.Direct (i : Instr) : Prop := i.Passes ∧ i.plain = i ∧ i.isLinked = false

def Code.Kept (c c' : Code) (words : List Word) : Prop :=
  ∀ k, c.words.size ≤ k → k < c'.words.size → words[k]? = c'.words[k]?

def Succeeds (m : Emit Unit) : Prop := ∀ c, ∃ c', Runs m c () c'

def Achieves (m : Emit Unit) (Q : Machine → Machine → Prop) : Prop :=
  ∀ (c c' : Code), Runs m c () c' → ∀ (origin : BitVec 64) (words : List Word) (s : Machine),
    c.Kept c' words → s.pc = c.offset → ∃ s', Executes origin words s s' ∧ s'.pc = c'.offset ∧ Q s s'

section

variable {is : List Instr} {Q : Machine → Machine → Prop}

theorem Achieves.mono {R : Machine → Machine → Prop} (h : Achieves m Q) (hR : ∀ s s', Q s s' → R s s') :
    Achieves m R := by
  intro c c' hrun origin words s hkept hpc
  obtain ⟨s', hexec, hend, hQ⟩ := h c c' hrun origin words s hkept hpc
  exact ⟨s', hexec, hend, hR s s' hQ⟩

theorem succeeds_pure : Succeeds (pure ()) := fun c => ⟨c, rfl⟩

theorem achieves_pure (hQ : ∀ s, Q s s) : Achieves (pure ()) Q := by
  intro c c' hrun origin words s _ hpc
  obtain ⟨-, rfl⟩ := runs_pure.mp hrun
  exact ⟨s, .refl, hpc, hQ s⟩

theorem succeeds_emitAll : ∀ {is : List Instr}, (∀ i ∈ is, i.Fits) → Succeeds (emitAll is)
  | [], _ => fun c => ⟨c, runs_forM_nil.mpr rfl⟩
  | i :: is, h => by
    intro c
    have hi : i.encode = .ok (.ofFields i.layout) := encode_eq_ok.mpr ⟨h i mem_cons_self, rfl⟩
    obtain ⟨c', hrest⟩ := succeeds_emitAll (fun j hj => h j (mem_cons_of_mem i hj)) _
    exact ⟨c', runs_forM_cons.mpr ⟨_, runs_emit.mpr ⟨_, hi, rfl⟩, hrest⟩⟩

theorem fetch_of_kept {c c' : Code} {words : List Word} (happ : c.Appends (Item.whole is) c')
    (hkept : c.Kept c' words) (hplain : ∀ i ∈ is, i.plain = i) {k : Nat} {i : Instr} (hk : is[k]? = some i) :
    fetch words (4 * (c.words.size + k) : Nat) = some i := by
  have hitem : (Item.whole is)[k]? = some ⟨i, .none⟩ := by
    rw [Item.whole, getElem?_map, hk]
    rfl
  obtain ⟨w, hw, hencode⟩ := happ.getElem?_new hitem
  have hlt := (Array.getElem?_eq_some_iff.mp hw).1
  have hpos : ((4 * (c.words.size + k) : Nat) : Int) / 4 = (c.words.size + k : Nat) := by omega
  rw [fetch, if_pos (by omega), hpos, Int.toNat_natCast, hkept _ (Nat.le_add_right _ _) hlt, hw]
  exact (decode?_of_encode hencode).trans (congrArg some (hplain i (mem_of_getElem? hk)))

theorem achieves_of_appends (h : ∀ c c', Runs m c () c' → ∃ is, c.Appends (Item.whole is) c' ∧
    (∀ i ∈ is, i.Direct) ∧ ∀ origin s, Q s (execAll origin is s)) : Achieves m Q := by
  intro c c' hrun origin words s hkept hpc
  obtain ⟨is, happ, hdirect, hQ⟩ := h c c' hrun
  obtain ⟨hexec, hend⟩ := @executes_all origin words is c.words.size s
    (fun k i hk => fetch_of_kept happ hkept (fun i hi => (hdirect i hi).2.1) hk) (fun i hi => (hdirect i hi).1) hpc
  refine ⟨_, hexec, hend.trans ?_, hQ origin s⟩
  rw [Code.offset, happ.size, Item.length_whole]

theorem achieves_emitAll (h : ∀ i ∈ is, i.Direct) (hQ : ∀ origin s, Q s (execAll origin is s)) :
    Achieves (emitAll is) Q :=
  achieves_of_appends fun _ _ hrun => ⟨is, appends_of_emitAll hrun, h, hQ⟩

end

namespace Target

def At (t : Target) (v : ValueId) (l : ValueLoc) : Prop := (t.func.value v).loc = some l

def InRegs (t : Target) (v : ValueId) (rs : List Reg) : Prop :=
  ∃ l, t.At v l ∧ l.isReg ∧ l.regs = rs

def InReg (t : Target) (v : ValueId) (r : Reg) : Prop := ∃ rs, t.InRegs v rs ∧ rs.headD 0 = r

variable {t : Target} {v : ValueId} {l : ValueLoc} {r : Reg}

section

variable {α : Type} {a : α} {c c' : Code}

theorem runs_location {k : ValueLoc → Emit α} (h : Runs (t.location v >>= k) c a c') :
    ∃ l, t.At v l ∧ Runs (k l) c a c' := by
  obtain ⟨l, s, hl, hrest⟩ := runs_bind.mp h
  rw [location] at hl
  split at hl
  · rename_i loc hloc
    obtain ⟨rfl, rfl⟩ := runs_pure.mp hl
    exact ⟨l, hloc, hrest⟩
  · exact absurd (runs_throw.mp hl) id

theorem runs_regs {k : List Reg → Emit α} (h : Runs (t.regs v >>= k) c a c') :
    ∃ rs, t.InRegs v rs ∧ Runs (k rs) c a c' := by
  obtain ⟨rs, s, hrs, hrest⟩ := runs_bind.mp h
  obtain ⟨l, hl, hpure⟩ := runs_location hrs
  split at hpure
  · rename_i hreg
    obtain ⟨rfl, rfl⟩ := runs_pure.mp hpure
    exact ⟨l.regs, ⟨l, hl, hreg, rfl⟩, hrest⟩
  · exact absurd (runs_throw.mp hpure) id

theorem runs_reg {k : Reg → Emit α} (h : Runs (t.reg v >>= k) c a c') : ∃ r, t.InReg v r ∧ Runs (k r) c a c' := by
  obtain ⟨r, s, hr, hrest⟩ := runs_bind.mp h
  obtain ⟨rs, hrs, hpure⟩ := runs_regs hr
  obtain ⟨rfl, rfl⟩ := runs_pure.mp hpure
  exact ⟨_, ⟨rs, hrs, rfl⟩, hrest⟩

end

theorem location_eq (h : t.At v l) : t.location v = pure l := by
  rw [location, show (t.func.value v).loc = some l from h]

theorem reg_eq (h : t.InReg v r) : t.reg v = pure r := by
  obtain ⟨rs, ⟨l, hl, hreg, rfl⟩, rfl⟩ := h
  rw [reg, regs, location_eq hl, pure_bind, if_pos hreg, pure_bind]

end Target

/-- Nothing has changed but the registers listed and the position. -/
structure Machine.Differs (s s' : Machine) (rs : List Reg) : Prop where
  others : ∀ r, r ∉ rs → s'.x r = s.x r
  sp : s'.sp = s.sp
  flags : s'.flags = s.flags
  memory : s'.memory = s.memory

namespace Machine

variable {s s' s'' : Machine} {rd r : Reg} {v : BitVec 64} {rs qs : List Reg}

theorem Differs.refl (s : Machine) (rs : List Reg) : s.Differs s rs := ⟨fun _ _ => rfl, rfl, rfl, rfl⟩

theorem Differs.trans (h : s.Differs s' rs) (h' : s'.Differs s'' rs) : s.Differs s'' rs where
  others r hr := (h'.others r hr).trans (h.others r hr)
  sp := h'.sp.trans h.sp
  flags := h'.flags.trans h.flags
  memory := h'.memory.trans h.memory

theorem Differs.mono (h : s.Differs s' rs) (hsub : ∀ r ∈ rs, r ∈ qs) : s.Differs s' qs where
  others r hr := h.others r fun hr' => hr (hsub r hr')
  sp := h.sp
  flags := h.flags
  memory := h.memory

theorem Differs.base (h : s.Differs s' rs) (hr : r ∉ rs) : s'.base r = s.base r := by
  have hx := h.others r hr
  rw [Machine.base, Machine.base]
  split
  · exact h.sp
  · rename_i hne
    have hne' : r ≠ Reg.xzr := hne
    rwa [x, x, if_neg hne', if_neg hne'] at hx

theorem x_xzr (s : Machine) : s.x Reg.xzr = 0#64 := if_pos rfl

theorem x_setX (hrd : rd ≠ Reg.xzr) : (s.setX rd v).x rd = v := by
  rw [setX, if_neg hrd, x, if_neg hrd]
  exact Function.update_self ..

theorem x_setX_of_ne (h : r ≠ rd) : (s.setX rd v).x r = s.x r := by
  rw [setX]
  split
  · rfl
  · rw [x, x]
    split
    · rfl
    · exact Function.update_of_ne h ..

theorem differs_setX (s : Machine) (rd : Reg) (v : BitVec 64) : s.Differs (s.setX rd v) [rd] := by
  refine ⟨fun r hr => x_setX_of_ne (mem_singleton.not.mp hr), ?_, ?_, ?_⟩ <;> rw [setX] <;> split <;> rfl

end Machine

def Machine.Sets (s : Machine) (rd : Reg) (v : BitVec 64) (rs : List Reg) (s' : Machine) : Prop :=
  s'.x rd = v ∧ s.Differs s' rs

theorem Machine.Sets.mono {s s' : Machine} {rd : Reg} {v : BitVec 64} {rs qs : List Reg}
    (h : s.Sets rd v rs s') (hsub : ∀ r ∈ rs, r ∈ qs) : s.Sets rd v qs s' := ⟨h.1, h.2.mono hsub⟩

namespace Instr

variable {i : Instr} {s s' : Machine} {rd : Reg} {v : BitVec 64} {rs : List Reg} {origin : BitVec 64}

theorem sets_exec (h : i.effect origin s = s.setX rd v) (hrd : rd ≠ Reg.xzr) :
    s.Sets rd v [rd] (i.exec origin s) := by
  have hdiff := h ▸ Machine.differs_setX s rd v
  have hval := h ▸ Machine.x_setX hrd
  exact ⟨hval, hdiff.others, hdiff.sp, hdiff.flags, hdiff.memory⟩

def isData : Instr → Bool
  | addSubReg .. | addSubImm .. | logical .. | movWide .. | dataProc2 .. | dataProc3 .. | bitfield ..
  | condSelect .. => true
  | _ => false

theorem direct_of_isData (h : i.isData) : i.Direct := by
  cases i with
  | loadStore | loadStorePair | branch | branchCond | compareBranch | ret | adrp => cases h
  | _ => exact ⟨⟨rfl, rfl, rfl⟩, rfl, rfl⟩

theorem direct_load (size : MemSize) (signed : Bool) (r base : Reg) (offset : Nat) :
    (load size signed r base offset).Direct := by
  refine ⟨⟨rfl, rfl, rfl⟩, ?_, rfl⟩
  cases signed <;> cases size <;> rfl

theorem direct_store (size : MemSize) (r base : Reg) (offset : Nat) : (store size r base offset).Direct :=
  ⟨⟨rfl, rfl, rfl⟩, rfl, rfl⟩

theorem direct_pair (load : Bool) (r q base : Reg) (offset : Int) :
    (loadStorePair load .offset r q base offset).Direct := ⟨⟨rfl, rfl, rfl⟩, rfl, rfl⟩

theorem emits_mov (rd rm : Reg) : (mov rd rm).isData ∧ (mov rd rm).Fits := by
  rw [mov]
  split
  · exact ⟨rfl, (by decide : 0 < 4096)⟩
  · exact ⟨rfl, trivial⟩

end Instr

end SsaCodegen
