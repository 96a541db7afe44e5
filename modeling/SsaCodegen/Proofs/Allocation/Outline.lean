import SsaCodegen.Proofs.Allocation.Draft
import SsaCodegen.Proofs.Stateful

/-! What register allocation keeps in order: every visited block has a run of steps from what its registers
hold at the start to what they hold now. -/

namespace SsaCodegen

namespace Func

variable {f : Func} {b : BlockId} {v : ValueId}

theorem SsaForm.branch_control (hf : f.SsaForm) (hk : (f.block b).kind = .branch)
    (hv : (f.block b).control = some v) : f.AtEnd v b := by
  obtain ⟨u, hu, hend⟩ := hf.branch b (lt_of_control hv) hk
  rw [hv, Option.some_inj] at hu
  rw [hu]
  exact hend

theorem SsaForm.ret_control (hf : f.SsaForm) (hk : (f.block b).kind = .ret)
    (hv : (f.block b).control = some v) : v < f.values.size ∧ (f.value v).op = .ret ∧
      (∀ d, v ∉ (f.block d).values) ∧ ∀ a ∈ f.args v, f.AtEnd a b := by
  obtain ⟨r, hr, hsize, hop, -, hnot, hargs⟩ := hf.ret b (lt_of_control hv) hk
  rw [hv, Option.some_inj] at hr
  subst hr
  exact ⟨hsize, hop, hnot, hargs⟩

theorem SsaForm.ret_block (hf : f.SsaForm) (hk : (f.block b).kind = .ret)
    (hv : (f.block b).control = some v) : (f.value v).block = b := by
  obtain ⟨r, hr, -, -, hblock, -⟩ := hf.ret b (lt_of_control hv) hk
  rw [hv, Option.some_inj] at hr
  rw [hr, hblock]

end Func

/-- The state of register allocation without the register file and the counts of added code. -/
structure Outline where
  func : Func
  homes : List (ValueId × ValueId)
  endStates : Array (Option (List (Reg × Occupant)))
  current : Option BlockId
  out : List ValueId
  spillSize : Nat

def Allocator.outline (s : Allocator) : Outline :=
  ⟨s.func, s.homes, s.endStates, s.current, s.out, s.spillSize⟩

def Signature.Delivers (g : Signature) (x : Value) (l : ValueLoc) : Prop :=
  x.op = .arg ∧ (∃ i : Nat, x.payload = .int i ∧ g.paramLocation? i = some l) ∨ x.op = .resultPtr ∧ l = .reg Reg.x8

/-- Locations fit their values: registers are those that may be handed out, and spilled values do not
overlap below the limit of the spill area. -/
structure Tidy (c : Setting) (allowed : RegSet) (f : Func) (limit : Nat) : Prop where
  nodup : ∀ v, (f.regsOf v).Nodup
  width : ∀ v, f.regsOf v ≠ [] → c.types.parts (f.value v).ty ≠ 0 → (f.regsOf v).length = c.types.parts (f.value v).ty
  sized : ∀ v l, (f.value v).loc = some l →
    (f.value v).op = .loadReg ∨ (f.value v).op = .phi ∨ (∃ slot, l = .stack slot) → c.types.parts (f.value v).ty ≠ 0
  const : ∀ v k, (f.value v).loc = some (.imm k) → (f.value v).op = .const ∧ (f.value v).payload = .int k
  origin : ∀ v l, (f.value v).loc = some l → c.signature.Delivers (f.value v) l ∨
    (∀ r ∈ l.regs, allowed.contains r) ∧ ∀ slot, l = .stack slot → ∃ o, slot = .spill o
  bound : ∀ v o, (f.value v).loc = some (.stack (.spill o)) → o + c.types.parts (f.value v).ty * wordSize ≤ limit
  apart : ∀ v w o o', v ≠ w → (f.value v).loc = some (.stack (.spill o)) →
    (f.value w).loc = some (.stack (.spill o')) → o + c.types.parts (f.value v).ty * wordSize ≤ o' ∨
        o' + c.types.parts (f.value w).ty * wordSize ≤ o

namespace Outline

def valuesOf (t : Outline) (b : BlockId) : List ValueId :=
  if t.current = some b then t.out else (t.func.block b).values

def atEnd (t : Outline) (b : BlockId) : Claims := fun r =>
  ((t.endStates.getD b none).getD []).lookup r

def stop (t : Outline) (P : Claims) (b : BlockId) : Claims :=
  if t.current = some b then P else t.atEnd b

def draft (t : Outline) (f : Func) : Draft := ⟨f, t.func, fun v => t.homes.lookup v⟩

/-- A copy in memory: the value itself, or a store in its block. -/
def HomeFits (t : Outline) (f : Func) (vis : List BlockId) (v h : ValueId) : Prop :=
  v < f.values.size ∧ (h = v ∧ (∃ l, (t.func.value v).loc = some l ∧ l.isReg = false) ∨
      f.values.size ≤ h ∧ (t.func.value h).op = .storeReg ∧ t.func.args h = [v] ∧
        (t.func.value h).ty = (f.value v).ty ∧ (∃ slot, (t.func.value h).loc = some (.stack slot)) ∧
        (f.value v).block ∈ vis ∧ h ∈ t.valuesOf (f.value v).block)

/-- What registers hold is whole values that have been computed. -/
structure Founded (t : Outline) (f : Func) (vis : List BlockId) (P : Claims) : Prop where
  whole : ∀ r o, P r = some o → (t.func.regsOf o.copy)[o.part]? = some r ∧ (t.draft f).Held P o.value o.copy
  placed : ∀ r o, P r = some o → o.value < f.values.size ∧ ∃ b ∈ vis, o.value ∈ t.valuesOf b

/-- What may be in registers at the start of a block: its leading values, or what its only predecessor
left there. -/
structure StartsWith (t : Outline) (f : Func) (b : BlockId) (S : Claims) : Prop where
  held : ∀ v ∈ f.leading b, t.func.regsOf v ≠ [] → (t.draft f).Held S v v
  located : ∀ v ∈ f.leading b, (f.value v).hasResult → (t.func.value v).loc ≠ none
  source : (∀ r o, S r = some o → o.copy = o.value ∧ o.value ∈ f.leading b) ∨
    ∃ p, (f.block b).preds = [p] ∧ t.endStates.getD p none ≠ none ∧ S.Within (t.atEnd p) ∧
      ∀ r o, S r = some o → o.value ∉ (f.block b).values

/-- The values of a block follow one another rightly up to where the registers hold `stop`. -/
structure Visited (t : Outline) (f : Func) (b : BlockId) (stop : Claims) : Prop where
  nodup : (t.valuesOf b).Nodup
  placed : ∀ v ∈ t.valuesOf b, v < t.func.values.size ∧ (t.func.value v).block = b
  listed : ∀ v ∈ t.valuesOf b, v < f.values.size → v ∈ (f.block b).values
  route : ∃ S rest, t.valuesOf b = f.leading b ++ rest ∧ t.StartsWith f b S ∧
    (t.draft f).Steps b (f.leading b) S rest stop

/-- A block is done, and what its end reads is at hand there. -/
structure Closed (t : Outline) (f : Func) (vis : List BlockId) (b : BlockId) : Prop where
  all : (t.valuesOf b).filter (· < f.values.size) = (f.block b).values
  branch : (f.block b).kind = .branch → ∃ u c, (f.block b).control = some u ∧
    (t.func.block b).control = some c ∧ (t.draft f).Held (t.atEnd b) u c
  plain : (f.block b).kind ≠ .branch → (t.func.block b).control = (f.block b).control
  ret : ∀ v, (f.block b).kind = .ret → (f.block b).control = some v →
    (t.draft f).Renames v ((t.draft f).AtHand b (t.valuesOf b) (t.atEnd b))
  founded : t.Founded f vis (t.atEnd b)

/-- The state of an allocation of `f` that has visited the blocks `vis`. In the block at hand, if it is
one of them, the registers hold at least `P`. -/
structure Consistent (c : Setting) (allowed : RegSet) (f : Func) (vis : List BlockId) (P : Claims)
    (t : Outline) : Prop where
  graph : f.SameGraph t.func
  spans : t.func.Spans
  size_le : f.values.size ≤ t.func.values.size
  kin : ∀ v, v < f.values.size → f.Kin t.func v
  tidy : Tidy c allowed t.func t.spillSize
  homes : ∀ v h, t.homes.lookup v = some h → t.HomeFits f vis v h
  todo : ∀ b, b ∉ vis ∨ t.current = some b → t.func.block b = f.block b
  ends : t.endStates.size = f.blocks.size
  ended : ∀ b, t.endStates.getD b none ≠ none → b ∈ vis ∧ t.current ≠ some b
  keys : ∀ b state, t.endStates.getD b none = some state → (state.map Prod.fst).Nodup
  visited : ∀ b ∈ vis, t.Visited f b (t.stop P b)
  closed : ∀ b ∈ vis, t.current ≠ some b → t.Closed f vis b
  locals : t.func.locals = f.locals

/-- What has not been dealt with is as it was in `f`, apart from the operands of `busy`. -/
structure Untouched (t : Outline) (f : Func) (vis : List BlockId) (busy : Option ValueId) : Prop where
  loc : ∀ v, v < f.values.size → (∀ b ∈ vis, v ∉ t.valuesOf b) → (t.func.value v).loc = none
  args : ∀ v, v < f.values.size → some v ≠ busy → (∀ b, (f.block b).kind = .ret → (f.block b).control ≠ some v) →
    ((f.value v).op.isLeading ∨ ∀ b ∈ vis, v ∉ t.valuesOf b) → t.func.args v = f.args v
  rets : ∀ b v, b ∉ vis ∨ t.current = some b → (f.block b).kind = .ret →
    (f.block b).control = some v → some v ≠ busy → t.func.args v = f.args v

variable {c : Setting} {allowed : RegSet} {f : Func} {vis : List BlockId} {P Q S : Claims}
  {t t' : Outline} {b : BlockId} {u v w h : ValueId}

theorem valuesOf_current (hb : t.current = some b) : t.valuesOf b = t.out := if_pos hb

theorem valuesOf_other (hb : t.current ≠ some b) : t.valuesOf b = (t.func.block b).values := if_neg hb

theorem stop_current (hb : t.current = some b) : t.stop P b = P := if_pos hb

theorem stop_other (hb : t.current ≠ some b) : t.stop P b = t.atEnd b := if_neg hb

section

variable (ht : Consistent c allowed f vis P t)

include ht

theorem Consistent.lt (hb : b ∈ vis) (hv : v ∈ t.valuesOf b) : v < t.func.values.size :=
  ((ht.visited b hb).placed v hv).1

theorem Consistent.hasResult (hv : v < f.values.size) : (t.func.value v).hasResult = (f.value v).hasResult := by
  rw [Value.hasResult, Value.hasResult, (ht.kin v hv).ty]

theorem Consistent.dataArgs_length (hv : v < f.values.size) (hlen : (t.func.args v).length = (f.args v).length) :
    (t.func.dataArgs v).length = (f.dataArgs v).length := by
  rw [Func.dataArgs, Func.dataArgs, Value.isMemory, Value.isMemory, (ht.kin v hv).op, (ht.kin v hv).ty]
  split
  · rfl
  · split
    · rw [List.length_dropLast, List.length_dropLast, hlen]
    · exact hlen

theorem Consistent.weaken (hQ : Q.Within P) : Consistent c allowed f vis Q t where
  __ := ht
  visited b hb := by
    obtain ⟨nodup, placed, listed, S, rest, hvals, hstart, hsteps⟩ := ht.visited b hb
    refine ⟨nodup, placed, listed, S, rest, hvals, hstart, ?_⟩
    by_cases hcur : t.current = some b
    · rw [stop_current hcur] at hsteps ⊢
      exact hsteps.weaken hQ
    · rw [stop_other hcur] at hsteps ⊢
      exact hsteps

end

end Outline

end SsaCodegen
