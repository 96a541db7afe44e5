import SsaCodegen.Ssa.Construction
import SsaCodegen.Proofs.Construction.Reading
import SsaCodegen.Proofs.Construction.Script
import SsaCodegen.Proofs.TypeTables

/-! Types in the functions that construction builds. Every value has operands of the types that its operation
calls for. -/

namespace SsaCodegen

open List Func

def Ir.NodeKind.takesOut : Ir.NodeKind → Bool
  | .loadLocal _ | .extract _ _ => true
  | _ => false

namespace Ir.Func

def ReadsVoid (f : Ir.Func) : Prop :=
  ∃ b ∈ f.reachableBlocks, ∃ n ∈ (f.block b).nodes, f.nodeType n = TypeId.void ∧ (f.node n).kind.takesOut = true

instance (f : Ir.Func) : Decidable f.ReadsVoid := by
  unfold ReadsVoid
  infer_instance

def MayHold (f : Ir.Func) (ty : TypeId) : Prop :=
  ty ≠ TypeId.mem ∧ (ty = TypeId.void → f.ReadsVoid)

end Ir.Func

/-- An operation with that type and payload fits data operands of the given types, in a function with
`locals` locals. -/
def Op.Takes (ir : Ir.Func) (types : TypeTable) (locals : Nat) (ty : TypeId) (payload : Payload)
    (operands : List TypeId) : Op → Prop
  | .add | .sub | .mul | .sdiv | .udiv | .srem | .urem | .and | .or | .xor | .shl | .lshr | .ashr =>
    types.isInteger ty ∧ operands = [ty, ty]
  | .neg | .not => types.isInteger ty ∧ operands = [ty]
  | .cmp => ty = TypeId.bool ∧ (∃ r, payload = .relation r) ∧
    ∃ source, types.isInteger source ∧ operands = [source, source]
  | .signExt | .zeroExt | .trunc =>
    types.isInteger ty ∧ ∃ source, types.isInteger source ∧ operands = [source]
  | .const => types.isInteger ty ∧ (∃ k, payload = .int k) ∧ operands = []
  | .copy => ir.MayHold ty ∧ operands = [ty]
  | .pack => ir.MayHold ty ∧ operands.length ≤ 2 ∧ ∀ field ∈ operands, types.size field = wordSize
  | .extract => ir.MayHold ty ∧ (∃ k, payload = .int k) ∧ ∃ whole, operands = [whole]
  | .localAddr => ty = TypeId.ptr ∧ (∃ l, payload = .slot l ∧ l < locals) ∧ operands = []
  | .globalAddr => ty = TypeId.ptr ∧ (∃ name, payload = .symbol name) ∧ operands = []
  | .offPtr => ty = TypeId.ptr ∧ (∃ k, payload = .int k) ∧ operands = [TypeId.ptr]
  | .load => ir.MayHold ty ∧ operands = [TypeId.ptr]
  | .store => ty = TypeId.mem ∧ ∃ stored, operands = [TypeId.ptr, stored]
  | .zero => ty = TypeId.mem ∧ (∃ k, payload = .int k) ∧ operands = [TypeId.ptr]
  | .move => ty = TypeId.mem ∧ (∃ k, payload = .int k) ∧ operands = [TypeId.ptr, TypeId.ptr]
  | .call => ∃ callee, payload = .callee callee
  | .ret => operands.length ≤ 1
  | .arg | .initMem | .resultPtr | .phi | .storeReg | .loadReg => True

theorem Op.Takes.mono {ir : Ir.Func} {types : TypeTable} {m n : Nat} {ty : TypeId} {payload : Payload}
    {operands : List TypeId} {op : Op} (h : op.Takes ir types m ty payload operands) (hle : m ≤ n) :
    op.Takes ir types n ty payload operands := by
  cases op with
  | localAddr =>
    obtain ⟨hty, ⟨l, hl, hlt⟩, hnone⟩ := h
    exact ⟨hty, ⟨l, hl, hlt.trans_le hle⟩, hnone⟩
  | _ => exact h

namespace Func

variable {ir : Ir.Func} {f g : Func}

def dataTypes (f : Func) (v : ValueId) : List TypeId := (f.dataArgs v).map fun a => (f.value a).ty

/-- The value has operands that its operation fits. -/
structure Computes (ir : Ir.Func) (types : TypeTable) (f : Func) (v : ValueId) : Prop where
  takes : (f.value v).op.Takes ir types f.locals.size (f.value v).ty (f.value v).payload (f.dataTypes v)
  operands : ∀ ty ∈ f.dataTypes v, ir.MayHold ty

def Typed (ir : Ir.Func) (types : TypeTable) (f : Func) : Prop :=
  ∀ v, v < f.values.size → (f.value v).op.isLeading = false → f.Computes ir types v

theorem Computes.congr {types : TypeTable} {v : ValueId} (h : f.Computes ir types v)
    (hvalue : (g.value v).op = (f.value v).op ∧ (g.value v).ty = (f.value v).ty ∧
      (g.value v).payload = (f.value v).payload) (htypes : g.dataTypes v = f.dataTypes v)
    (hlocals : f.locals.size ≤ g.locals.size) : g.Computes ir types v := by
  obtain ⟨hop, hty, hpayload⟩ := hvalue
  refine ⟨?_, htypes ▸ h.operands⟩
  rw [hop, hty, hpayload, htypes]
  exact h.takes.mono hlocals

theorem Typed.congr {types : TypeTable} (h : f.Typed ir types) (hsize : g.values.size = f.values.size)
    (hvalue : ∀ v, (g.value v).op = (f.value v).op ∧ (g.value v).ty = (f.value v).ty ∧
      (g.value v).payload = (f.value v).payload) (hargs : ∀ v, g.args v = f.args v)
    (hlocals : g.locals = f.locals) : g.Typed ir types := by
  intro v hv hlead
  rw [hsize] at hv
  rw [(hvalue v).1] at hlead
  refine (h v hv hlead).congr (hvalue v) ?_ (congrArg Array.size hlocals.symm).le
  have hmem : (g.value v).isMemory = (f.value v).isMemory := by
    rw [Value.isMemory, Value.isMemory, (hvalue v).2.1]
  have hdata : g.dataArgs v = f.dataArgs v := by
    rw [dataArgs, dataArgs, hargs, (hvalue v).1, hmem]
  rw [dataTypes, hdata]
  exact map_congr_left fun a _ => (hvalue a).2.1

end Func

namespace Ir.Func

variable {f : Ir.Func} {types : TypeTable} {ty : TypeId}

theorem mayHold_integer (htypes : types.Made) (hty : types.isInteger ty) : f.MayHold ty :=
  ⟨(htypes.integer hty).2.1, fun h => absurd h (htypes.integer hty).2.2.1⟩

theorem mayHold_ptr (f : Ir.Func) : f.MayHold TypeId.ptr := ⟨by decide, fun h => by cases h⟩

theorem mayHold_passed (hty : f.MayHold ty) : f.MayHold (passedType types ty) := by
  rw [passedType]
  split
  · exact f.mayHold_ptr
  · exact hty

end Ir.Func

theorem passedType_eq {types : TypeTable} {ty : TypeId} (h : types.isMemoryAggregate ty = false) :
    passedType types ty = ty := by
  rw [passedType, if_neg (by rw [h]; exact Bool.false_ne_true)]

theorem passedType_integer {types : TypeTable} {ty : TypeId} (htypes : types.Made)
    (hty : types.isInteger ty) : passedType types ty = ty :=
  passedType_eq (htypes.integer hty).2.2.2

/-- An input of a function: how it is made and what type it has. -/
structure Input where
  op : Op
  ty : TypeId
  payload : Payload

def inputs (ir : Ir.Func) (types : TypeTable) : List Input :=
  ⟨.initMem, TypeId.mem, .none⟩ :: (ir.params.zipIdx.map fun (ty, i) =>
    ⟨.arg, passedType types ty, .int i⟩) ++
  if types.isMemoryAggregate ir.result then [⟨.resultPtr, TypeId.ptr, .none⟩] else []

namespace Construction

variable {t : Task} {b : BlockId} {s s' : Construction} {ty : TypeId} {v : ValueId} {vs : List ValueId}
  {tys : List TypeId} {g : Func}

/-- The value has that type, and the function may hold values of it. -/
structure Holds (t : Task) (s : Construction) (v : ValueId) (ty : TypeId) : Prop where
  lt : v < s.func.values.size
  type : (s.func.value v).ty = ty
  may : t.ir.MayHold ty

/-- The values so far have the types that they need, and so have those that stand for nodes. None has a place
in the machine, and at the tops of blocks stand phis and the inputs as they were entered. -/
structure Typed (t : Task) (s : Construction) : Prop where
  func : s.func.Typed t.ir t.types
  nodes : ∀ n v, s.nodeValues.getD n none = some v → s.Holds t v (passedType t.types (t.ir.nodeType n))
  bare : ∀ v, v < s.func.values.size → (s.func.value v).loc = none
  leading : ∀ v, v < s.func.values.size → (s.func.value v).op.isLeading →
    (s.func.value v).op = .phi ∨ ∃ i, (inputs t.ir t.types)[v]? = some i ∧ (s.func.value v).op = i.op ∧
      (s.func.value v).ty = i.ty ∧ (s.func.value v).payload = i.payload
  params : s.func.params = t.ir.params

theorem Extends.holds (h : Extends s s') (hv : s.Holds t v ty) : s'.Holds t v ty :=
  ⟨hv.lt.trans_le h.size_le, by rw [h.value v hv.lt]; exact hv.type, hv.may⟩

theorem Extends.dataTypes (h : Extends s s') (hs : s.Sound t.ir [] []) (hv : v < s.func.values.size)
    (hop : (s.func.value v).op ≠ .phi) : s'.func.dataTypes v = s.func.dataTypes v := by
  rw [Func.dataTypes, h.dataArgs hv hop]
  refine map_congr_left fun a ha => ?_
  rw [h.value a (hs.shape.args_lt v hv a ((s.func.dataArgs_front v).subset ha))]

section

variable (h : s.Typed t)

include h

theorem Typed.extends (hs : s.Sound t.ir [] []) (hext : Extends s s') (hnodes : s'.nodeValues = s.nodeValues)
    (hnew : ∀ v, s.func.values.size ≤ v → v < s'.func.values.size → (s'.func.value v).loc = none ∧
      ((s'.func.value v).op = .phi ∨
        (s'.func.value v).op.isLeading = false ∧ s'.func.Computes t.ir t.types v)) : s'.Typed t := by
  refine ⟨fun v hv hlead => ?_, fun n v hn => ?_, fun v hv => ?_, fun v hv hlead => ?_, hext.params.trans h.params⟩
  · by_cases hlt : v < s.func.values.size
    · have hval := hext.value v hlt
      rw [hval] at hlead
      have hphi : (s.func.value v).op ≠ .phi := by
        intro hop
        rw [hop] at hlead
        cases hlead
      exact (h.func v hlt hlead).congr (by rw [hval]; exact ⟨rfl, rfl, rfl⟩) (hext.dataTypes hs hlt hphi)
        hext.locals_le
    · rcases (hnew v (not_lt.mp hlt) hv).2 with hop | ⟨-, hfits⟩
      · rw [hop] at hlead
        cases hlead
      · exact hfits
  · rw [hnodes] at hn
    exact hext.holds (h.nodes n v hn)
  · by_cases hlt : v < s.func.values.size
    · rw [hext.value v hlt]
      exact h.bare v hlt
    · exact (hnew v (not_lt.mp hlt) hv).1
  · by_cases hlt : v < s.func.values.size
    · rw [hext.value v hlt] at hlead ⊢
      exact h.leading v hlt hlead
    · rcases (hnew v (not_lt.mp hlt) hv).2 with hop | ⟨hnot, -⟩
      · exact .inl hop
      · rw [hnot] at hlead
        cases hlead

theorem Typed.asks (hs : s.Sound t.ir [] []) (hask : Asks s s') : s'.Typed t :=
  h.extends hs hask.toExtends hask.nodeValues_eq fun v hle hlt => (hask.new_phi v hle hlt).symm.imp_right .inl

theorem Typed.congr (hfunc : s'.func = s.func) (hnodes : s'.nodeValues = s.nodeValues) : s'.Typed t := by
  refine ⟨hfunc ▸ h.func, fun n v hn => ?_, hfunc ▸ h.bare, hfunc ▸ h.leading, hfunc ▸ h.params⟩
  rw [hnodes] at hn
  obtain ⟨hlt, hty, hmay⟩ := h.nodes n v hn
  exact ⟨hfunc ▸ hlt, hfunc ▸ hty, hmay⟩

theorem Typed.assign (x : Var) (b : BlockId) (v : ValueId) : (s.assign x b v).Typed t :=
  h.congr func_assign nodeValues_assign

theorem Typed.record {n : Ir.NodeId} {r : Option ValueId}
    (hr : ∀ v, r = some v → s.Holds t v (passedType t.types (t.ir.nodeType n))) :
    Typed t { s with nodeValues := s.nodeValues.setIfInBounds n r } := by
  refine ⟨h.func, fun m v hm => ?_, h.bare, h.leading, h.params⟩
  rw [Array.getD_eq_getD_getElem?, Array.getElem?_setIfInBounds] at hm
  split at hm
  · next hnm =>
    subst hnm
    split at hm
    · exact { hr v hm with }
    · cases hm
  · rw [← Array.getD_eq_getD_getElem?] at hm
    exact { h.nodes m v hm with }

end

theorem types_of_holds (h : List.Forall₂ (s.Holds t) vs tys)
    (hg : ∀ v, v < s.func.values.size → g.value v = s.func.value v) :
    vs.map (fun a => (g.value a).ty) = tys ∧ ∀ ty ∈ tys, t.ir.MayHold ty := by
  induction h with
  | nil => exact ⟨rfl, forall_mem_nil _⟩
  | cons hv _ ih =>
    rw [map_cons, ih.1, hg _ hv.lt, hv.type]
    exact ⟨rfl, forall_mem_cons.mpr ⟨hv.may, ih.2⟩⟩

/-- The operands of a new value have types that its operation fits. -/
def Accepts (t : Task) (s : Construction) (op : Op) (ty : TypeId) (payload : Payload) (data : List ValueId) : Prop :=
  ∃ tys, List.Forall₂ (s.Holds t) data tys ∧ op.Takes t.ir t.types s.func.locals.size ty payload tys

theorem Accepts.newValue {op : Op} {args : List ValueId} {payload : Payload}
    (h : Accepts t s op ty payload (if op.takesMem then args.dropLast else args))
    (hlead : op.isLeading = false) (hvalues : g.values = (s.func.newValue b op ty args payload).2.values)
    (hoperands : g.operands = (s.func.newValue b op ty args payload).2.operands)
    (hlocals : g.locals = s.func.locals) (hle : s.func.values.size ≤ v) (hlt : v < g.values.size) :
    (g.value v).loc = none ∧ ((g.value v).op = .phi ∨
      (g.value v).op.isLeading = false ∧ g.Computes t.ir t.types v) := by
  rw [hvalues, values_size_newValue] at hlt
  obtain rfl := (Nat.le_of_lt_succ hlt).antisymm hle
  obtain ⟨tys, htyped, htakes⟩ := h
  have hphi : op ≠ .phi := by
    rintro rfl
    cases hlead
  have hvalue : ∀ v, g.value v = (s.func.newValue b op ty args payload).2.value v := fun v => by
    rw [value, hvalues, value]
  have hnew := (hvalue _).trans (value_newValue_new s.func b op ty args payload)
  have hargs : g.args s.func.values.size = args := by
    rw [Func.args, hoperands, hvalue]
    exact args_newValue_new b op ty args payload
  obtain ⟨htypes, hmay⟩ := types_of_holds htyped fun a ha =>
    (hvalue a).trans (value_newValue_old s.func b op ty args payload ha)
  have hdata : g.dataTypes s.func.values.size = tys := by
    rw [Func.dataTypes, dataArgs, hargs, hnew]
    rw [if_neg fun hc => hphi hc.1, htypes]
  rw [hnew]
  refine ⟨rfl, .inr ⟨hlead, ?_, hdata ▸ hmay⟩⟩
  rw [hdata, hnew, hlocals]
  exact htakes

end Construction

end SsaCodegen
