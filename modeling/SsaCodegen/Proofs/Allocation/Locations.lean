import SsaCodegen.Proofs.Allocation.Outline

/-! Giving locations to values. -/

namespace SsaCodegen

open List Option

theorem TypeTable.parts_le_two (types : TypeTable) (ty : TypeId) : types.parts ty ≤ 2 := by
  rw [parts]
  split
  · exact Nat.zero_le 2
  · exact Nat.zero_le 2
  · dsimp only
    split
    · exact Nat.zero_le 2
    · rename_i hsize
      rw [maxRegisterSize, wordSize] at hsize
      rw [wordSize]
      omega

namespace ValueLoc

variable {l : ValueLoc} {rs : List Reg}

theorem regs_of_ofRegs? (h : ofRegs? rs = some l) : l.regs = rs ∧ l.isReg := by
  match rs, h with
  | [r], h =>
    cases h
    exact ⟨rfl, rfl⟩
  | [lo, hi], h =>
    cases h
    exact ⟨rfl, rfl⟩

theorem exists_ofRegs? (hne : rs.length ≠ 0) (hle : rs.length ≤ 2) : ∃ l, ofRegs? rs = some l := by
  match rs, hne, hle with
  | [r], _, _ => exact ⟨.reg r, rfl⟩
  | [lo, hi], _, _ => exact ⟨.pair lo hi, rfl⟩

theorem isReg_iff : l.isReg ↔ l.regs ≠ [] := by
  cases l <;> simp [isReg, regs]

theorem mem_regs_of_part {r : Reg} {i : Nat} (h : l.part i = .reg r) : r ∈ l.regs := by
  cases l with
  | reg q =>
    cases h
    exact mem_singleton_self _
  | pair lo hi =>
    cases i with
    | zero =>
      cases h
      exact mem_cons_self
    | succ i =>
      cases h
      exact mem_cons_of_mem _ mem_cons_self
  | stack slot => cases h
  | imm k => cases h

end ValueLoc

namespace Func

variable {f g k : Func} {v w : ValueId} {l : ValueLoc}

theorem regsOf_of_loc (h : (f.value v).loc = some l) : f.regsOf v = l.regs := by
  rw [regsOf, h]
  rfl

theorem regsOf_of_none (h : (f.value v).loc = none) : f.regsOf v = [] := by
  rw [regsOf, h]
  rfl

theorem exists_loc_of_regsOf (h : f.regsOf v ≠ []) : ∃ l, (f.value v).loc = some l ∧ l.isReg := by
  cases hloc : (f.value v).loc with
  | none => exact absurd (regsOf_of_none hloc) h
  | some l =>
    rw [regsOf_of_loc hloc] at h
    exact ⟨l, rfl, ValueLoc.isReg_iff.mpr h⟩

theorem lt_of_loc (h : (f.value v).loc ≠ none) : v < f.values.size := by
  by_contra hge
  rw [value_eq_default f (not_lt.mp hge)] at h
  exact h rfl

theorem value_setLoc (f : Func) (v w : ValueId) (l : Option ValueLoc) : (f.setLoc v l).value w =
      if v = w ∧ w < f.values.size then { f.value w with loc := l } else f.value w :=
  f.value_modifyValue v w _

theorem value_setLoc_other (h : v ≠ w) (l : Option ValueLoc) : (f.setLoc v l).value w = f.value w := by
  rw [value_setLoc, if_neg fun hc => h hc.1]

theorem value_setLoc_self (h : v < f.values.size) (l : Option ValueLoc) :
    (f.setLoc v l).value v = { f.value v with loc := l } := by
  rw [value_setLoc, if_pos ⟨rfl, h⟩]

@[simp] theorem values_size_setLoc (f : Func) (v : ValueId) (l : Option ValueLoc) :
    (f.setLoc v l).values.size = f.values.size := f.values_size_modifyValue v _

section

variable (f : Func) (v w : ValueId) (l : Option ValueLoc)

theorem span_setLoc : ((f.setLoc v l).value w).span = (f.value w).span := by
  rw [value_setLoc]
  split <;> rfl

@[simp] theorem args_setLoc : (f.setLoc v l).args w = f.args w := by
  rw [args, span_setLoc]
  rfl

theorem kin_setLoc : f.Kin (f.setLoc v l) w := by
  refine ⟨?_, ?_, ?_, ?_⟩ <;> rw [value_setLoc] <;> split <;> rfl

end

theorem Spans.setLoc (h : f.Spans) (v : ValueId) (l : Option ValueLoc) : (f.setLoc v l).Spans :=
  h.congr (values_size_setLoc ..) (fun _ => span_setLoc ..) rfl

theorem Kin.refl (f : Func) (v : ValueId) : f.Kin f v := ⟨rfl, rfl, rfl, rfl⟩

theorem Kin.trans (h : f.Kin g v) (h' : g.Kin k v) : f.Kin k v :=
  ⟨h'.op.trans h.op, h'.ty.trans h.ty, h'.payload.trans h.payload, h'.block.trans h.block⟩

theorem Agrees.refl (f : Func) (v : ValueId) : f.Agrees f v := ⟨.refl f v, rfl, rfl⟩

theorem Agrees.trans (h : f.Agrees g v) (h' : g.Agrees k v) : f.Agrees k v :=
  ⟨h.toKin.trans h'.toKin, h'.loc.trans h.loc, h'.args.trans h.args⟩

theorem agrees_newValue (hspans : f.Spans) (b : BlockId) (op : Op) (ty : TypeId)
    (args : List ValueId) (payload : Payload) (hv : v < f.values.size) :
    f.Agrees (f.newValue b op ty args payload).2 v := by
  have hvalue := f.value_newValue_old b op ty args payload hv
  refine ⟨⟨?_, ?_, ?_, ?_⟩, ?_, hspans.args_newValue_old b op ty args payload hv⟩ <;> rw [hvalue]

end Func

namespace Tidy

variable {c : Setting} {allowed : RegSet} {f g : Func} {limit limit' : Nat} {v : ValueId}

theorem mono (h : Tidy c allowed f limit) (hlimit : limit ≤ limit')
    (hloc : ∀ v l, (g.value v).loc = some l → (f.value v).loc = some l ∧ f.Kin g v) :
    Tidy c allowed g limit' := by
  have hregs : ∀ v, g.regsOf v ≠ [] → g.regsOf v = f.regsOf v ∧ f.Kin g v := by
    intro v hne
    obtain ⟨l, hl, -⟩ := Func.exists_loc_of_regsOf hne
    obtain ⟨hold, hkin⟩ := hloc v l hl
    rw [Func.regsOf_of_loc hl, Func.regsOf_of_loc hold]
    exact ⟨rfl, hkin⟩
  constructor
  · intro v
    by_cases hne : g.regsOf v = []
    · rw [hne]
      exact nodup_nil
    · rw [(hregs v hne).1]
      exact h.nodup v
  · intro v hne hparts
    obtain ⟨heq, hkin⟩ := hregs v hne
    rw [hkin.ty] at hparts ⊢
    rw [heq] at hne ⊢
    exact h.width v hne hparts
  · intro v l hl
    obtain ⟨hold, hkin⟩ := hloc v l hl
    rw [hkin.op, hkin.ty]
    exact h.sized v l hold
  · intro v k hl
    obtain ⟨hold, hkin⟩ := hloc v _ hl
    rw [hkin.op, hkin.payload]
    exact h.const v k hold
  · intro v l hl
    obtain ⟨hold, hkin⟩ := hloc v l hl
    rw [Signature.Delivers, hkin.op, hkin.payload]
    exact h.origin v l hold
  · intro v o hl
    obtain ⟨hold, hkin⟩ := hloc v _ hl
    rw [hkin.ty]
    exact (h.bound v o hold).trans hlimit
  · intro v w o o' hne hv hw
    obtain ⟨hv, hkinv⟩ := hloc v _ hv
    obtain ⟨hw, hkinw⟩ := hloc w _ hw
    rw [hkinv.ty, hkinw.ty]
    exact h.apart v w o o' hne hv hw

theorem setLoc {l : ValueLoc} (h : Tidy c allowed f limit) (hlimit : limit ≤ limit')
    (hlt : v < f.values.size) (hnodup : l.regs.Nodup)
    (hwidth : l.regs ≠ [] → c.types.parts (f.value v).ty ≠ 0 → l.regs.length = c.types.parts (f.value v).ty)
    (hsized : (f.value v).op = .loadReg ∨ (f.value v).op = .phi ∨ (∃ slot, l = .stack slot) →
      c.types.parts (f.value v).ty ≠ 0)
    (hconst : ∀ k, l = .imm k → (f.value v).op = .const ∧ (f.value v).payload = .int k)
    (horigin : c.signature.Delivers (f.value v) l ∨
      (∀ r ∈ l.regs, allowed.contains r) ∧ ∀ slot, l = .stack slot → ∃ o, slot = .spill o)
    (hspill : ∀ o, l = .stack (.spill o) → limit ≤ o ∧ o + c.types.parts (f.value v).ty * wordSize ≤ limit') :
    Tidy c allowed (f.setLoc v (some l)) limit' := by
  have hself := Func.value_setLoc_self hlt (some l)
  have hselfRegs := Func.regsOf_of_loc (by rw [hself])
  have hother : ∀ w, w ≠ v → (f.setLoc v (some l)).value w = f.value w :=
    fun w hw => Func.value_setLoc_other (Ne.symm hw) _
  have hotherRegs : ∀ w, w ≠ v → (f.setLoc v (some l)).regsOf w = f.regsOf w :=
    fun w hw => Draft.regsOf_eq_of_loc (by rw [hother w hw])
  constructor
  · intro w
    by_cases hw : w = v
    · rw [hw, hselfRegs]
      exact hnodup
    · rw [hotherRegs w hw]
      exact h.nodup w
  · intro w
    by_cases hw : w = v
    · rw [hw, hselfRegs, hself]
      exact hwidth
    · rw [hotherRegs w hw, hother w hw]
      exact h.width w
  · intro w l'
    by_cases hw : w = v
    · rw [hw, hself]
      intro hl
      rw [← some.inj hl]
      exact hsized
    · rw [hother w hw]
      exact h.sized w l'
  · intro w k
    by_cases hw : w = v
    · rw [hw, hself]
      exact fun hl => hconst k (some.inj hl)
    · rw [hother w hw]
      exact h.const w k
  · intro w l'
    by_cases hw : w = v
    · rw [hw, hself]
      intro hl
      rw [← some.inj hl]
      exact horigin
    · rw [hother w hw]
      exact h.origin w l'
  · intro w o
    by_cases hw : w = v
    · rw [hw, hself]
      exact fun hl => (hspill o (some.inj hl)).2
    · rw [hother w hw]
      exact fun hl => (h.bound w o hl).trans hlimit
  · intro u w o o' hne hu hw
    by_cases huv : u = v
    · have hwv : w ≠ v := fun hwv => hne (huv.trans hwv.symm)
      rw [huv, hself] at hu
      rw [hother w hwv] at hw ⊢
      refine .inr ((h.bound w o' hw).trans (hspill o (some.inj hu)).1)
    · rw [hother u huv] at hu ⊢
      by_cases hwv : w = v
      · rw [hwv, hself] at hw
        exact .inl ((h.bound u o hu).trans (hspill o' (some.inj hw)).1)
      · rw [hother w hwv] at hw ⊢
        exact h.apart u w o o' hne hu hw

end Tidy

end SsaCodegen
