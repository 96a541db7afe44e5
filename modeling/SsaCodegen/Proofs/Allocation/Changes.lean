import SsaCodegen.Proofs.Allocation.Growth
import SsaCodegen.Proofs.Allocation.Locations

/-! The single changes that register allocation makes to a function, and what they all keep. -/

namespace SsaCodegen.Outline

open List Func

variable {c : Setting} {allowed : RegSet} {f : Func} {vis : List BlockId} {P Q S : Claims}
  {t t' t'' : Outline} {b : BlockId} {u v w h : ValueId} {l : ValueLoc}

/-- What work on one instruction keeps: values that were there stay as they are, and blocks only get
values that were not there before. -/
structure Onward (t t' : Outline) (f : Func) : Prop where
  size_le : t.func.values.size ≤ t'.func.values.size
  agrees : ∀ v, v < t.func.values.size → t.func.Agrees t'.func v
  home : ∀ u h, t.homes.lookup u = some h → t'.homes.lookup u = some h
  current : t'.current = t.current
  endStates : t'.endStates = t.endStates
  members : ∀ b, ∀ v ∈ t.valuesOf b, v ∈ t'.valuesOf b
  added : ∀ b, ∀ v ∈ t'.valuesOf b, v ∈ t.valuesOf b ∨ t.func.values.size ≤ v
  originals : ∀ b, (t'.valuesOf b).filter (· < f.values.size) = (t.valuesOf b).filter (· < f.values.size)

namespace Onward

protected theorem refl (t : Outline) (f : Func) : t.Onward t f :=
  ⟨le_rfl, fun v _ => .refl _ v, fun _ _ => id, rfl, rfl, fun _ _ => id, fun _ _ => Or.inl, fun _ => rfl⟩

protected theorem trans (h : t.Onward t' f) (h' : t'.Onward t'' f) : t.Onward t'' f where
  size_le := h.size_le.trans h'.size_le
  agrees v hv := (h.agrees v hv).trans (h'.agrees v (hv.trans_le h.size_le))
  home u k hk := h'.home u k (h.home u k hk)
  current := h'.current.trans h.current
  endStates := h'.endStates.trans h.endStates
  members b v hv := h'.members b v (h.members b v hv)
  added b v hv := by
    rcases h'.added b v hv with hv | hge
    · exact h.added b v hv
    · exact Or.inr (h.size_le.trans hge)
  originals b := (h'.originals b).trans (h.originals b)

theorem loc (h : t.Onward t' f) {l : ValueLoc} (hl : (t.func.value v).loc = some l) :
    (t'.func.value v).loc = some l := by
  have hlt := lt_of_loc (by rw [hl]; exact Option.some_ne_none l : (t.func.value v).loc ≠ none)
  rw [(h.agrees v hlt).loc, hl]

theorem extends_draft (h : t.Onward t' f) : (t.draft f).Extends (t'.draft f) (· < t.func.values.size) where
  source := rfl
  agrees := h.agrees
  loc _ _ := h.loc
  home := h.home

theorem founded (h : t.Onward t' f) (hP : t.Founded f vis P) : t'.Founded f vis P :=
  hP.extend h.extends_draft fun b _ => h.members b

theorem untouched {busy : Option ValueId} (h : t.Onward t' f)
    (hle : f.values.size ≤ t.func.values.size) (hf : f.SsaForm) (ht : t.Untouched f vis busy) :
    t'.Untouched f vis busy where
  loc v hv hnot := by
    rw [(h.agrees v (hv.trans_le hle)).loc]
    exact ht.loc v hv fun b hb hmem => hnot b hb (h.members b v hmem)
  args v hv hbusy hret hcase := by
    rw [(h.agrees v (hv.trans_le hle)).args]
    refine ht.args v hv hbusy hret (hcase.imp_right ?_)
    exact fun hnot b hb hmem => hnot b hb (h.members b v hmem)
  rets b v hb hk hv hbusy := by
    rw [h.current] at hb
    rw [(h.agrees v ((hf.ret_control hk hv).1.trans_le hle)).args]
    exact ht.rets b v hb hk hv hbusy

end Onward

theorem Onward.relist (h : t.Onward t' f) (hr : t'.Relists t'' f b)
    (hadded : ∀ v ∈ t''.valuesOf b, v ∈ t'.valuesOf b ∨ t.func.values.size ≤ v)
    (horiginals : (t''.valuesOf b).filter (· < f.values.size) =
      (t'.valuesOf b).filter (· < f.values.size)) : t.Onward t'' f where
  size_le := h.size_le.trans hr.size.symm.le
  agrees v hv := (h.agrees v hv).trans (hr.extends_draft.agrees v trivial)
  home u k hk := hr.home u k (h.home u k hk)
  current := hr.current.trans h.current
  endStates := hr.endStates.trans h.endStates
  members b' v hv := hr.members_all b' v (h.members b' v hv)
  added b' v hv := by
    by_cases hb' : b' = b
    · rw [hb'] at hv ⊢
      rcases hadded v hv with hv | hge
      · exact h.added b v hv
      · exact .inr hge
    · rw [hr.valuesOf_other hb'] at hv
      exact h.added b' v hv
  originals b' := by
    rw [← h.originals b']
    by_cases hb' : b' = b
    · rw [hb']
      exact horiginals
    · rw [hr.valuesOf_other hb']

theorem Onward.emit (h : t.Onward t' f) (hspans : t'.func.Spans) (hcur : t'.current = some b)
    (hnew : t.func.values.size ≤ w) (hle : f.values.size ≤ w) : t.Onward (t'.emit w) f := by
  have hvals := valuesOf_emit hcur w
  refine h.relist (relists_emit hspans hcur w) (fun v hv => ?_) ?_
  · rw [hvals, mem_append, mem_singleton] at hv
    refine hv.imp_right ?_
    rintro rfl
    exact hnew
  · rw [hvals, filter_append, filter_cons_of_neg (by simpa using hle), filter_nil, append_nil]

section Create

variable (b' : BlockId) (op : Op) (ty : TypeId) (args : List ValueId) (payload : Payload)

def create (t : Outline) : Outline :=
  { t with func := (t.func.newValue b' op ty args payload).2 }

theorem agrees_create (hspans : t.func.Spans) (hv : v < t.func.values.size) :
    t.func.Agrees (t.create b' op ty args payload).func v :=
  agrees_newValue hspans b' op ty args payload hv

theorem size_create (t : Outline) : (t.create b' op ty args payload).func.values.size = t.func.values.size + 1 :=
  t.func.values_size_newValue b' op ty args payload

theorem loc_create (v : ValueId) : ((t.create b' op ty args payload).func.value v).loc = (t.func.value v).loc := by
  rcases lt_trichotomy v t.func.values.size with hlt | heq | hgt
  · exact congrArg Value.loc (t.func.value_newValue_old b' op ty args payload hlt)
  · have heq' := heq
    subst heq'
    refine (congrArg Value.loc (t.func.value_newValue_new b' op ty args payload)).trans ?_
    rw [value_eq_default _ le_rfl]
    rfl
  · rw [value_eq_default _ hgt.le, value_eq_default]
    rw [size_create]
    exact hgt

theorem Consistent.create (hf : f.SsaForm) (ht : Consistent c allowed f vis P t) :
    Consistent c allowed f vis P (t.create b' op ty args payload) := by
  refine ht.grow ?_ ?_ fun v h hh hne => absurd hh hne
  · exact
      { blocks := rfl
        entry := rfl
        current := rfl
        out := rfl
        endStates := rfl
        spans := ht.spans.newValue b' op ty args payload
        size_le := (size_create b' op ty args payload t).symm ▸ Nat.le_succ _
        kin := fun v hv => (agrees_create b' op ty args payload ht.spans hv).toKin
        loc := fun v l hl => by rw [loc_create, hl]
        loc_fixed := fun _ _ v _ => loc_create b' op ty args payload v
        args_fixed := fun b hb v hv _ => (agrees_create b' op ty args payload ht.spans (ht.lt hb hv)).args
        args_ret := fun b hb hcur hk v hv => (agrees_create b' op ty args payload ht.spans
          ((hf.ret_control hk hv).1.trans_le ht.size_le)).args
        home := fun _ _ => id
        locals := rfl }
  · refine ht.tidy.mono le_rfl fun v l hl => ?_
    rw [loc_create] at hl
    have hlt := lt_of_loc (by rw [hl]; exact Option.some_ne_none l)
    exact ⟨hl, (agrees_create b' op ty args payload ht.spans hlt).toKin⟩

theorem onward_create (ht : Consistent c allowed f vis P t) : t.Onward (t.create b' op ty args payload) f where
  size_le := (size_create b' op ty args payload t).symm ▸ Nat.le_succ _
  agrees _ hv := agrees_create b' op ty args payload ht.spans hv
  home _ _ := id
  current := rfl
  endStates := rfl
  members _ _ := id
  added _ _ := .inl
  originals _ := rfl

end Create

def setLoc (t : Outline) (v : ValueId) (l : ValueLoc) (limit : Nat) : Outline :=
  { t with func := t.func.setLoc v (some l), spillSize := limit }

theorem Consistent.setLoc {limit : Nat} (ht : Consistent c allowed f vis P t)
    (hnone : (t.func.value v).loc = none) (hun : ∀ b ∈ vis, v ∉ t.valuesOf b)
    (htidy : Tidy c allowed (t.func.setLoc v (some l)) limit) :
    Consistent c allowed f vis P (t.setLoc v l limit) := by
  have hother : ∀ w, w ≠ v → (t.setLoc v l limit).func.value w = t.func.value w :=
    fun w hw => value_setLoc_other (Ne.symm hw) _
  refine ht.grow ?_ htidy fun v h hh hne => absurd hh hne
  exact
    { blocks := rfl
      entry := rfl
      current := rfl
      out := rfl
      endStates := rfl
      spans := ht.spans.setLoc v (some l)
      size_le := (t.func.values_size_setLoc v (some l)).symm ▸ le_rfl
      kin := fun w _ => t.func.kin_setLoc v w (some l)
      loc := fun w k hk => by
        rw [hother w, hk]
        rintro rfl
        rw [hnone] at hk
        cases hk
      loc_fixed := fun b hb w hw => by
        rw [hother w]
        rintro rfl
        exact hun b hb hw
      args_fixed := fun _ _ w _ _ => t.func.args_setLoc v w (some l)
      args_ret := fun _ _ _ _ w _ => t.func.args_setLoc v w (some l)
      home := fun _ _ => id
      locals := rfl }

theorem extends_setLoc (limit : Nat) (hnone : (t.func.value v).loc = none) :
    (t.draft f).Extends ((t.setLoc v l limit).draft f) fun _ => False := by
  refine ⟨rfl, nofun, fun w k hk => ?_, fun _ _ => id⟩
  change (t.func.value w).loc = some k at hk
  have hother : v ≠ w := by
    rintro rfl
    rw [hnone] at hk
    cases hk
  exact (congrArg Value.loc (value_setLoc_other hother (some l))).trans hk

theorem Onward.setLoc {limit : Nat} (h : t.Onward t' f) (hv : t.func.values.size ≤ v) :
    t.Onward (t'.setLoc v l limit) f where
  size_le := h.size_le.trans ((t'.func.values_size_setLoc v (some l)).symm ▸ le_rfl)
  agrees w hw := by
    have hne := (hw.trans_le hv).ne'
    refine (h.agrees w hw).trans ⟨t'.func.kin_setLoc v w _, ?_, t'.func.args_setLoc v w _⟩
    exact congrArg Value.loc (value_setLoc_other hne _)
  home := h.home
  current := h.current
  endStates := h.endStates
  members := h.members
  added := h.added
  originals := h.originals

def setHome (t : Outline) (v h : ValueId) : Outline := { t with homes := (v, h) :: t.homes }

theorem lookup_setHome (hnone : t.homes.lookup v = none) (hk : t.homes.lookup u = some w) :
    (t.setHome v h).homes.lookup u = some w := by
  change ((v, h) :: t.homes).lookup u = some w
  rw [lookup_cons]
  split
  · rename_i heq
    rw [beq_iff_eq.mp heq, hnone] at hk
    cases hk
  · exact hk

theorem Consistent.setHome (ht : Consistent c allowed f vis P t) (hlt : v < f.values.size)
    (hnone : t.homes.lookup v = none) (hl : (t.func.value v).loc = some l) (hreg : l.isReg = false) :
    Consistent c allowed f vis P (t.setHome v v) := by
  refine ht.grow ?_ ht.tidy ?_
  · exact
      { blocks := rfl
        entry := rfl
        current := rfl
        out := rfl
        endStates := rfl
        spans := ht.spans
        size_le := le_rfl
        kin := fun v _ => .refl _ v
        loc := fun _ _ => id
        loc_fixed := fun _ _ _ _ => rfl
        args_fixed := fun _ _ _ _ _ => rfl
        args_ret := fun _ _ _ _ _ _ => rfl
        home := fun _ _ => lookup_setHome hnone
        locals := rfl }
  · intro u h hh hne
    change ((v, v) :: t.homes).lookup u = some h at hh
    rw [lookup_cons] at hh
    split at hh
    · rename_i heq
      obtain rfl : u = v := beq_iff_eq.mp heq
      obtain rfl := Option.some.inj hh
      exact ⟨hlt, .inl ⟨rfl, l, hl, hreg⟩⟩
    · exact absurd hh hne

theorem onward_setHome (hnone : t.homes.lookup v = none) : t.Onward (t.setHome v h) f where
  size_le := le_rfl
  agrees v _ := .refl _ v
  home _ _ := lookup_setHome hnone
  current := rfl
  endStates := rfl
  members _ _ := id
  added _ _ := .inl
  originals _ := rfl

def withOperands (t : Outline) (pool : OperandPool) : Outline :=
  { t with func := { t.func with operands := pool } }

theorem Consistent.withOperands {pool : OperandPool} (ht : Consistent c allowed f vis P t)
    (hspans : (t.withOperands pool).func.Spans)
    (hsame : ∀ w, w ≠ v → (t.withOperands pool).func.args w = t.func.args w)
    (hun : ∀ b ∈ vis, v ∈ t.valuesOf b → (t.func.value v).op.isLeading)
    (hret : ∀ b ∈ vis, t.current ≠ some b → (f.block b).kind = .ret → (f.block b).control ≠ some v) :
    Consistent c allowed f vis P (t.withOperands pool) := by
  refine ht.grow ?_ ?_ fun v h hh hne => absurd hh hne
  · exact
      { blocks := rfl
        entry := rfl
        current := rfl
        out := rfl
        endStates := rfl
        spans := hspans
        size_le := le_rfl
        kin := fun _ _ => ⟨rfl, rfl, rfl, rfl⟩
        loc := fun _ _ => id
        loc_fixed := fun _ _ _ _ => rfl
        args_fixed := fun b hb w hw hop => hsame w fun heq => by
          rw [heq] at hw hop
          rw [hun b hb hw] at hop
          cases hop
        args_ret := fun b hb hcur hkind w hw => hsame w fun heq => hret b hb hcur hkind (heq ▸ hw)
        home := fun _ _ => id
        locals := rfl }
  · exact ht.tidy.mono le_rfl fun v l hl => ⟨hl, rfl, rfl, rfl, rfl⟩

theorem Untouched.withOperands {pool : OperandPool} (ht : t.Untouched f vis (some v))
    (hsame : ∀ w, w ≠ v → (t.withOperands pool).func.args w = t.func.args w) :
    (t.withOperands pool).Untouched f vis (some v) where
  loc := ht.loc
  args w hw hbusy hret hcase :=
    (hsame w fun heq => hbusy (congrArg some heq)).trans (ht.args w hw hbusy hret hcase)
  rets b w hb hk hw hbusy := (hsame w fun heq => hbusy (congrArg some heq)).trans (ht.rets b w hb hk hw hbusy)

theorem Untouched.start {busy : Option ValueId} (ht : t.Untouched f vis none) : t.Untouched f vis busy where
  loc := ht.loc
  args w hw _ hret hcase := ht.args w hw nofun hret hcase
  rets b w hb hk hw _ := ht.rets b w hb hk hw nofun

end SsaCodegen.Outline
