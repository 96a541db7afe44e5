import SsaCodegen.Proofs.Construction.Invariant

/-! The single steps of reading a variable. -/

namespace SsaCodegen.Construction

open List Func Option

variable {ir : Ir.Func} {W F : List ValueId} {s : Construction} {y : Var} {c : BlockId}
  {p : ValueId}

theorem def?_record {x : Var} {b : BlockId} {v : ValueId} (hb : b < s.defs.size) :
    (s.record x b v).def? y c = if c = b ∧ y = x then some v else s.def? y c := by
  rw [def?, record, getD_modify]
  by_cases hc : b = c
  · subst hc
    rw [if_pos ⟨rfl, hb⟩, lookup_cons, def?]
    by_cases hy : y = x
    · simp [hy]
    · simp [hy, beq_false_of_ne hy]
  · rw [if_neg fun h => hc h.1, if_neg fun h => hc h.1.symm, def?]

section

variable {x : Var} {b : BlockId} {v : ValueId} (hs : s.Sound ir W F) (hb : b < s.func.blocks.size)

include hs hb

theorem asks_record (hsame : ∀ w, s.def? x b = some w → s.resolve w = s.resolve v) : Asks s (s.record x b v) := by
  have hb' : b < s.defs.size := by rw [hs.defs_size]; exact hb
  have hends : ∀ y c w, s.EndsWith y c w → (s.record x b v).EndsWith y c w := by
    rintro y c w ⟨u, hu, huw⟩
    by_cases h : c = b ∧ y = x
    · obtain ⟨rfl, rfl⟩ := h
      exact ⟨v, by rw [def?_record hb', if_pos ⟨rfl, rfl⟩], (hsame u hu).symm.trans huw⟩
    · exact ⟨u, by rw [def?_record hb', if_neg h]; exact hu, huw⟩
  exact .of_func (.of_func hs rfl rfl rfl (fun _ _ h => h) fun y c w _ => hends y c w) rfl hends
    ⟨rfl, rfl, rfl, rfl, rfl⟩

/-- A value may be recorded where the variable is assigned or has it from the start. -/
theorem sound_recorded (hv : s.Fits ir x v) {as : List (Var × BlockId)}
    (hext : Extends s { s.record x b v with assignments := as })
    (hstart : b ∈ sites { s with assignments := as } x ∨ s.StartsWith x b v)
    (hsites : ∀ y c, c ∈ s.sites y → c ∈ sites { s with assignments := as } y)
    (hnew : ∀ y c, c ∈ sites { s with assignments := as } y → c ∈ s.sites y ∨ c = b ∧ y = x) :
    Sound ir W F { s.record x b v with assignments := as } := by
  have hdef : ∀ y c, def? { s.record x b v with assignments := as } y c =
      if c = b ∧ y = x then some v else s.def? y c := fun y c =>
    def?_record (by rw [hs.defs_size]; exact hb)
  have hstep : Step ir W F [] s { s.record x b v with assignments := as } :=
    { toExtends := hext
      shape := hs.shape
      settled := hs.settled
      replaces := fun _ _ h => .inl h
      replaced_args := fun _ _ _ => rfl
      defs_size := Array.size_modify ..
      defines := fun y c w hw => by
        rw [hdef] at hw
        split at hw
        · next h =>
          obtain rfl := some.inj hw
          obtain ⟨rfl, rfl⟩ := h
          exact .inr ⟨hv, hstart.imp id hext.startsWith⟩
        · exact .inl hw
      sites := hsites
      assigned := fun y c hc => by
        rw [hdef]
        by_cases h : c = b ∧ y = x
        · exact ⟨v, if_pos h⟩
        · rw [if_neg h]
          exact hs.assigned y c ((hnew y c hc).resolve_right h)
      makes := fun _ hle hlt => absurd hlt (not_lt.mpr hle)
      waits := forall_mem_nil _
      free := fun _ _ h => h
      users := fun w q h => ⟨(hs.users w q h).1, .inl ⟨w, h⟩⟩ }
  exact hs.step hstep

theorem sound_record (hv : s.Fits ir x v) (hstart : b ∈ s.sites x ∨ s.StartsWith x b v)
    (hsame : ∀ w, s.def? x b = some w → s.resolve w = s.resolve v) :
    (s.record x b v).Sound ir W F :=
  sound_recorded hs hb hv (asks_record hs hb hsame).toExtends hstart (fun _ _ h => h) fun _ _ h => .inl h

end

theorem frozen_record (n : Nat) (x : Var) (b : BlockId) (v : ValueId) : Frozen n s (s.record x b v) :=
  ⟨fun _ _ => rfl, fun _ _ h _ => h⟩

theorem newPhi_eq (x : Var) (b : BlockId) : s.newPhi ir x b = (s.func.values.size,
      { s with
        func := s.func.insertPhi b (x.type ir)
        phiVars := (s.func.values.size, x) :: s.phiVars
        phisCreated := s.phisCreated + 1 }) := rfl

section NewPhi

variable {x : Var} {b : BlockId}

theorem lookup_newPhi_old (hp : p < s.func.values.size) :
    (s.newPhi ir x b).2.phiVars.lookup p = s.phiVars.lookup p := by
  have hbeq := beq_false_of_ne hp.ne
  simp only [newPhi_eq, lookup_cons, hbeq]

theorem isPhi_newPhi : (s.newPhi ir x b).2.IsPhi s.func.values.size x b := by
  obtain ⟨hop, -, hblk⟩ := value_insertPhi_new s.func b (x.type ir)
  refine ⟨?_, hop, hblk, ?_⟩
  · exact (Nat.lt_succ_self _).trans_eq (values_size_insertPhi ..).symm
  · simp [newPhi_eq]

variable (hs : s.Sound ir W F) (hb : b < s.func.blocks.size) (hj : 2 ≤ (s.func.block b).preds.length)

include hs

theorem frozen_newPhi : Frozen s.func.values.size s (s.newPhi ir x b).2 :=
  ⟨fun _ hv => hs.shape.args_insertPhi_old (x.type ir) hv, fun _ _ h _ => h⟩

include hb hj

theorem asks_newPhi : Asks s (s.newPhi ir x b).2 := by
  have hgraph := sameGraph_insertPhi s.func b (x.type ir)
  have hext : Extends s (s.newPhi ir x b).2 :=
    { graph := hgraph
      size_le := isPhi_newPhi.lt.le
      value := fun _ hv => value_insertPhi_old s.func b (x.type ir) hv
      args := fun _ hv _ => hs.shape.args_insertPhi_old (x.type ir) hv
      known := fun p y c hp hk k q hq => by
        rw [newPhi_eq, hgraph.preds] at hq
        obtain ⟨hf, a, ha, he⟩ := hk k q hq
        refine ⟨hf, a, ?_, he⟩
        rw [newPhi_eq, hs.shape.args_insertPhi_old (x.type ir) hp.lt]
        exact ha
      resolve := hs.resolve_resolve
      ends := fun _ _ _ _ he => he
      phiVar := fun _ _ hp h => (lookup_newPhi_old hp).trans h
      filled := fun _ h => h
      params := rfl
      locals_le := le_rfl }
  exact
    { toExtends := hext
      new_phi := fun v hle hlt => by
        have hlt' := hlt.trans_eq (values_size_insertPhi ..)
        rw [(Nat.le_of_lt_succ hlt').antisymm hle]
        exact ⟨isPhi_newPhi.op, congrArg Value.loc (value_newValue_new s.func b .phi (x.type ir) _ .none)⟩
      ends_all := fun _ _ _ he => he
      body_all := fun c => hs.shape.body_insertPhi (x.type ir) hb hj c
      control_all := fun c => control_insertPhi s.func b (x.type ir) c
      filled_eq := rfl
      sealed := fun _ h => h
      assignments_eq := rfl
      consts_eq := rfl
      nodeValues_eq := rfl }

theorem sound_newPhi : (s.newPhi ir x b).2.Sound ir (s.func.values.size :: W) F := by
  have hask : Asks s (s.newPhi ir x b).2 := asks_newPhi hs hb hj
  have hstep : Step ir W F [s.func.values.size] s (s.newPhi ir x b).2 :=
    { toExtends := hask.toExtends
      shape := hs.shape.insertPhi (x.type ir) hb hj
      settled := hs.settled
      replaces := fun _ _ h => .inl h
      replaced_args := fun _ hp _ => hs.shape.args_insertPhi_old (x.type ir) hp
      defines := fun _ _ _ h => .inl h
      sites := fun _ _ h => h
      assigned := hs.assigned
      makes := fun p hle hlt _ => by
        have hlt' := hlt.trans_eq (values_size_insertPhi ..)
        obtain rfl := (Nat.le_of_lt_succ hlt').antisymm hle
        exact ⟨mem_cons_self, x, isPhi_newPhi.var, (value_insertPhi_new s.func b (x.type ir)).2.1⟩
      waits := fun q hq => by
        rw [mem_singleton.mp hq]
        refine ⟨isPhi_newPhi.lt, ?_, fun v hv => lt_irrefl _ (hs.users v _ hv).2.1⟩
        cases hl : s.forward.lookup s.func.values.size with
        | none => exact congrArg isSome hl
        | some v => exact absurd (hs.replaced _ v hl).1 (lt_irrefl _)
      free := fun _ _ h => h
      users := fun v q h =>
        ⟨(hs.users v q h).1.trans_le hask.size_le, .inl ⟨v, h⟩⟩ }
  exact hs.step hstep

end NewPhi

theorem Sound.postpone (hs : s.Sound ir (p :: W) F) {x : Var} {b : BlockId} (hp : s.IsPhi p x b)
    (hb : b ∉ s.sealedBlocks) (hnew : p ∉ s.incomplete.map (·.2.2)) :
    { s with incomplete := s.incomplete ++ [(b, x, p)] }.Sound ir W F :=
  { hs with
    known := fun q y c hq => by
      rcases hs.known q y c ⟨hq.lt, hq.op, hq.block, hq.var⟩ with h | h | h | h
      · rcases mem_cons.mp h with rfl | h
        · obtain rfl : y = x := some.inj (hq.var.symm.trans hp.var)
          obtain rfl : c = b := hq.block.symm.trans hp.block
          exact .inr (.inr (.inl (mem_append_right _ mem_cons_self)))
        · exact .inl h
      · exact .inr (.inl h)
      · exact .inr (.inr (.inl (mem_append_left _ h)))
      · exact .inr (.inr (.inr h))
    incomplete := fun c y q h => by
      rcases mem_append.mp h with h | h
      · exact hs.incomplete c y q h
      · obtain ⟨rfl, rfl, rfl⟩ : c = b ∧ y = x ∧ q = p := by simpa using h
        exact ⟨hb, hp, (hs.waiting q mem_cons_self).2⟩
    incomplete_nodup := by
      rw [List.map_append]
      refine nodup_append.mpr ⟨hs.incomplete_nodup, pairwise_singleton _ _, ?_⟩
      rintro q hq r hr rfl
      rw [mem_singleton.mp hr] at hq
      exact hnew hq
    waiting := fun q hq => hs.waiting q (mem_cons_of_mem p hq) }

theorem Sound.openFrame (hs : s.Sound ir (p :: W) F) : s.Sound ir W (p :: F) :=
  { hs with
    known := fun q y c hq => by
      rcases hs.known q y c hq with h | h | h
      · rcases mem_cons.mp h with rfl | h
        · exact .inr (.inl mem_cons_self)
        · exact .inl h
      · exact .inr (.inl (mem_cons_of_mem p h))
      · exact .inr (.inr h)
    waiting := fun q hq => hs.waiting q (mem_cons_of_mem p hq)
    frames := fun q hq => by
      rcases mem_cons.mp hq with rfl | hq
      · obtain ⟨h1, h2, -⟩ := hs.waiting q mem_cons_self
        exact ⟨h1, h2⟩
      · exact hs.frames q hq
    users := fun v q h => by
      obtain ⟨h1, h2, h3⟩ := hs.users v q h
      exact ⟨h1, h2, h3.imp (mem_cons_of_mem p) id⟩ }

theorem Sound.closeFrame (hs : s.Sound ir W (p :: F)) {x : Var} {b : BlockId} (hp : s.IsPhi p x b)
    (hk : s.Known p x b) : s.Sound ir W F :=
  { hs with
    known := fun q y c hq => by
      rcases hs.known q y c hq with h | h | h
      · exact .inl h
      · rcases mem_cons.mp h with rfl | h
        · obtain rfl : y = x := some.inj (hq.var.symm.trans hp.var)
          obtain rfl : c = b := hq.block.symm.trans hp.block
          exact .inr (.inr (.inr hk))
        · exact .inr (.inl h)
      · exact .inr (.inr h)
    frames := fun q hq => hs.frames q (mem_cons_of_mem p hq)
    users := fun v q h => by
      obtain ⟨h1, h2, h3⟩ := hs.users v q h
      refine ⟨h1, h2, ?_⟩
      rcases h3 with h3 | h3
      · rcases mem_cons.mp h3 with rfl | h3
        · exact .inr ⟨x, b, hp, hk⟩
        · exact .inl h3
      · exact .inr h3 }

section AddOperand

variable {n v : ValueId} {x : Var} {b q : BlockId} {i : Nat}

theorem addOperand_lt (hs : s.Sound ir W F) (hn : s.IsPhi n x b)
    (hq : (s.func.block b).preds[i]? = some q) : i < (s.func.args n).length := by
  obtain ⟨-, -, hlen, -⟩ := hs.shape.phi n hn.lt hn.op
  rw [hlen, hn.block]
  exact (List.getElem?_eq_some_iff.mp hq).1

variable (hs : s.Sound ir W F) (hn : s.IsPhi n x b) (hq : (s.func.block b).preds[i]? = some q)

include hs hn hq

theorem args_addOperand_other {w : ValueId} (hw : w ≠ n) : (s.addOperand n i v).func.args w = s.func.args w :=
  hs.shape.spans.args_setArg_other hn.lt (addOperand_lt hs hn hq) v hw

theorem args_addOperand_self : (s.addOperand n i v).func.args n = (s.func.args n).set i v :=
  hs.shape.spans.args_setArg_self hn.lt (addOperand_lt hs hn hq) v

theorem knownUpTo_addOperand (hf : q ∈ s.filled) (he : s.EndsWith x q v)
    (hk : s.KnownUpTo i n x b) : (s.addOperand n i v).KnownUpTo (i + 1) n x b := by
  intro k r hki hr
  rw [args_addOperand_self hs hn hq, getElem?_set]
  by_cases hik : i = k
  · subst hik
    obtain rfl : q = r := some.inj (hq.symm.trans hr)
    refine ⟨hf, v, ?_, he⟩
    rw [if_pos rfl, if_pos (addOperand_lt hs hn hq)]
  · obtain ⟨hf', a, ha, he'⟩ := hk k r (by omega) hr
    exact ⟨hf', a, by rw [if_neg hik]; exact ha, he'⟩

theorem known_addOperand (hf : q ∈ s.filled) (he : s.EndsWith x q v) (hp : s.IsPhi p y c) (hk : s.Known p y c) :
    (s.addOperand n i v).Known p y c := by
  intro k r hr
  obtain ⟨hf', a, ha, he'⟩ := hk k r hr
  by_cases hpn : p = n
  · subst hpn
    obtain rfl : y = x := some.inj (hp.var.symm.trans hn.var)
    obtain rfl : c = b := hp.block.symm.trans hn.block
    rw [args_addOperand_self hs hn hq, getElem?_set]
    by_cases hik : i = k
    · subst hik
      obtain rfl : q = r := some.inj (hq.symm.trans hr)
      exact ⟨hf, v, by rw [if_pos rfl, if_pos (addOperand_lt hs hn hq)], he⟩
    · exact ⟨hf', a, by rw [if_neg hik]; exact ha, he'⟩
  · exact ⟨hf', a, by rw [args_addOperand_other hs hn hq hpn]; exact ha, he'⟩

theorem frozen_addOperand : Frozen n s (s.addOperand n i v) where
  args w hw := args_addOperand_other hs hn hq hw.ne
  users w r h hr := by
    simp only [addOperand] at h
    split at h
    · exact h
    · rcases mem_append.mp h with h | h
      · exact h
      · obtain ⟨-, rfl⟩ : w = v ∧ r = n := by simpa using h
        exact absurd hr (lt_irrefl _)

variable (hf : q ∈ s.filled) (he : s.EndsWith x q v)

include hf he

theorem asks_addOperand : Asks s (s.addOperand n i v) := by
  have hext : Extends s (s.addOperand n i v) :=
    { graph := ⟨rfl, rfl, fun _ => rfl, fun _ => rfl, fun _ => rfl⟩
      size_le := le_rfl
      value := fun _ _ => rfl
      args := fun w _ hop => args_addOperand_other hs hn hq (by rintro rfl; exact hop hn.op)
      known := fun p y c hp hk => known_addOperand hs hn hq hf he hp hk
      resolve := hs.resolve_resolve
      ends := fun _ _ _ _ h => h
      phiVar := fun _ _ _ h => h
      filled := fun _ h => h
      params := rfl
      locals_le := le_rfl }
  exact
    { toExtends := hext
      new_phi := fun _ hle hlt => absurd hlt (not_lt.mpr hle)
      ends_all := fun _ _ _ h => h
      body_all := fun _ => rfl
      control_all := fun _ => rfl
      filled_eq := rfl
      sealed := fun _ h => h
      assignments_eq := rfl
      consts_eq := rfl
      nodeValues_eq := rfl }

/-- Operands are found only for the phis that are no longer waiting. -/
theorem sound_addOperand (hv : v < s.func.values.size) (hnF : n ∈ F) (hnW : n ∉ W)
    (hb : b ∈ s.sealedBlocks) : (s.addOperand n i v).Sound ir W F := by
  have hI : n ∉ s.incomplete.map (·.2.2) := by
    intro h
    obtain ⟨⟨c, y, p⟩, hp, rfl⟩ := mem_map.mp h
    obtain ⟨hopen, hip, -⟩ := hs.incomplete c y p hp
    rw [← hip.block, hn.block] at hopen
    exact hopen hb
  have hstep : Step ir W F [] s (s.addOperand n i v) :=
    { toExtends := (asks_addOperand hs hn hq hf he).toExtends
      shape := hs.shape.setArg hn.lt (addOperand_lt hs hn hq) hv
      settled := hs.settled
      replaces := fun _ _ h => .inl h
      replaced_args := fun p _ hp => args_addOperand_other hs hn hq (by
        rintro rfl
        exact Bool.false_ne_true ((hs.frames p hnF).2.symm.trans hp))
      defines := fun _ _ _ h => .inl h
      sites := fun _ _ h => h
      assigned := hs.assigned
      makes := fun _ hle hlt => absurd hlt (not_lt.mpr hle)
      waits := forall_mem_nil _
      free := fun _ _ h => h
      users := fun w r h => by
        simp only [addOperand] at h
        split at h
        · exact ⟨(hs.users w r h).1, .inl ⟨w, h⟩⟩
        · rcases mem_append.mp h with h | h
          · exact ⟨(hs.users w r h).1, .inl ⟨w, h⟩⟩
          · obtain ⟨rfl, rfl⟩ : w = v ∧ r = n := by simpa using h
            exact ⟨hv, .inr ⟨hnF, hnW, hI⟩⟩ }
  exact hs.step hstep

end AddOperand

end SsaCodegen.Construction
