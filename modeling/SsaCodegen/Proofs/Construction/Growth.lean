import SsaCodegen.Proofs.Construction.Steps

/-! Growth of the function. Lowering adds values and sets controls; all that was there stays as it is. -/

namespace SsaCodegen

open List

namespace Func

variable {c : BlockId}

/-- `g` has the graph and the values of `f`, and no other phis. -/
structure Grows (f g : Func) : Prop where
  graph : f.SameGraph g
  size_le : f.values.size ≤ g.values.size
  value : ∀ v, v < f.values.size → g.value v = f.value v
  args : ∀ v, v < f.values.size → g.args v = f.args v
  new_op : ∀ v, f.values.size ≤ v → v < g.values.size → (g.value v).op ≠ .phi
  params : g.params = f.params
  locals_le : f.locals.size ≤ g.locals.size

section NewValue

variable {f : Func} (h : f.Shape) (b : BlockId) {op : Op} (ty : TypeId) {args : List ValueId}
  (payload : Payload) (hop : op ≠ .phi)

include h hop

theorem Shape.grows_newValue : f.Grows (f.newValue b op ty args payload).2 := by
  refine ⟨⟨rfl, rfl, fun _ => rfl, fun _ => rfl, fun _ => rfl⟩, ?_,
    fun v hv => value_newValue_old f b op ty args payload hv,
    fun v hv => h.spans.args_newValue_old b op ty args payload hv, fun v hle hlt => ?_, rfl, le_rfl⟩
  · rw [values_size_newValue]
    exact Nat.le_succ _
  · rw [values_size_newValue] at hlt
    rw [(Nat.le_of_lt_succ hlt).antisymm hle, value_newValue_new]
    exact hop

variable (hargs : ∀ a ∈ args, a < f.values.size)

include hargs

omit h hop in
theorem args_lt_newValue (v : ValueId) (hle : f.values.size ≤ v)
    (hlt : v < (f.newValue b op ty args payload).2.values.size) (a : ValueId)
    (ha : a ∈ (f.newValue b op ty args payload).2.args v) : a < (f.newValue b op ty args payload).2.values.size := by
  rw [values_size_newValue] at hlt ⊢
  rw [(Nat.le_of_lt_succ hlt).antisymm hle, args_newValue_new] at ha
  exact Nat.lt_succ_of_lt (hargs a ha)

theorem Shape.newValue : (f.newValue b op ty args payload).2.Shape := by
  have hg : f.Grows (f.newValue b op ty args payload).2 := h.grows_newValue b ty payload hop
  have hnone : (f.block f.blocks.size).values = [] := by
    rw [f.block_eq_default le_rfl]
    rfl
  exact h.grow hg.graph (h.spans.newValue b op ty args payload) hg.size_le
    (fun v hv => ⟨hg.value v hv, hg.args v hv⟩) (args_lt_newValue b ty payload hargs) (fun _ _ => rfl) .rfl
    nodup_nil (forall_mem_nil _)
    ⟨[], [], hnone, forall_mem_nil _, forall_mem_nil _⟩
    fun p hle hlt hphi => absurd hphi (hg.new_op p hle hlt)

end NewValue

theorem body_newValue {f : Func} (h : f.Shape) (b : BlockId) (op : Op) (ty : TypeId)
    (args : List ValueId) (payload : Payload) (c : BlockId) :
    (f.newValue b op ty args payload).2.body c = f.body c :=
  filter_congr fun v hv => by
    rw [value_newValue_old f b op ty args payload (h.placed c v hv).1]

section AppendValue

variable {f : Func} (h : f.Shape) {b : BlockId} {op : Op} (ty : TypeId) {args : List ValueId}
  (payload : Payload) (hop : op ≠ .phi)

theorem values_appendValue (f : Func) (op : Op) (ty : TypeId) (args : List ValueId) (payload : Payload)
    (hb : b < f.blocks.size) :
    ((f.appendValue b op ty args payload).2.block b).values = (f.block b).values ++ [f.values.size] := by
  have hblock : (f.appendValue b op ty args payload).2.block b =
      { f.block b with values := (f.block b).values ++ [f.values.size] } :=
    block_modifyBlock_self _ _ hb
  rw [hblock]

theorem block_appendValue_other (f : Func) (op : Op) (ty : TypeId) (args : List ValueId) (payload : Payload)
    (hc : b ≠ c) :
    (f.appendValue b op ty args payload).2.block c = f.block c :=
  block_modifyBlock_other _ _ hc

theorem control_appendValue (f : Func) (b c : BlockId) (op : Op) (ty : TypeId)
    (args : List ValueId) (payload : Payload) :
    ((f.appendValue b op ty args payload).2.block c).control = (f.block c).control := by
  simp only [appendValue, block_modifyBlock]
  split
  · rfl
  · rfl

include h hop

theorem Shape.grows_appendValue : f.Grows (f.appendValue b op ty args payload).2 := by
  have hg : f.Grows (f.newValue b op ty args payload).2 := h.grows_newValue b ty payload hop
  exact
    { graph := hg.graph.trans (SameGraph.modifyBlock _ b _ (fun _ => rfl) (fun _ => rfl) fun _ => rfl)
      size_le := hg.size_le
      value := hg.value
      args := hg.args
      new_op := hg.new_op
      params := hg.params
      locals_le := hg.locals_le }

variable (hb : b < f.blocks.size)

include hb

theorem Shape.body_appendValue : (f.appendValue b op ty args payload).2.body b = f.body b ++ [f.values.size] := by
  have hnew := congrArg Value.op (value_appendValue_new f b op ty args payload)
  rw [body, values_appendValue f op ty args payload hb, filter_append,
    filter_cons_of_pos (by rw [hnew]; exact bne_iff_ne.mpr hop)]
  refine congrArg (· ++ [f.values.size]) (filter_congr fun v hv => ?_)
  rw [(h.grows_appendValue ty payload hop).value v (h.placed b v hv).1]

omit hb in
theorem Shape.body_appendValue_other (hc : b ≠ c) : (f.appendValue b op ty args payload).2.body c = f.body c := by
  rw [body, block_appendValue_other f op ty args payload hc]
  exact filter_congr fun v hv => by
    rw [(h.grows_appendValue ty payload hop).value v (h.placed c v hv).1]

theorem Shape.appendValue (hargs : ∀ a ∈ args, a < f.values.size)
    (hlead : op.isLeading → b = f.entry) : (f.appendValue b op ty args payload).2.Shape := by
  have hg : f.Grows (f.appendValue b op ty args payload).2 := h.grows_appendValue ty payload hop
  have hsize : (f.appendValue b op ty args payload).2.values.size = _ := values_size_newValue f b op ty args payload
  have hnew := value_appendValue_new f b op ty args payload
  have hvals := values_appendValue f op ty args payload hb
  obtain ⟨ps, rest, hsplit, hps, hrest⟩ := h.phis_first b
  have hold : ∀ v ∈ ps ++ rest, (f.appendValue b op ty args payload).2.value v = f.value v := fun v hv =>
    hg.value v (h.placed b v (hsplit ▸ hv)).1
  refine h.grow hg.graph ((h.spans.newValue b op ty args payload).modifyBlock b _) hg.size_le
    (fun v hv => ⟨hg.value v hv, hg.args v hv⟩) (args_lt_newValue b ty payload hargs)
    (fun c hc => congrArg Block.values (block_appendValue_other f op ty args payload hc))
    (by rw [hvals]; exact perm_append_comm) (pairwise_singleton _ _) (fun v hv => ?_)
    ⟨ps, rest ++ [f.values.size], by rw [hvals, hsplit, append_assoc], fun v hv => ?_, fun v hv => ?_⟩
    fun p hle hlt hphi => absurd hphi (hg.new_op p hle hlt)
  · rw [mem_singleton.mp hv, hnew, hsize]
    exact ⟨le_rfl, Nat.lt_succ_self _, rfl⟩
  · rw [hold v (mem_append_left _ hv)]
    exact hps v hv
  · rcases mem_append.mp hv with hv | hv
    · rw [hold v (mem_append_right _ hv)]
      exact hrest v hv
    · rw [mem_singleton.mp hv, hnew]
      exact ⟨hop, hlead⟩

end AppendValue

theorem Shape.setControl {f : Func} (h : f.Shape) (b : BlockId) (c : Option ValueId) :
    (f.modifyBlock b ({ · with control := c })).Shape := by
  have hgraph : f.SameGraph (f.modifyBlock b ({ · with control := c })) :=
    SameGraph.modifyBlock f b _ (fun _ => rfl) (fun _ => rfl) fun _ => rfl
  have hvals : ∀ d, ((f.modifyBlock b ({ · with control := c })).block d).values = (f.block d).values := by
    intro d
    rw [block_modifyBlock]
    split
    · rfl
    · rfl
  refine h.grow (b := b) hgraph (h.spans.modifyBlock b _) le_rfl (fun _ _ => ⟨rfl, rfl⟩)
    (fun v hle hlt => absurd hlt (not_lt.mpr hle)) (fun d _ => hvals d) (by rw [hvals]; exact .rfl) nodup_nil
    (forall_mem_nil _) ?_ fun p hle hlt => absurd hlt (not_lt.mpr hle)
  rw [hvals]
  exact h.phis_first b

end Func

namespace Construction

variable {ir : Ir.Func} {W F : List ValueId} {s : Construction} {y : Var} {c : BlockId}

section Grow

variable (hs : s.Sound ir W F) {g : Func} (hg : s.func.Grows g)

include hs hg

theorem extends_grow : Extends s { s with func := g } :=
  { graph := hg.graph
    size_le := hg.size_le
    value := hg.value
    args := fun v hv _ => hg.args v hv
    known := fun p x b hp hk k q hq => by
      rw [hg.graph.preds] at hq
      obtain ⟨hf, a, ha, he⟩ := hk k q hq
      refine ⟨hf, a, ?_, he⟩
      rw [hg.args p hp.lt]
      exact ha
    resolve := hs.resolve_resolve
    ends := fun _ _ _ _ he => he
    phiVar := fun _ _ _ h => h
    filled := fun _ h => h
    params := hg.params
    locals_le := hg.locals_le }

theorem sound_grow (hext : Extends s { s with func := g }) (hshape : g.Shape) :
    Sound ir W F { s with func := g } := by
  have hstep : Step ir W F [] s { s with func := g } :=
    { toExtends := hext
      shape := hshape
      settled := hs.settled
      replaces := fun _ _ h => .inl h
      replaced_args := fun p hp _ => hg.args p hp
      defines := fun _ _ _ h => .inl h
      sites := fun _ _ h => h
      assigned := hs.assigned
      makes := fun p hle hlt hop => absurd hop (hg.new_op p hle hlt)
      waits := forall_mem_nil _
      free := fun _ _ h => h
      users := fun v q h => ⟨(hs.users v q h).1.trans_le hg.size_le, .inl ⟨v, h⟩⟩ }
  exact hs.step hstep

end Grow

section Assign

variable {x : Var} {b : BlockId} {v : ValueId}

theorem sites_append (x y : Var) (b : BlockId) : sites { s with assignments := s.assignments ++ [(x, b)] } y =
      s.sites y ++ if y = x then [b] else [] := by
  by_cases h : y = x
  · subst h
    simp [sites]
  · simp [sites, h, Ne.symm h]

theorem assign_eq : s.assign x b v = { s with
    defs := s.defs.modify b ((x, v) :: ·)
    assignments := if (s.sites x).getLast? == some b then s.assignments else s.assignments ++ [(x, b)] } := by
  by_cases h : (s.sites x).getLast? == some b
  · rw [if_pos h]
    exact if_pos h
  · rw [if_neg h]
    exact if_neg h

theorem assign_cases : (b ∈ s.sites x ∧ s.assign x b v = s.record x b v) ∨
    s.assign x b v = { s.record x b v with assignments := s.assignments ++ [(x, b)] } := by
  rw [assign]
  by_cases h : ((s.record x b v).sites x).getLast? == some b
  · rw [if_pos h]
    exact .inl ⟨mem_of_getLast? (beq_iff_eq.mp h), rfl⟩
  · rw [if_neg h]
    exact .inr rfl

theorem mem_sites_assign : c ∈ (s.assign x b v).sites y ↔ c ∈ s.sites y ∨ c = b ∧ y = x := by
  rcases assign_cases with ⟨hb, h⟩ | h
  · rw [h]
    refine ⟨.inl, ?_⟩
    rintro (hc | ⟨rfl, rfl⟩)
    · exact hc
    · exact hb
  · rw [h]
    change c ∈ sites { s with assignments := s.assignments ++ [(x, b)] } y ↔ _
    rw [sites_append]
    split
    · next hy => simp [hy]
    · next hy => simp [hy]

theorem func_assign : (s.assign x b v).func = s.func := by rw [assign_eq]

theorem nodeValues_assign : (s.assign x b v).nodeValues = s.nodeValues := by rw [assign_eq]

theorem def?_assign (hb : b < s.defs.size) :
    (s.assign x b v).def? y c = if c = b ∧ y = x then some v else s.def? y c := by
  rw [assign_eq]
  exact def?_record hb

variable (hs : s.Sound ir W F) (hb : b < s.func.blocks.size) (hfill : b ∉ s.filled) (hv : s.Fits ir x v)

include hs hb

theorem endsWith_assign_self : (s.assign x b v).EndsWith x b v :=
  ⟨v, by rw [def?_assign (by rw [hs.defs_size]; exact hb), if_pos ⟨rfl, rfl⟩], rfl⟩

theorem endsWith_record_other {w : ValueId} (hne : ¬(c = b ∧ y = x)) :
    (s.record x b v).EndsWith y c w ↔ s.EndsWith y c w := by
  have hdef : (s.record x b v).def? y c = s.def? y c := by
    rw [def?_record (by rw [hs.defs_size]; exact hb), if_neg hne]
  rw [EndsWith, hdef]
  rfl

include hfill

theorem extends_record : Extends s (s.record x b v) := by
  refine .of_func hs rfl rfl rfl (fun _ _ h => h) fun y c w hc he => ?_
  refine (endsWith_record_other hs hb ?_).mpr he
  rintro ⟨rfl, -⟩
  exact hfill hc

theorem extends_assign : Extends s (s.assign x b v) := by
  rw [assign_eq]
  exact { extends_record hs hb hfill with }

include hv

theorem sound_assign : (s.assign x b v).Sound ir W F := by
  have hext : Extends s (s.assign x b v) := extends_assign hs hb hfill
  rcases assign_cases with ⟨hsite, heq⟩ | heq
  · rw [heq] at hext ⊢
    exact sound_recorded hs hb hv hext (.inl hsite) (fun _ _ h => h) fun _ _ h => .inl h
  · have hsites : ∀ {y c}, c ∈ sites { s with assignments := s.assignments ++ [(x, b)] } y ↔
        c ∈ s.sites y ∨ c = b ∧ y = x := by
      intro y c
      rw [← mem_sites_assign, heq]
      rfl
    rw [heq] at hext ⊢
    exact sound_recorded hs hb hv hext (.inl (hsites.mpr (.inr ⟨rfl, rfl⟩)))
      (fun _ _ h => hsites.mpr (.inl h)) fun _ _ => hsites.mp

end Assign

end Construction

end SsaCodegen
