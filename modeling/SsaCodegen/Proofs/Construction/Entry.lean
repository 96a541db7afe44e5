import SsaCodegen.Proofs.Construction.Progress

/-! The state in which lowering starts. -/

namespace SsaCodegen

open List Func

variable {ty : TypeId} {v : Nat} {i : Input}

namespace Func

variable {f : Func}

def addInput (f : Func) (i : Input) : Func := (f.appendValue f.entry i.op i.ty [] i.payload).2

/-- `g` is `f` with the inputs `is` in its entry and no other values. -/
structure Entered (f : Func) (is : List Input) (g : Func) : Prop where
  graph : f.SameGraph g
  shape : g.Shape
  size : g.values.size = is.length
  input : ∀ (v : Nat) i, is[v]? = some i → (g.value v).op = i.op ∧ (g.value v).ty = i.ty ∧
    (g.value v).payload = i.payload ∧ (g.value v).loc = none
  args : ∀ v, g.args v = []
  body : g.body g.entry = List.range is.length
  other : ∀ b, b ≠ g.entry → g.body b = []
  control : ∀ b, (g.block b).control = none

theorem Flow.entered_nil (hf : f.Flow) (hsize : f.values.size = 0) (hvalues : ∀ b, (f.block b).values = [])
    (hctl : ∀ b, (f.block b).control = none) :
    f.Entered [] f := by
  have hnone : ∀ v, ¬v < f.values.size := fun v hv => by
    rw [hsize] at hv
    exact Nat.not_lt_zero v hv
  have hbody : ∀ b, f.body b = [] := fun b => by rw [body, hvalues, filter_nil]
  exact
    { graph := SameGraph.refl f
      shape :=
        { spans := ⟨fun v hv => absurd hv (hnone v), fun v w _ hw => absurd hw (hnone w)⟩
          args_lt := fun v hv => absurd hv (hnone v)
          entry_lt := hf.entry_lt
          entry_preds := hf.entry_preds
          placed := fun b v hv => absurd hv (by rw [hvalues]; exact not_mem_nil)
          nodup := fun b => by
            rw [hvalues]
            exact nodup_nil
          phis_first := fun b => ⟨[], [], hvalues b, forall_mem_nil _, forall_mem_nil _⟩
          phi := fun p hp => absurd hp (hnone p) }
      size := hsize
      input := fun v i hi => absurd hi (by simp)
      args := fun v => args_eq_nil f (not_lt.mp (hnone v))
      body := hbody f.entry
      other := fun b _ => hbody b
      control := hctl }

theorem Entered.snoc {g : Func} {is : List Input} (h : f.Entered is g) {i : Input} (hop : i.op ≠ .phi) :
    f.Entered (is ++ [i]) (g.addInput i) := by
  have hentry := h.shape.entry_lt
  have hgrows : g.Grows (g.appendValue g.entry i.op i.ty [] i.payload).2 :=
    h.shape.grows_appendValue i.ty i.payload hop
  have hsize : (g.addInput i).values.size = g.values.size + 1 := values_size_newValue ..
  have hnew := value_newValue_new g g.entry i.op i.ty [] i.payload
  have hargs := args_newValue_new (f := g) g.entry i.op i.ty [] i.payload
  refine ⟨h.graph.trans hgrows.graph, ?_, ?_, fun v j hj => ?_, fun v => ?_, ?_, fun b hb => ?_, fun b => ?_⟩
  · exact h.shape.appendValue i.ty i.payload hop hentry (forall_mem_nil _) fun _ => rfl
  · rw [hsize, h.size, length_append, length_singleton]
  · rcases lt_trichotomy v is.length with hv | rfl | hv
    · rw [getElem?_append_left hv] at hj
      rw [addInput, hgrows.value v (by rw [h.size]; exact hv)]
      exact h.input v j hj
    · rw [getElem?_concat_length] at hj
      obtain rfl := Option.some.inj hj
      rw [← h.size]
      exact ⟨congrArg Value.op hnew, congrArg Value.ty hnew, congrArg Value.payload hnew,
        congrArg Value.loc hnew⟩
    · rw [List.getElem?_eq_none_iff.mpr (by rw [length_append]; exact hv)] at hj
      cases hj
  · by_cases hv : v < g.values.size
    · rw [addInput, hgrows.args v hv]
      exact h.args v
    · by_cases heq : v = g.values.size
      · rw [heq]
        exact hargs
      · refine args_eq_nil _ ?_
        rw [hsize]
        exact (not_lt.mp hv).lt_of_ne (Ne.symm heq)
  · have hbody : (g.appendValue g.entry i.op i.ty [] i.payload).2.body g.entry =
        g.body g.entry ++ [g.values.size] := h.shape.body_appendValue i.ty i.payload hop hentry
    rw [h.body, h.size] at hbody
    rw [addInput, hgrows.graph.entry, hbody, length_append, length_singleton, range_succ]
  · have hne : g.entry ≠ b := fun heq => hb (by rw [← heq]; exact hgrows.graph.entry.symm)
    rw [addInput, h.shape.body_appendValue_other i.ty i.payload hop hne]
    exact h.other b hne.symm
  · rw [addInput, control_appendValue]
    exact h.control b

theorem Entered.foldl : ∀ (js is : List Input) (g : Func), f.Entered is g →
    (∀ j ∈ js, j.op ≠ .phi) → f.Entered (is ++ js) (js.foldl addInput g) := by
  intro js
  induction js with
  | nil =>
    intro is g h _
    rw [append_nil]
    exact h
  | cons j js ih =>
    intro is g h hops
    have hnext := ih (is ++ [j]) (g.addInput j) (h.snoc (hops j mem_cons_self))
      fun k hk => hops k (mem_cons_of_mem j hk)
    rw [append_assoc] at hnext
    exact hnext

end Func

theorem values_size_addInput (f : Func) (i : Input) :
    (f.addInput i).values.size = f.values.size + 1 := values_size_newValue ..

theorem values_size_addInputs (is : List Input) :
    ∀ f : Func, (is.foldl addInput f).values.size = f.values.size + is.length := by
  induction is with
  | nil => exact fun f => rfl
  | cons i is ih =>
    intro f
    rw [foldl_cons, ih, values_size_addInput, length_cons]
    omega

theorem foldl_appendValue (mk : TypeId × Nat → Input) (l : List (TypeId × Nat)) :
    ∀ (vs : List ValueId) (f : Func), l.foldl (fun acc x =>
        (acc.1 ++ [(acc.2.appendValue acc.2.entry (mk x).op (mk x).ty [] (mk x).payload).1],
          (acc.2.appendValue acc.2.entry (mk x).op (mk x).ty [] (mk x).payload).2)) (vs, f) =
      (vs ++ List.range' f.values.size l.length, (l.map mk).foldl addInput f) := by
  induction l with
  | nil =>
    simp
  | cons x l ih =>
    intro vs f
    rw [foldl_cons, ih, map_cons, length_cons]
    have hsize : (f.appendValue f.entry (mk x).op (mk x).ty [] (mk x).payload).2.values.size =
        f.values.size + 1 := values_size_addInput f (mk x)
    rw [hsize, append_assoc]
    rfl

namespace Ir.Func

variable (f : Func) (types : TypeTable)

def placeLocal (acc : Array (Option LocalId) × SsaCodegen.Func) (l : Local × Bool) :
    Array (Option LocalId) × SsaCodegen.Func :=
  if l.2 then (acc.1.push (some (acc.2.addLocal l.1.name l.1.ty).1), (acc.2.addLocal l.1.name l.1.ty).2)
  else (acc.1.push none, acc.2)

theorem placeLocals_eq (g : SsaCodegen.Func) : f.placeLocals types g =
    (f.locals.toList.zip (f.memoryLocals types)).foldl placeLocal (#[], g) := rfl

section

variable (ls : List (Local × Bool))

include ls

theorem foldl_placeLocal_func : ∀ acc : Array (Option LocalId) × SsaCodegen.Func, ∃ locals,
      (ls.foldl placeLocal acc).2 = { acc.2 with locals := locals } := by
  induction ls with
  | nil => exact fun acc => ⟨acc.2.locals, rfl⟩
  | cons l ls ih =>
    intro acc
    rw [foldl_cons]
    obtain ⟨locals, hlocals⟩ := ih (placeLocal acc l)
    refine ⟨locals, ?_⟩
    rw [hlocals, placeLocal]
    split
    · rfl
    · rfl

theorem foldl_placeLocal_slots : ∀ acc : Array (Option LocalId) × SsaCodegen.Func,
      (ls.foldl placeLocal acc).1.toList.map Option.isSome = acc.1.toList.map Option.isSome ++ ls.map (·.2) := by
  induction ls with
  | nil => exact fun acc => by simp
  | cons l ls ih =>
    intro acc
    rw [foldl_cons, ih, placeLocal]
    cases hl : l.2 <;> simp [hl]

theorem foldl_placeLocal_lt : ∀ acc : Array (Option LocalId) × SsaCodegen.Func,
      (∀ slot, some slot ∈ acc.1.toList → slot < acc.2.locals.size) →
        ∀ slot, some slot ∈ (ls.foldl placeLocal acc).1.toList → slot < (ls.foldl placeLocal acc).2.locals.size := by
  induction ls with
  | nil => exact fun _ h => h
  | cons l ls ih =>
    intro acc h
    refine ih (placeLocal acc l) fun slot hslot => ?_
    rw [placeLocal] at hslot ⊢
    split at hslot <;> rename_i hl
    · rw [if_pos hl]
      have hsize : (acc.2.addLocal l.1.name l.1.ty).2.locals.size = acc.2.locals.size + 1 :=
        Array.size_push ..
      rw [hsize]
      rw [Array.toList_push, mem_append, mem_singleton, Option.some.injEq] at hslot
      rcases hslot with hslot | hslot
      · exact Nat.lt_succ_of_lt (h slot hslot)
      · rw [hslot]
        exact Nat.lt_succ_self _
    · rw [if_neg hl]
      rw [Array.toList_push, mem_append, mem_singleton] at hslot
      rcases hslot with hslot | hslot
      · exact h slot hslot
      · cases hslot

end

theorem placeLocals_lt (g : SsaCodegen.Func) {l slot : LocalId}
    (h : (f.placeLocals types g).1.getD l none = some slot) :
    slot < (f.placeLocals types g).2.locals.size := by
  refine foldl_placeLocal_lt _ (#[], g) (fun slot hslot => absurd hslot not_mem_nil) slot ?_
  rw [Array.getD_eq_getD_getElem?, ← Array.getElem?_toList] at h
  cases hget : (f.placeLocals types g).1.toList[l]? with
  | none =>
    rw [hget] at h
    cases h
  | some x =>
    rw [hget, Option.getD_some] at h
    rw [h] at hget
    exact mem_of_getElem? hget

theorem placeLocals_func (g : SsaCodegen.Func) : ∃ locals, (f.placeLocals types g).2 = { g with locals := locals } :=
  foldl_placeLocal_func _ (#[], g)

theorem placeLocals_slots (g : SsaCodegen.Func) (l : LocalId) :
    ((f.placeLocals types g).1.getD l none).isSome = (f.memoryLocals types).getD l false := by
  have hslots := foldl_placeLocal_slots (f.locals.toList.zip (f.memoryLocals types)) (#[], g)
  have hlength : (f.memoryLocals types).length = f.locals.toList.length := by
    rw [memoryLocals, length_map, length_zipIdx]
  rw [← placeLocals_eq, map_snd_zip hlength.le] at hslots
  change _ = f.memoryLocals types at hslots
  rw [← hslots, Array.getD_eq_getD_getElem?, getD_eq_getElem?_getD, getElem?_map, Array.getElem?_toList]
  cases (f.placeLocals types g).1[l]? <;> rfl

end Ir.Func

theorem TypeTable.not_isMemoryAggregate {types : TypeTable} (h : types.isRegisterValue ty) :
    types.isMemoryAggregate ty = false := by
  rw [isRegisterValue, parts] at h
  rw [isMemoryAggregate]
  split
  · next fields offsets hkind =>
    rw [hkind] at h
    dsimp only at h
    split at h
    · exact absurd h (by simp)
    · next hsmall => exact decide_eq_false fun hlarge => hsmall (.inr hlarge)
  · rfl

section Enter

variable (ir : Ir.Func) (types : TypeTable)

def entered : Func := (inputs ir types).foldl addInput (ir.placeLocals types ir.skeleton).2

def blank (f : Func) (nodes : Nat) (done : List BlockId) : Construction :=
  { func := f, defs := Array.replicate f.blocks.size [], sealedBlocks := done, filled := []
    incomplete := [], forward := [], phiUsers := [], phiVars := [], assignments := [], consts := []
    nodeValues := Array.replicate nodes none, phisCreated := 0, phisRemoved := 0 }

theorem enter_eq : enter ir types =
    ({ ir, types, sources := ir.reachableBlocks.toArray
       memoryLocals := (ir.placeLocals types ir.skeleton).1
       params := List.range' 1 ir.params.length
       resultPtr := if types.isMemoryAggregate ir.result then some (ir.params.length + 1) else none },
      (blank (entered ir types) ir.nodes.size []).assign .memory (entered ir types).entry 0) := by
  have hsize := congrArg Array.size ir.skeleton_rest.1
  obtain ⟨locals, hlocals⟩ := ir.placeLocals_func types ir.skeleton
  have hzero : (ir.placeLocals types ir.skeleton).2.values.size = 0 := by
    rw [hlocals]
    exact hsize
  unfold enter
  rw [entered, inputs]
  dsimp only
  generalize (ir.placeLocals types ir.skeleton).2 = f0 at *
  have hone : (f0.appendValue f0.entry .initMem TypeId.mem [] .none).2.values.size = 1 := by
    rw [← Nat.zero_add 1, ← hzero]
    exact values_size_addInput f0 ⟨.initMem, TypeId.mem, .none⟩
  have hmem : (f0.appendValue f0.entry .initMem TypeId.mem [] .none).1 = 0 := hzero
  have hfold := foldl_appendValue (fun x => ⟨.arg, passedType types x.1, .int x.2⟩)
    ir.params.zipIdx [] (f0.appendValue f0.entry .initMem TypeId.mem [] .none).2
  have hparams := values_size_addInputs (ir.params.zipIdx.map fun x => ⟨.arg, passedType types x.1, .int x.2⟩)
    (f0.appendValue f0.entry .initMem TypeId.mem [] .none).2
  rw [hone, length_map, length_zipIdx] at hparams
  rw [hone, length_zipIdx] at hfold
  have hfirst : f0.addInput ⟨.initMem, TypeId.mem, .none⟩ =
      (f0.appendValue f0.entry .initMem TypeId.mem [] .none).2 := rfl
  rw [hfold, hmem, foldl_append, foldl_cons, hfirst]
  generalize List.foldl addInput (f0.appendValue f0.entry .initMem TypeId.mem [] .none).2
    (ir.params.zipIdx.map fun x => ⟨.arg, passedType types x.1, .int x.2⟩) = f2 at *
  split
  · have hptr : (f2.appendValue f2.entry .resultPtr TypeId.ptr [] .none).1 = ir.params.length + 1 :=
      hparams.trans (Nat.add_comm 1 _)
    rw [hptr]
    rfl
  · rfl

theorem entered_rest : (entered ir types).params = ir.params ∧
    (entered ir types).locals = (ir.placeLocals types ir.skeleton).2.locals := by
  have hfold : ∀ (is : List Input) (g : Func), (is.foldl addInput g).params = g.params ∧
      (is.foldl addInput g).locals = g.locals := by
    intro is
    induction is with
    | nil => exact fun g => ⟨rfl, rfl⟩
    | cons i is ih => exact fun g => ih (g.addInput i)
  obtain ⟨locals, hlocals⟩ := ir.placeLocals_func types ir.skeleton
  refine ⟨(hfold _ _).1.trans ?_, (hfold _ _).2⟩
  rw [hlocals]
  exact ir.skeleton_rest.2

theorem inputs_succ (h : (inputs ir types)[v + 1]? = some i) : i.op = .arg ∨ i.op = .resultPtr := by
  have hmem := mem_of_getElem? (show (_ ++ _ : List Input)[v]? = some i from h)
  rcases mem_append.mp hmem with hmem | hmem
  · obtain ⟨_, -, rfl⟩ := mem_map.mp hmem
    exact .inl rfl
  · split at hmem
    · rw [mem_singleton.mp hmem]
      exact .inr rfl
    · cases hmem

theorem inputs_op (h : (inputs ir types)[v]? = some i) : i.op = .initMem ∨ i.op = .arg ∨ i.op = .resultPtr := by
  cases v with
  | zero =>
    rw [← Option.some.inj h]
    exact .inl rfl
  | succ v => exact .inr (inputs_succ ir types h)

theorem inputs_param {k : Nat} (h : ir.params[k]? = some ty) :
    (inputs ir types)[k + 1]? = some ⟨.arg, passedType types ty, .int k⟩ := by
  have hlt := (List.getElem?_eq_some_iff.mp h).1
  change (_ ++ _ : List Input)[k]? = _
  rw [getElem?_append_left (by rwa [length_map, length_zipIdx]), getElem?_map, getElem?_zipIdx, h]
  simp

theorem inputs_resultPtr (h : types.isMemoryAggregate ir.result) :
    (inputs ir types)[ir.params.length + 1]? = some ⟨.resultPtr, TypeId.ptr, .none⟩ := by
  change (_ ++ _ : List Input)[ir.params.length]? = _
  rw [if_pos h]
  simp

theorem entered_spec (hvalid : ir.Valid types) : ir.skeleton.Entered (inputs ir types) (entered ir types) := by
  obtain ⟨locals, hlocals⟩ := ir.placeLocals_func types ir.skeleton
  have hgraph : ir.skeleton.SameGraph (ir.placeLocals types ir.skeleton).2 := by
    rw [hlocals]
    exact ⟨rfl, rfl, fun _ => rfl, fun _ => rfl, fun _ => rfl⟩
  have hempty : ∀ b, ((ir.placeLocals types ir.skeleton).2.block b).values = [] ∧
      ((ir.placeLocals types ir.skeleton).2.block b).control = none := by
    intro b
    rw [hlocals]
    change (ir.skeleton.block b).values = [] ∧ (ir.skeleton.block b).control = none
    by_cases hb : b < ir.reachableBlocks.length
    · obtain ⟨k, -, hk⟩ := ir.exists_source hb
      rw [Ir.Func.skeleton_block ir hk]
      exact ⟨rfl, rfl⟩
    · rw [Ir.Func.skeleton_block_default ir (not_lt.mp hb)]
      exact ⟨rfl, rfl⟩
  have hnil := (hvalid.skeleton_flow.congr hgraph).entered_nil
    (by rw [hlocals]; exact congrArg Array.size ir.skeleton_rest.1)
    (fun b => (hempty b).1) fun b => (hempty b).2
  have h := hnil.foldl (inputs ir types) [] _ fun i hi => by
    obtain ⟨v, hv⟩ := mem_iff_getElem?.mp hi
    rcases inputs_op ir types hv with hop | hop | hop <;> rw [hop] <;> decide
  exact { h with graph := hgraph.trans h.graph }

end Enter

namespace Construction

variable {f : Func}

theorem def?_blank (f : Func) (nodes : Nat) (done : List BlockId) (x : Var) (b : BlockId) :
    (blank f nodes done).def? x b = none := by
  rw [def?, blank, getD_replicate]
  rfl

theorem sound_blank {ir : Ir.Func} (hshape : f.Shape)
    (hphi : ∀ v, v < f.values.size → (f.value v).op ≠ .phi) (nodes : Nat) :
    (blank f nodes [f.entry]).Sound ir [] [] where
  shape := hshape
  settled := trivial
  replaced _ _ h := absurd h nofun
  replaced_known _ h := absurd h nofun
  defs_size := Array.size_replicate
  defs x b v h := absurd h (by rw [def?_blank]; exact nofun)
  phi_var p hp hop := absurd hop (hphi p hp)
  known p x b hp := absurd hp.op (hphi p hp.lt)
  starts x b v h := absurd h (by rw [def?_blank]; exact nofun)
  assigned x b h := absurd h not_mem_nil
  sealed_preds b hb q hq := by
    rw [mem_singleton.mp hb] at hq
    exact absurd (hshape.entry_preds ▸ hq) not_mem_nil
  filled_join _ h := absurd h not_mem_nil
  filled_lt _ h := absurd h not_mem_nil
  entry_sealed := mem_singleton.mpr rfl
  incomplete _ _ _ h := absurd h not_mem_nil
  incomplete_nodup := nodup_nil
  waiting _ h := absurd h not_mem_nil
  frames _ h := absurd h not_mem_nil
  users _ _ h := absurd h not_mem_nil

theorem script_inputs {t : Task} {s : Construction} {b : BlockId} {vs : List ValueId} (hbody : s.func.body b = vs)
    (hvs : ∀ v ∈ vs, v < s.func.values.size ∧ (s.func.value v).op ≠ .phi ∧
      (s.func.value v).op.takesMem = false ∧ s.func.args v = []) :
    Script t s b (vs.map .value) where
  body := by
    rw [hbody, filterMap_map]
    exact filterMap_some.symm
  follows pre e post hsplit := by
    have hmem := mem_iff_append.mpr ⟨_, _, hsplit⟩
    obtain ⟨v, hv, rfl⟩ := mem_map.mp hmem
    obtain ⟨hlt, hop, htakes, hargs⟩ := hvs v hv
    refine .value v hlt hop (fun a ha => ?_) fun hc => Bool.noConfusion (hc.symm.trans htakes)
    rw [dataArgs, hargs] at ha
    simp at ha
  result_lt e he v hv := by
    obtain ⟨w, -, rfl⟩ := mem_map.mp he
    cases hv
  typed e he n v hn := by
    obtain ⟨w, -, rfl⟩ := mem_map.mp he
    cases hn

theorem assigned?_inputs (h0 : (f.value 0).op.makesMem) (n : Nat)
    (hrest : ∀ v, 0 < v → v < n + 1 → (f.value v).op.makesMem = false) (x : Var) :
    assigned? f x ((List.range (n + 1)).map .value) = if x = .memory then some 0 else none := by
  induction n with
  | zero =>
    cases x with
    | memory => simp [assigned?, Event.assigns?, h0]
    | slot l => rfl
  | succ n ih =>
    rw [range_succ, List.map_append, map_singleton, assigned?_snoc,
      ih fun v hv hlt => hrest v hv (Nat.lt_succ_of_lt hlt)]
    cases x with
    | memory =>
      rw [Event.assigns?, hrest (n + 1) (Nat.succ_pos n) (Nat.lt_succ_self _)]
      rfl
    | slot l => rfl

section Start

variable {ir : Ir.Func} {types : TypeTable} {g : Func} (h : ir.skeleton.Entered (inputs ir types) g)

include h

theorem op_entered (hv : v < g.values.size) :
    (g.value v).op = .initMem ∨ (g.value v).op = .arg ∨ (g.value v).op = .resultPtr := by
  rw [h.size] at hv
  have hget := getElem?_eq_getElem hv
  rw [(h.input v _ hget).1]
  exact inputs_op ir types hget

theorem rooted_entered (nodes : Nat) (done : List BlockId) : (blank g nodes done).Rooted := by
  have hmem : ∀ v, v ∈ g.body g.entry ↔ v < g.values.size := by
    intro v
    rw [h.body, h.size, mem_range]
  refine ⟨fun v hv hc => ?_, fun _ _ hc => absurd hc not_mem_nil, nodup_nil,
    fun v hv _ => (hmem v).mpr hv, fun b v hv => ?_, _, [], (append_nil _).symm, fun v hv => ?_,
    forall_mem_nil _⟩
  · change (g.value v).op = .const at hc
    rcases op_entered h hv with ho | ho | ho <;> rw [ho] at hc <;> cases hc
  · change (g.value v).op.isListed = true
    rcases op_entered h (mem_body h.shape hv).1 with ho | ho | ho <;> rw [ho] <;> rfl
  · refine ⟨?_, h.args v⟩
    change (g.value v).op.isLeading = true
    rcases op_entered h ((hmem v).mp hv) with ho | ho | ho <;> rw [ho] <;> rfl

theorem given_entered (nodes : Nat) (done : List BlockId)
    (hlocals : g.locals = (ir.placeLocals types ir.skeleton).2.locals) :
    (blank g nodes done).Given (enter ir types).1 := by
  have hinput : ∀ v i, (inputs ir types)[v]? = some i →
      v < g.values.size ∧ (g.value v).op = i.op ∧ (g.value v).ty = i.ty := by
    intro v i hi
    rw [h.size]
    exact ⟨(List.getElem?_eq_some_iff.mp hi).1, (h.input v i hi).1, (h.input v i hi).2.1⟩
  rw [enter_eq ir types]
  refine ⟨fun k ty hk => ?_, fun v hv => ?_, fun l hl hlt => ?_, fun l slot hslot => ?_⟩
  · refine ⟨k + 1, ?_, hinput (k + 1) _ (inputs_param ir types hk)⟩
    rw [getElem?_range' (List.getElem?_eq_some_iff.mp hk).1]
    simp [Nat.add_comm]
  · split at hv
    · next hagg =>
      obtain rfl := Option.some.inj hv
      exact hinput _ _ (inputs_resultPtr ir types hagg)
    · cases hv
  · have hmemory := ir.placeLocals_slots types ir.skeleton l
    rw [hl, Ir.Func.memoryLocals, getD_eq_getElem?_getD, getElem?_map,
      getElem?_zipIdx, Array.getElem?_toList, Array.getElem?_eq_getElem hlt] at hmemory
    obtain ⟨hreg, -⟩ := Bool.or_eq_false_iff.mp hmemory.symm
    change types.isMemoryAggregate (ir.locals.getD l default).ty = false
    rw [Array.getD_eq_getD_getElem?, Array.getElem?_eq_getElem hlt]
    exact TypeTable.not_isMemoryAggregate (by simpa using hreg)
  · change slot < g.locals.size
    rw [hlocals]
    exact ir.placeLocals_lt types ir.skeleton hslot

theorem typed_entered (done : List BlockId) (hparams : g.params = ir.params) :
    (blank g ir.nodes.size done).Typed (enter ir types).1 := by
  have hinput : ∀ v, v < g.values.size → ∃ i, (inputs ir types)[v]? = some i := by
    intro v hv
    rw [h.size] at hv
    exact ⟨_, getElem?_eq_getElem hv⟩
  refine ⟨fun v hv hlead => ?_, fun n v hn => ?_, fun v hv => ?_, fun v hv _ => ?_, hparams⟩
  · change (g.value v).op.isLeading = false at hlead
    rcases op_entered h hv with ho | ho | ho <;> rw [ho] at hlead <;> cases hlead
  · change (Array.replicate ir.nodes.size none).getD n none = some v at hn
    rw [getD_replicate] at hn
    cases hn
  · obtain ⟨i, hi⟩ := hinput v hv
    exact (h.input v i hi).2.2.2
  · obtain ⟨i, hi⟩ := hinput v hv
    obtain ⟨hop, hty, hpayload, -⟩ := h.input v i hi
    exact .inr ⟨i, hi, hop, hty, hpayload⟩

theorem assigned?_entered (x : Var) :
    assigned? g x ((List.range (inputs ir types).length).map .value) = if x = .memory then some 0 else none := by
  obtain ⟨n, hn⟩ : ∃ n, (inputs ir types).length = n + 1 := ⟨_, rfl⟩
  rw [hn]
  refine assigned?_inputs ?_ n (fun v hv hlt => ?_) x
  · rw [(h.input 0 _ rfl).1]
    rfl
  · obtain ⟨v, rfl⟩ := Nat.exists_eq_succ_of_ne_zero hv.ne'
    rw [← hn] at hlt
    have hget := getElem?_eq_getElem hlt
    rw [(h.input _ _ hget).1]
    rcases inputs_succ ir types hget with hop | hop <;> rw [hop] <;> rfl

omit h in
/-- Where construction starts: the entry has the inputs, and nothing has been lowered. -/
theorem progress_enter (hvalid : ir.Valid types) : Progress (enter ir types).1 { (enter ir types).2 with
    sealedBlocks := (enter ir types).2.func.entry :: (enter ir types).2.sealedBlocks } := by
  obtain ⟨g, hg⟩ : ∃ g, entered ir types = g := ⟨_, rfl⟩
  have h := entered_spec ir types hvalid
  have hrest := entered_rest ir types
  rw [hg] at h hrest
  have hops : ∀ v, v < g.values.size → (g.value v).op ≠ .phi ∧ (g.value v).op.takesMem = false := by
    intro v hv
    rcases op_entered h hv with hop | hop | hop <;> rw [hop] <;> decide
  have hpos : 0 < g.values.size := by
    rw [h.size]
    exact Nat.succ_pos _
  have hentry := h.shape.entry_lt
  have hsound := @sound_blank _ ir h.shape (fun v hv => (hops v hv).1) ir.nodes.size
  have hstate : { (enter ir types).2 with
      sealedBlocks := (enter ir types).2.func.entry :: (enter ir types).2.sealedBlocks } =
      (blank g ir.nodes.size [g.entry]).assign .memory g.entry 0 := by
    rw [enter_eq ir types, assign_eq, assign_eq, hg]
    rfl
  rw [hstate]
  have hkept := assign_eq (s := blank g ir.nodes.size [g.entry]) (x := .memory) (b := g.entry) (v := 0)
  have hfilled := congrArg filled hkept
  have hnodes := congrArg nodeValues hkept
  have hassign := sound_assign (x := .memory) (v := 0) hsound hentry not_mem_nil ⟨hpos, fun hne => absurd rfl hne⟩
  have hext := extends_assign (x := .memory) (v := 0) hsound hentry not_mem_nil
  have hself := endsWith_assign_self (x := .memory) (v := 0) hsound hentry
  have hfunc := func_assign (s := blank g ir.nodes.size [g.entry]) (x := .memory) (b := g.entry) (v := 0)
  have hsites := fun y c => mem_sites_assign (y := y) (c := c) (s := blank g ir.nodes.size [g.entry])
    (x := .memory) (b := g.entry) (v := 0)
  have hrooted := rooted_congr (rooted_entered h ir.nodes.size [g.entry]) hfunc (by rw [hkept])
  have hgiven := (given_entered h ir.nodes.size [g.entry] hrest.2).extends hext
  have htyped := (typed_entered h [g.entry] hrest.1).assign .memory g.entry 0
  generalize (blank g ir.nodes.size [g.entry]).assign .memory g.entry 0 = s at *
  change s.func = g at hfunc
  have hir : (enter ir types).1.ir = ir := by rw [enter_eq ir types]
  have hlow : Lowering (enter ir types).1 s.func.entry s ((List.range (inputs ir types).length).map .value) :=
    { sound := by
        rw [hir]
        exact hassign
      rooted := hrooted
      given := hgiven
      unfilled := by
        rw [hfilled]
        exact not_mem_nil
      lt := by
        rw [hfunc]
        exact hentry
      join := .inl hassign.entry_sealed
      script := script_inputs (by rw [hfunc]; exact h.body) fun v hv => by
        rw [mem_range, ← h.size] at hv
        rw [hfunc]
        exact ⟨hv, (hops v hv).1, (hops v hv).2, h.args v⟩
      tracks := fun x w hw => by
        rw [hfunc, assigned?_entered h] at hw
        split at hw
        · next hx =>
          rw [hx, ← Option.some.inj hw, hfunc]
          exact hself
        · cases hw
      untouched := fun x hx hsite => by
        rw [hfunc, assigned?_entered h] at hx
        rw [hfunc] at hsite
        rcases (hsites x _).mp hsite with hsite | ⟨-, rfl⟩
        · cases hsite
        · cases hx
      typed := fun _ => htyped }
  refine ⟨by rw [hir]; exact hassign, hrooted, hgiven, ?_, ?_, ?_, fun _ => ⟨_, hlow, ?_⟩, ?_, fun _ => htyped⟩
  · rw [hir, hfunc]
    exact h.graph
  · rw [hir, hnodes]
    exact Array.size_replicate
  · rw [hfilled]
    exact forall_mem_nil _
  · exact nodes_values _
  · rw [hfunc]
    refine fun b _ => ⟨h.control b, fun hne => ⟨h.other b hne, fun x hx => ?_⟩⟩
    rcases (hsites x b).mp hx with hx | ⟨rfl, -⟩
    · cases hx
    · exact hne rfl

end Start

end Construction

end SsaCodegen
