import SsaCodegen.Proofs.Construction.Lowering

/-! Lowering the nodes of a block. -/

namespace SsaCodegen.Construction

open List

variable {t : Task} {b : BlockId} {s s' : Construction} {es es' : List Event} {ty : TypeId}
  {v ptr : ValueId} {l : LocalId} {i : Nat} {n : Ir.NodeId} {ns : List Ir.NodeId} {vs : List ValueId}

def Gives (t : Task) (b : BlockId) (s : Construction) (es : List Event) (s' : Construction)
    (v : ValueId) (ty : TypeId) : Prop :=
  ∃ es', Goes t b s es s' es' ∧ s'.Avail es' v ∧ (s'.func.value v).ty = ty

section

variable (h : Lowering t b s es)

include h

theorem Lowering.effect {op : Op} {args : List ValueId} {tys : List TypeId} {payload : Payload}
    (hrun : Runs (t.effect b op ty args payload) s v s') (hlisted : op.isListed)
    (hlead : op.isLeading = false) (hmem : op.takesMem) (hmakes : op.makesMem)
    (hargs : List.Forall₂ (s.Carries t es) args tys)
    (htakes : t.types.Made → ∀ locals, op.Takes t.ir t.types locals ty payload tys) :
    ∃ es', Goes t b s es s' es' ∧ s'.Avail es' v ∧ (s'.func.value v).ty = ty ∧ s'.Current b es' .memory v := by
  obtain ⟨m, s1, hread, hrest⟩ := runs_bind.mp hrun
  obtain ⟨w, s2, happ, hrest⟩ := runs_bind.mp hrest
  obtain ⟨_, hmod, rfl⟩ := runs_bind_pure.mp hrest
  obtain rfl := runs_modify.mp hmod
  obtain ⟨hv, rfl⟩ := runs_append.mp happ
  obtain ⟨hgo, hcur, hfits⟩ := h.readVar hread
  have hops : s1.Operands t b es op ty payload (args ++ [m]) :=
    .of_memory hlisted hlead (hgo.carry hargs) (fun hmade => htakes hmade _) hmem hfits.1 hcur
  obtain ⟨es', hgo', hrest⟩ := hgo.lowering.effect_append hops hmakes v hv rfl
  exact ⟨es', hgo.trans hgo', hrest⟩

theorem Lowering.load (hptr : s.Carries t es ptr TypeId.ptr) (hmay : t.ir.MayHold ty)
    (hrun : Runs (t.load b ty ptr) s v s') : Gives t b s es s' v ty := by
  obtain ⟨m, s1, hread, happ⟩ := runs_bind.mp hrun
  obtain ⟨hgo, hcur, hfits⟩ := h.readVar hread
  have hops : s1.Operands t b es .load ty .none ([ptr] ++ [m]) :=
    .of_memory rfl rfl (.cons (hgo.carries hptr) .nil) (fun _ => ⟨hmay, rfl⟩) rfl hfits.1 hcur
  obtain ⟨es', hgo', hav, hty⟩ := hgo.lowering.append happ hops rfl
  exact ⟨es', hgo.trans hgo', hav, hty⟩

theorem Lowering.hiddenLocal {stem : String} (hrun : Runs (Task.hiddenLocal stem ty) s l s') :
    Goes t b s es s' es ∧ l < s'.func.locals.size := by
  obtain ⟨rfl, rfl⟩ := Prod.mk.inj (runs_modifyGet.mp hrun)
  have hsize : (s.func.addLocal (stem ++ Text.decimal s.func.locals.size) ty).2.locals.size =
      s.func.locals.size + 1 := Array.size_push ..
  have hg : s.func.Grows (s.func.addLocal (stem ++ Text.decimal s.func.locals.size) ty).2 :=
    ⟨⟨rfl, rfl, fun _ => rfl, fun _ => rfl, fun _ => rfl⟩, le_rfl, fun _ _ => rfl,
      fun _ _ => rfl, fun v hle hlt => absurd hlt (not_lt.mpr hle), rfl, by
        rw [hsize]
        exact Nat.le_succ _⟩
  have hshape : (s.func.addLocal (stem ++ Text.decimal s.func.locals.size) ty).2.Shape :=
    { h.sound.shape with spans := { h.sound.shape.spans with } }
  have hext := extends_grow h.sound hg
  have htyped := fun hmade => (h.typed hmade).extends h.sound hext rfl fun v hle hlt => absurd hlt (not_lt.mpr hle)
  exact ⟨⟨h.keeps hext (sound_grow h.sound hg hext hshape) { h.rooted with } rfl (fun _ _ he => he)
    ⟨rfl, fun _ hc => hc, rfl⟩ htyped, ⟨hext, rfl, fun _ _ => rfl, fun _ _ => rfl, fun _ _ _ hx => hx⟩, rfl, rfl,
    [], by rw [map_nil, append_nil]⟩, (Nat.lt_succ_self _).trans_eq hsize.symm⟩

theorem Lowering.localAddr (hl : l < s.func.locals.size) (hrun : Runs (Task.localAddr b l) s v s') :
    Gives t b s es s' v TypeId.ptr :=
  h.append hrun (.of_carries rfl rfl .nil (fun _ => ⟨rfl, ⟨l, rfl, hl⟩, rfl⟩) rfl) rfl

theorem Lowering.moveTo {target source : ValueId} (htarget : s.Carries t es target TypeId.ptr)
    (hsource : s.Carries t es source TypeId.ptr) (hrun : Runs (t.moveTo b ty target source) s v s') :
    ∃ es', Goes t b s es s' es' ∧ s'.Avail es' v ∧ (s'.func.value v).ty = TypeId.mem ∧ s'.Current b es' .memory v :=
  h.effect hrun rfl rfl rfl rfl (.cons htarget (.cons hsource .nil)) fun _ _ => ⟨rfl, ⟨_, rfl⟩, rfl⟩

theorem Lowering.snapshot {source : ValueId} (hsource : s.Carries t es source TypeId.ptr)
    (hrun : Runs (t.snapshot b ty source) s v s') : Gives t b s es s' v TypeId.ptr := by
  obtain ⟨l, s1, hhidden, hrest⟩ := runs_bind.mp hrun
  obtain ⟨target, s2, haddr, hrest⟩ := runs_bind.mp hrest
  obtain ⟨w, hmove, rfl⟩ := runs_bind_pure.mp hrest
  obtain ⟨hgo1, hl⟩ := h.hiddenLocal hhidden
  obtain ⟨es2, hgo2, hav2, hty2⟩ := hgo1.lowering.localAddr hl haddr
  obtain ⟨es3, hgo3, -, -⟩ := hgo2.lowering.moveTo (carries_ptr hav2 hty2) (hgo2.carries (hgo1.carries hsource)) hmove
  refine ⟨es3, (hgo1.trans hgo2).trans hgo3, hgo3.avail hav2, ?_⟩
  rw [hgo3.works.value _ hav2.1]
  exact hty2

theorem Lowering.fetch (hptr : s.Carries t es ptr TypeId.ptr) (hmay : t.ir.MayHold ty)
    (hrun : Runs (t.fetch b ty ptr) s v s') : Gives t b s es s' v (passedType t.types ty) := by
  rw [passedType]
  rcases runs_ite.mp hrun with ⟨hagg, hrun⟩ | ⟨hagg, hrun⟩
  · rw [if_pos hagg]
    exact h.snapshot hptr hrun
  · rw [if_neg hagg]
    exact h.load hptr hmay hrun

theorem Lowering.storeTo (hptr : s.Carries t es ptr TypeId.ptr)
    (hv : s.Carries t es v (passedType t.types ty)) {u : Unit} (hrun : Runs (t.storeTo b ptr ty v) s u s') :
    ∃ es', Goes t b s es s' es' := by
  rcases runs_ite.mp hrun with ⟨hagg, hrun⟩ | ⟨-, hrun⟩
  · rw [passedType, if_pos hagg] at hv
    obtain ⟨w, hmove, -⟩ := runs_bind_pure.mp hrun
    obtain ⟨es', hgo, -, -⟩ := h.moveTo hptr hv hmove
    exact ⟨es', hgo⟩
  · obtain ⟨w, hstore, -⟩ := runs_bind_pure.mp hrun
    obtain ⟨es', hgo, -, -⟩ := h.effect hstore rfl rfl rfl rfl (.cons hptr (.cons hv .nil)) fun _ _ => ⟨rfl, _, rfl⟩
    exact ⟨es', hgo⟩

theorem Lowering.fieldAddr {base : ValueId} (hbase : s.Carries t es base TypeId.ptr)
    (hrun : Runs (t.fieldAddr b ty base i) s v s') :
    Gives t b s es s' v TypeId.ptr := by
  rw [Task.fieldAddr] at hrun
  split at hrun
  · exact (runs_throw.mp hrun).elim
  · exact h.append hrun (.of_carries rfl rfl (.cons hbase .nil) (fun _ => ⟨rfl, ⟨_, rfl⟩, rfl⟩) rfl) rfl

end

section Constant

variable (h : Lowering t b s es) (key : TypeId × Int)

include h

theorem Lowering.newConstant (hty : t.types.isInteger key.1) :
    let s1 : Construction := { s with
      func := (s.func.newValue s.func.entry .const key.1 [] (.int key.2)).2
      consts := s.consts ++ [(key, s.func.values.size)] }
    Goes t b s es s1 es ∧ s1.Avail es s.func.values.size ∧ (s1.func.value s.func.values.size).ty = key.1 := by
  intro s1
  have hop : Op.const ≠ .phi := by decide
  have hg : s.func.Grows (s.func.newValue s.func.entry .const key.1 [] (.int key.2)).2 :=
    h.sound.shape.grows_newValue s.func.entry key.1 (.int key.2) hop
  have hshape := h.sound.shape.newValue s.func.entry key.1 (.int key.2) hop fun _ ha => absurd ha not_mem_nil
  have hbody := Func.body_newValue h.sound.shape s.func.entry .const key.1 [] (.int key.2)
  have hnew := Func.value_newValue_new s.func s.func.entry .const key.1 [] (.int key.2)
  have hargs := Func.args_newValue_new (f := s.func) s.func.entry .const key.1 [] (.int key.2)
  have hsize : s1.func.values.size = s.func.values.size + 1 := Func.values_size_newValue ..
  have hgrown := extends_grow h.sound hg
  have hext : Extends s s1 := { hgrown with }
  have hlt : s.func.values.size < s1.func.values.size := hsize ▸ Nat.lt_succ_self _
  have hnodup : (s1.consts.map (·.2)).Nodup := by
    rw [List.map_append]
    refine nodup_append.mpr ⟨h.rooted.nodup, pairwise_singleton _ _, ?_⟩
    rintro c hc d hd rfl
    obtain ⟨⟨k, c'⟩, hk, rfl⟩ := mem_map.mp hc
    rw [map_singleton, mem_singleton] at hd
    exact absurd hd (h.rooted.consts k c' hk).1.ne
  have hrooted : s1.Rooted := by
    refine h.rooted.extends (fun _ => []) [(key, s.func.values.size)] h.sound.shape hext
      (fun c => by rw [hbody, append_nil]) (fun _ _ hv => absurd hv not_mem_nil)
      (fun v hle hlt => .inr ?_) rfl hnodup fun k c hc => ?_
    · obtain rfl := (Nat.le_of_lt_succ (hlt.trans_eq hsize)).antisymm hle
      rw [hnew]
      exact ⟨rfl, fun _ => mem_cons_self⟩
    · obtain ⟨rfl, rfl⟩ := Prod.mk.inj (mem_singleton.mp hc)
      rw [hnew]
      exact ⟨hlt, rfl, rfl, rfl, hargs⟩
  have haccepts : Accepts t s .const key.1 (.int key.2)
      (if Op.const.takesMem then [].dropLast else []) := ⟨[], .nil, hty, ⟨_, rfl⟩, rfl⟩
  have htyped := fun hmade => (h.typed hmade).extends h.sound hext rfl fun _ =>
    haccepts.newValue rfl rfl rfl rfl
  refine ⟨⟨h.keeps hext { sound_grow h.sound hg hgrown hshape with } hrooted (hbody b) (fun _ _ he => he)
    ⟨rfl, fun _ hc => hc, rfl⟩ htyped, ⟨hext, rfl, fun c _ => hbody c, fun _ _ => rfl, fun _ _ _ hx => hx⟩, rfl, rfl,
    [], by rw [map_nil, append_nil]⟩, ⟨hlt, .inl ?_⟩, ?_⟩
  · exact .inr (.inr (congrArg Value.op hnew))
  · exact congrArg Value.ty hnew

theorem Lowering.constant {value : Int} (hty : t.types.isInteger ty)
    (hrun : Runs (t.constant ty value) s v s') : Gives t b s es s' v ty := by
  have hrun := runs_modifyGet.mp hrun
  dsimp only at hrun
  split at hrun
  · next c hc =>
    obtain ⟨rfl, rfl⟩ := Prod.mk.inj hrun
    obtain ⟨front, back, hmem, -⟩ := lookup_eq_some_iff.mp hc
    obtain ⟨hlt, hop, hty, -⟩ := h.rooted.consts _ c (mem_iff_append.mpr ⟨_, _, hmem⟩)
    exact ⟨es, Goes.refl h, ⟨hlt, .inl (.inr (.inr hop))⟩, hty⟩
  · obtain ⟨rfl, rfl⟩ := Prod.mk.inj hrun
    exact ⟨es, h.newConstant (ty, normalize t.types ty value) hty⟩

end Constant

def Recorded (s : Construction) (es : List Event) : Prop :=
  ∀ e ∈ es, ∀ n, e.node? = some n → s.nodeValues.getD n none = e.result?

def Done (es : List Event) (n : Ir.NodeId) : Prop := ∃ e ∈ es, e.node? = some n

theorem nodes_values (vs : List ValueId) : (vs.map Event.value).filterMap Event.node? = [] :=
  filterMap_eq_nil_iff.mpr fun e he => by
    obtain ⟨w, -, rfl⟩ := mem_map.mp he
    rfl

theorem Recorded.append_values (hr : s.Recorded es) (h : s'.nodeValues = s.nodeValues)
    (vs : List ValueId) : s'.Recorded (es ++ vs.map .value) := by
  intro e he n hn
  rw [h]
  rcases mem_append.mp he with he | he
  · exact hr e he n hn
  · obtain ⟨w, -, rfl⟩ := mem_map.mp he
    exact absurd hn (by simp [Event.node?])

theorem Goes.recorded (h : Goes t b s es s' es') (hr : s.Recorded es) : s'.Recorded es' := by
  obtain ⟨vs, rfl⟩ := h.values
  exact hr.append_values h.nodeValues vs

theorem Goes.done (h : Goes t b s es s' es') (hn : Done es n) : Done es' n := by
  obtain ⟨e, he, hen⟩ := hn
  exact ⟨e, h.sub e he, hen⟩

theorem Lowering.nodeValue (h : Lowering t b s es) (hr : s.Recorded es) (hn : Done es n)
    (hrun : Runs (t.nodeValue n) s v s') :
    s' = s ∧ s.Carries t es v (passedType t.types (t.ir.nodeType n)) ∧
      (∃ e ∈ es, e.node? = some n ∧ e.result? = some v) ∧
      (t.types.isMemoryAggregate (t.ir.nodeType n) = false → (s.func.value v).ty = t.ir.nodeType n) := by
  have hrun := runs_get_bind.mp hrun
  split at hrun
  · next w hw =>
    obtain ⟨rfl, rfl⟩ := runs_pure.mp hrun
    obtain ⟨e, he, hen⟩ := hn
    have hres := (hr e he n hen).symm.trans hw
    exact ⟨rfl, ⟨⟨h.script.result_lt e he v hres, .inr (.inr ⟨e, he, hres⟩)⟩,
      fun hmade => (h.typed hmade).nodes n v hw⟩, ⟨e, he, hen, hres⟩, h.script.typed e he n v hen hres⟩
  · exact (runs_throw.mp hrun).elim

theorem Lowering.mapM {f : Ir.NodeId → Build ValueId}
    (hf : ∀ s es n v s', Lowering t b s es → s.Recorded es → Done es n → Runs (f n) s v s' →
      ∃ es', Goes t b s es s' es' ∧ s'.Carries t es' v (passedType t.types (t.ir.nodeType n))) :
    ∀ {ns : List Ir.NodeId} {s : Construction} {es : List Event} {vs : List ValueId},
      Lowering t b s es → s.Recorded es → (∀ n ∈ ns, Done es n) → Runs (ns.mapM f) s vs s' →
      ∃ es', Goes t b s es s' es' ∧
        List.Forall₂ (s'.Carries t es') vs (ns.map fun n => passedType t.types (t.ir.nodeType n)) := by
  intro ns
  induction ns with
  | nil =>
    intro s es vs h hr _ hrun
    obtain ⟨rfl, rfl⟩ := runs_mapM_nil.mp hrun
    exact ⟨es, Goes.refl h, .nil⟩
  | cons n ns ih =>
    intro s es vs h hr hdone hrun
    obtain ⟨v, s1, rest, hv, hrest, rfl⟩ := runs_mapM_cons.mp hrun
    obtain ⟨es1, hgo1, hv1⟩ := hf s es n v s1 h hr (hdone n mem_cons_self) hv
    obtain ⟨es2, hgo2, hvs⟩ := ih hgo1.lowering (hgo1.recorded hr)
      (fun m hm => hgo1.done (hdone m (mem_cons_of_mem n hm))) hrest
    exact ⟨es2, hgo1.trans hgo2, .cons (hgo2.carries hv1) hvs⟩

section

variable (h : Lowering t b s es) (hr : s.Recorded es)

include h hr

theorem Lowering.lowerArgument (hn : Done es n) (hrun : Runs (t.lowerArgument b n) s v s') :
    ∃ es', Goes t b s es s' es' ∧ s'.Carries t es' v (passedType t.types (t.ir.nodeType n)) := by
  obtain ⟨w, s1, hw, hrest⟩ := runs_bind.mp hrun
  obtain ⟨rfl, hv, -⟩ := h.nodeValue hr hn hw
  rcases runs_ite.mp hrest with ⟨hagg, hrun⟩ | ⟨-, hrun⟩
  · rw [passedType, if_pos hagg] at hv ⊢
    obtain ⟨es', hgo, hav, hty⟩ := h.snapshot hv hrun
    exact ⟨es', hgo, carries_ptr hav hty⟩
  · obtain ⟨rfl, rfl⟩ := runs_pure.mp hrun
    exact ⟨es, Goes.refl h, hv⟩

theorem Lowering.nodeValues (hns : ∀ n ∈ ns, Done es n) (hrun : Runs (ns.mapM t.nodeValue) s vs s') :
    ∃ es', Goes t b s es s' es' ∧
      List.Forall₂ (s'.Carries t es') vs (ns.map fun n => passedType t.types (t.ir.nodeType n)) := by
  refine Lowering.mapM (fun s es n v s' h hr hn hrun => ?_) h hr hns hrun
  obtain ⟨rfl, hv, -⟩ := h.nodeValue hr hn hrun
  exact ⟨es, Goes.refl h, hv⟩

omit hr in
theorem Lowering.lowerFields {base : ValueId} {pairs : List ((Ir.NodeId × ValueId) × Nat)}
    (hbase : s.Carries t es base TypeId.ptr)
    (hpairs : ∀ e ∈ pairs, s.Carries t es e.1.2 (passedType t.types (t.ir.nodeType e.1.1))) {u : PUnit}
    (hrun : Runs (pairs.forM fun e => do
      let ptr ← t.fieldAddr b ty base e.2
      t.storeTo b ptr (t.ir.nodeType e.1.1) e.1.2) s u s') : ∃ es', Goes t b s es s' es' := by
  refine runs_forM_invariant (fun _ s' => ∃ es', Goes t b s es s' es') ?_ ⟨es, Goes.refl h⟩ hrun
  rintro pre e post hsplit t1 t2 ⟨es1, hgo1⟩ hstep
  obtain ⟨ptr, t3, hptr, hstore⟩ := runs_bind.mp hstep
  obtain ⟨es2, hgo2, hav2, hty2⟩ := hgo1.lowering.fieldAddr (hgo1.carries hbase) hptr
  have he := hpairs e (mem_iff_append.mpr ⟨_, _, hsplit⟩)
  obtain ⟨es3, hgo3⟩ := hgo2.lowering.storeTo (carries_ptr hav2 hty2) (hgo2.carries (hgo1.carries he)) hstore
  exact ⟨es3, (hgo1.trans hgo2).trans hgo3⟩

theorem Lowering.lowerAggregate {fields : List Ir.NodeId} (hns : ∀ n ∈ fields, Done es n)
    (hmem : ty ≠ TypeId.mem) (hwell : t.types.fieldCount ty = fields.length ∧
      ∀ i m, fields[i]? = some m → t.types.fieldType? ty i = some (t.ir.nodeType m))
    (hrun : Runs (t.lowerAggregate b ty fields) s v s') :
    Gives t b s es s' v (passedType t.types ty) ∧ (t.types.Made → t.ir.MayHold ty) := by
  obtain ⟨vs, s1, hvs, hrest⟩ := runs_bind.mp hrun
  obtain ⟨es1, hgo1, hav1⟩ := h.nodeValues hr hns hvs
  rw [passedType]
  rcases runs_ite.mp hrest with ⟨hagg, hrest⟩ | ⟨hagg, hrest⟩
  · rw [if_pos hagg]
    obtain ⟨l, s2, hhidden, hrest⟩ := runs_bind.mp hrest
    obtain ⟨base, s3, haddr, hrest⟩ := runs_bind.mp hrest
    obtain ⟨_, hloop, rfl⟩ := runs_bind_pure.mp hrest
    obtain ⟨hgo2, hl⟩ := hgo1.lowering.hiddenLocal hhidden
    obtain ⟨es3, hgo3, hav3, hty3⟩ := hgo2.lowering.localAddr hl haddr
    have hvalues : ∀ e ∈ (fields.zip vs).zipIdx,
        s3.Carries t es3 e.1.2 (passedType t.types (t.ir.nodeType e.1.1)) := by
      intro e he
      have hpair := forall₂_zip (forall₂_map_right_iff.mp hav1).flip (fst_mem_of_mem_zipIdx he)
      exact hgo3.carries (hgo2.carries hpair)
    obtain ⟨es4, hgo4⟩ := hgo3.lowering.lowerFields (carries_ptr hav3 hty3) hvalues hloop
    refine ⟨⟨es4, ((hgo1.trans hgo2).trans hgo3).trans hgo4, hgo4.avail hav3, ?_⟩, fun hmade => ⟨hmem, ?_⟩⟩
    · rw [hgo4.works.value _ hav3.1]
      exact hty3
    · rintro rfl
      rw [hmade.void_not_memory] at hagg
      cases hagg
  · rw [if_neg hagg]
    rcases runs_ite.mp hrest with ⟨hwords, hrest⟩ | ⟨-, hrest⟩
    · have hmay : t.types.Made → t.ir.MayHold ty := fun hmade =>
        ⟨hmem, fun hvoid => absurd hvoid (hmade.wordPartitioned hwords).1⟩
      have htakes : t.types.Made → Op.pack.Takes t.ir t.types s1.func.locals.size ty .none
          (fields.map fun n => passedType t.types (t.ir.nodeType n)) := by
        intro hmade
        obtain ⟨-, hcount, hsize⟩ := hmade.wordPartitioned hwords
        refine ⟨hmay hmade, by rw [length_map, ← hwell.1]; exact hcount, fun field hfield => ?_⟩
        obtain ⟨m, hm, rfl⟩ := mem_map.mp hfield
        obtain ⟨i, hi⟩ := mem_iff_getElem?.mp hm
        have hone := hsize i _ (hwell.2 i m hi)
        rw [passedType_eq (TypeTable.not_memory_of_size hone)]
        exact hone
      obtain ⟨es2, hgo2, hav2, hty2⟩ :=
        hgo1.lowering.append hrest (.of_carries rfl rfl hav1 htakes rfl) rfl
      exact ⟨⟨es2, hgo1.trans hgo2, hav2, hty2⟩, hmay⟩
    · exact (runs_throw.mp hrest).elim

theorem Lowering.lowerExtract (hn : Done es n) (hfield : t.types.fieldType? (t.ir.nodeType n) i = some ty)
    (hmay : t.ir.MayHold ty) (hrun : Runs (t.lowerExtract b ty n i) s v s') :
    ∃ ty', Gives t b s es s' v ty' ∧ (t.types.isMemoryAggregate ty = false → ty' = ty) ∧
      (t.types.Made → ty' = passedType t.types ty) := by
  obtain ⟨w, s1, hw, hrest⟩ := runs_bind.mp hrun
  obtain ⟨rfl, hv, -⟩ := h.nodeValue hr hn hw
  rcases runs_ite.mp hrest with ⟨hwhole, hrest⟩ | ⟨-, hrest⟩
  · rw [passedType, if_pos hwhole] at hv
    obtain ⟨ptr, s2, hptr, hrest⟩ := runs_bind.mp hrest
    obtain ⟨es2, hgo2, hav2, hty2⟩ := h.fieldAddr hv hptr
    rcases runs_ite.mp hrest with ⟨hagg, hrest⟩ | ⟨hagg, hrest⟩
    · obtain ⟨rfl, rfl⟩ := runs_pure.mp hrest
      exact ⟨TypeId.ptr, ⟨es2, hgo2, hav2, hty2⟩, fun h => absurd hagg (by rw [h]; decide),
        fun _ => (if_pos hagg).symm⟩
    · obtain ⟨es3, hgo3, hav3, hty3⟩ := hgo2.lowering.load (carries_ptr hav2 hty2) hmay hrest
      exact ⟨ty, ⟨es3, hgo2.trans hgo3, hav3, hty3⟩, fun _ => rfl, fun _ => (if_neg hagg).symm⟩
  · rcases runs_ite.mp hrest with ⟨hwords, hrest⟩ | ⟨-, hrest⟩
    · refine ⟨ty, h.append hrest (.of_carries rfl rfl (.cons hv .nil) (fun _ => ⟨hmay, ⟨_, rfl⟩, _, rfl⟩) rfl)
        rfl, fun _ => rfl, fun hmade => ?_⟩
      obtain ⟨-, -, hsize⟩ := hmade.wordPartitioned hwords
      exact (passedType_eq (TypeTable.not_memory_of_size (hsize i ty hfield))).symm
    · exact (runs_throw.mp hrest).elim

theorem Lowering.lowerCall {callee : String}
    {args : List Ir.NodeId} {fixed : Nat} (hns : ∀ n ∈ args, Done es n) {r : Option ValueId}
    (hrun : Runs (t.lowerCall b ty callee args fixed) s r s') :
    (∃ es', Goes t b s es s' es' ∧ r = none) ∨
      ∃ v, r = some v ∧ Gives t b s es s' v (passedType t.types ty) ∧ (t.types.Made → ty ≠ TypeId.void) := by
  have hargs : ∀ {s es vs s'}, Lowering t b s es → s.Recorded es → (∀ n ∈ args, Done es n) →
      Runs (args.mapM (t.lowerArgument b)) s vs s' →
      ∃ es', Goes t b s es s' es' ∧
        List.Forall₂ (s'.Carries t es') vs (args.map fun n => passedType t.types (t.ir.nodeType n)) :=
    Lowering.mapM fun _ _ _ _ _ h hr hn hrun => h.lowerArgument hr hn hrun
  rw [passedType]
  rcases runs_ite.mp hrun with ⟨hagg, hrun⟩ | ⟨hagg, hrun⟩
  · rw [if_pos hagg]
    obtain ⟨l, s1, hhidden, hrest⟩ := runs_bind.mp hrun
    obtain ⟨addr, s2, haddr, hrest⟩ := runs_bind.mp hrest
    obtain ⟨vs, s3, hvs, hrest⟩ := runs_bind.mp hrest
    obtain ⟨call, hcall, rfl⟩ := runs_bind_pure.mp hrest
    obtain ⟨hgo1, hl⟩ := h.hiddenLocal hhidden
    obtain ⟨es2, hgo2, hav2, hty2⟩ := hgo1.lowering.localAddr hl haddr
    obtain ⟨es3, hgo3, hav3⟩ := hargs hgo2.lowering (hgo2.recorded (hgo1.recorded hr))
      (fun n hn => hgo2.done (hgo1.done (hns n hn))) hvs
    obtain ⟨es4, hgo4, -, -⟩ := hgo3.lowering.effect hcall rfl rfl rfl rfl
      (.cons (hgo3.carries (carries_ptr hav2 hty2)) hav3) fun _ _ => ⟨_, rfl⟩
    refine .inr ⟨addr, rfl, ⟨es4, ((hgo1.trans hgo2).trans hgo3).trans hgo4, hgo4.avail (hgo3.avail hav2), ?_⟩, ?_⟩
    · rw [(hgo3.trans hgo4).works.value _ hav2.1]
      exact hty2
    · rintro hmade rfl
      rw [hmade.void_not_memory] at hagg
      cases hagg
  · rw [if_neg hagg]
    obtain ⟨vs, s1, hvs, hrest⟩ := runs_bind.mp hrun
    obtain ⟨call, hcall, rfl⟩ := runs_bind_pure.mp hrest
    obtain ⟨es1, hgo1, hav1⟩ := hargs h hr hns hvs
    obtain ⟨es2, hgo2, hav2, hty2, -⟩ := hgo1.lowering.effect hcall rfl rfl rfl rfl hav1 fun _ _ => ⟨_, rfl⟩
    by_cases hvoid : ty = TypeId.void
    · exact .inl ⟨es2, hgo1.trans hgo2, if_pos hvoid⟩
    · exact .inr ⟨call, if_neg hvoid, ⟨es2, hgo1.trans hgo2, hav2, hty2⟩, fun _ => hvoid⟩

end

end SsaCodegen.Construction
