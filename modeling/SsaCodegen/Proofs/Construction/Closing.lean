import SsaCodegen.Proofs.Construction.Blocks

/-! Lowering a whole block. After its nodes the block gets the control that its end calls for. -/

namespace SsaCodegen

open List Func

def Ir.Terminator.kind : Ir.Terminator → BlockKind
  | .jump _ => .plain
  | .branch _ yes no => if yes = no then .plain else .branch
  | .ret _ => .ret

namespace Construction

variable {t : Task} {b : BlockId} {s s' : Construction} {es : List Event} {u : Unit}

/-- What the end of a block reads is available there. -/
structure Closed (t : Task) (s : Construction) (b : BlockId) (es : List Event) : Prop where
  plain : (s.func.block b).kind = .plain → (s.func.block b).control = none
  branch : (s.func.block b).kind = .branch → ∃ c, (s.func.block b).control = some c ∧
    s.Avail es c ∧ (t.types.isMemoryAggregate TypeId.bool = false → (s.func.value c).ty = TypeId.bool)
  ret : (s.func.block b).kind = .ret → ∃ c, (s.func.block b).control = some c ∧
    c < s.func.values.size ∧ (s.func.value c).op = .ret ∧ (s.func.value c).block = b ∧
    (∀ a ∈ s.func.dataArgs c, s.Avail es a) ∧
    ∃ m, s.func.memArg? c = some m ∧ s.Current b es .memory m

theorem Closed.extends (h : Closed t s b es) (hext : Extends s s') (hlt : ∀ v, .value v ∈ es → v < s.func.values.size)
    (hctl : (s'.func.block b).control = (s.func.block b).control) : Closed t s' b es where
  plain hk := by
    rw [hctl]
    exact h.plain (by rw [← hext.graph.kind]; exact hk)
  branch hk := by
    obtain ⟨c, hc, hav, hty⟩ := h.branch (by rw [← hext.graph.kind]; exact hk)
    rw [hctl]
    refine ⟨c, hc, hext.avail hav, ?_⟩
    rw [hext.value c hav.1]
    exact hty
  ret hk := by
    obtain ⟨c, hc, hlt', hop, hblk, hdata, m, hm, hcur⟩ := h.ret (by rw [← hext.graph.kind]; exact hk)
    have hphi : (s.func.value c).op ≠ .phi := by rw [hop]; decide
    rw [hctl]
    refine ⟨c, hc, hlt'.trans_le hext.size_le, ?_, ?_, fun a ha => ?_, m, ?_, hext.current hlt hcur⟩
    · rw [hext.value c hlt']
      exact hop
    · rw [hext.value c hlt']
      exact hblk
    · rw [hext.dataArgs hlt' hphi] at ha
      exact hext.avail (hdata a ha)
    · rw [hext.memArg? hlt' hphi]
      exact hm

def Touches (ns : List Ir.NodeId) (s s' : Construction) : Prop :=
  s'.nodeValues.size = s.nodeValues.size ∧ ∀ m, m ∉ ns → s'.nodeValues.getD m none = s.nodeValues.getD m none

theorem Lowering.setNodeValue (h : Lowering t b s es) {values : Array (Option ValueId)}
    (htyped : t.types.Made → Typed t { s with nodeValues := values }) :
    Lowering t b { s with nodeValues := values } es ∧ Works b s { s with nodeValues := values } := by
  have hext : Extends s { s with nodeValues := values } :=
    { Extends.refl s h.sound.resolve_resolve with }
  exact ⟨h.keeps hext { h.sound with } { h.rooted with } rfl (fun _ _ he => he) ⟨rfl, fun _ hc => hc, rfl⟩
    htyped, hext, rfl, fun _ _ => rfl, fun _ _ => rfl, fun _ _ _ hx => hx⟩

def NodesDone (t : Task) (b : BlockId) (s : Construction) (ns : List Ir.NodeId) (s' : Construction) :
    Prop :=
  ∃ es', Lowering t b s' es' ∧ s'.Recorded es' ∧ es'.filterMap Event.node? = ns ∧
    Works b s s' ∧ Touches ns s s' ∧ (s'.func.block b).control = (s.func.block b).control

theorem NodesDone.step {pre : List Ir.NodeId} {n : Ir.NodeId} {t1 t3 : Construction}
    {r : Option ValueId} (h : NodesDone t b s pre t1) (hsize : s.nodeValues.size = t.ir.nodes.size)
    (hn : t.ir.NodeOk t.types pre n) (hparams : TypeId.void ∉ t.ir.params)
    (hvoid : (t.ir.node n).kind.takesOut → t.ir.nodeType n = TypeId.void → t.ir.ReadsVoid)
    (hnode : Runs (t.lowerNode b n) t1 r t3) :
    NodesDone t b s (pre ++ [n]) { t3 with nodeValues := t3.nodeValues.setIfInBounds n r } := by
  obtain ⟨es1, h1, hr1, hns1, hext1, htouch1, hctl1⟩ := h
  obtain ⟨es3, h3⟩ := h1.lowerNode hr1 (by rw [hns1]; exact hn) hparams hvoid hnode
  obtain ⟨vs, e, rfl, hen, her⟩ := h3.events
  obtain ⟨h4, hext4⟩ := h3.lowering.setNodeValue fun hmade => (h3.lowering.typed hmade).record (h3.holds hmade)
  have hnodes : (es1 ++ vs.map Event.value).filterMap Event.node? = pre := by
    rw [filterMap_append, hns1, nodes_values, append_nil]
  have hsize3 : n < t3.nodeValues.size := by
    rw [h3.nodeValues, htouch1.1, hsize]
    exact hn.lt
  refine ⟨_, h4, ?_, ?_, (hext1.trans h3.works).trans hext4, ⟨?_, ?_⟩, ?_⟩
  · intro e' he' m hm
    rw [getD_setIfInBounds hsize3]
    rcases mem_append.mp he' with he' | he'
    · have hmem : m ∈ pre := by
        rw [← hnodes]
        exact mem_filterMap.mpr ⟨e', he', hm⟩
      rw [if_neg (by rintro rfl; exact hn.new hmem)]
      exact hr1.append_values h3.nodeValues vs e' he' m hm
    · rw [mem_singleton.mp he'] at hm ⊢
      rw [if_pos (Option.some.inj (hm.symm.trans hen)), her]
  · rw [filterMap_append, hnodes]
    exact congrArg (pre ++ ·) (by rw [filterMap_cons_some hen, filterMap_nil])
  · rw [Array.size_setIfInBounds, h3.nodeValues]
    exact htouch1.1
  · intro m hm
    rw [mem_append, mem_singleton, not_or] at hm
    rw [getD_setIfInBounds_ne hm.2, h3.nodeValues]
    exact htouch1.2 m hm.1
  · exact h3.control.trans hctl1

section

variable (h : Lowering t b s es)

include h

section

variable (hr : s.Recorded es) (hes : es.filterMap Event.node? = [])

include hr hes

theorem Lowering.nodesDone : NodesDone t b s [] s :=
  ⟨es, h, hr, hes, Works.refl h.sound, ⟨rfl, fun _ _ => rfl⟩, rfl⟩

theorem Lowering.lowerNodes {ns : List Ir.NodeId} (hsize : s.nodeValues.size = t.ir.nodes.size)
    (hok : ∀ pre n post, ns = pre ++ n :: post → t.ir.NodeOk t.types pre n)
    (hparams : TypeId.void ∉ t.ir.params) (hvoid : ∀ n ∈ ns, (t.ir.node n).kind.takesOut →
      t.ir.nodeType n = TypeId.void → t.ir.ReadsVoid) {u : PUnit}
    (hrun : Runs (ns.forM fun n => do
      let v ← t.lowerNode b n
      modify fun s => { s with nodeValues := s.nodeValues.setIfInBounds n v }) s u s') :
    NodesDone t b s ns s' := by
  refine runs_forM_invariant (NodesDone t b s) ?_ (h.nodesDone hr hes) hrun
  intro pre n post hsplit t1 t2 h1 hstep
  obtain ⟨r, t3, hnode, hmod⟩ := runs_bind.mp hstep
  obtain rfl := runs_modify.mp hmod
  exact h1.step hsize (hok pre n post hsplit) hparams (hvoid n (mem_iff_append.mpr ⟨_, _, hsplit⟩)) hnode

end

theorem Lowering.grow {g : Func} (hg : s.func.Grows g) (hshape : g.Shape) (hbody : ∀ c, g.body c = s.func.body c)
    (hctl : ∀ c, c ≠ b → (g.block c).control = (s.func.block c).control)
    (hnew : ∀ v, s.func.values.size ≤ v → v < g.values.size → (g.value v).op = .ret ∧
      (t.types.Made → (g.value v).loc = none ∧ ((g.value v).op = .phi ∨
        (g.value v).op.isLeading = false ∧ g.Computes t.ir t.types v))) :
    Lowering t b { s with func := g } es ∧ Works b s { s with func := g } := by
  have hext := extends_grow h.sound hg
  have hrooted := h.rooted.keeps h.sound.shape hext hbody rfl fun v hle hlt => .inr (hnew v hle hlt).1
  have htyped := fun hmade => (h.typed hmade).extends h.sound hext rfl fun v hle hlt => (hnew v hle hlt).2 hmade
  exact ⟨h.keeps hext (sound_grow h.sound hg hext hshape) hrooted (hbody b) (fun _ _ he => he)
    ⟨rfl, fun _ hc => hc, rfl⟩ htyped, hext, rfl, fun c _ => hbody c, hctl, fun _ _ _ hx => hx⟩

theorem Lowering.setControl {c : ValueId} (hrun : Runs (Task.setControl b c) s u s') :
    Lowering t b s' es ∧ Works b s s' ∧ s'.nodeValues = s.nodeValues ∧ (s'.func.block b).control = some c := by
  obtain rfl := runs_modify.mp hrun
  have hg : s.func.Grows (s.func.modifyBlock b ({ · with control := some c })) :=
    ⟨Func.SameGraph.modifyBlock s.func b _ (fun _ => rfl) (fun _ => rfl) fun _ => rfl,
      le_rfl, fun _ _ => rfl, fun _ _ => rfl,
      fun v hle hlt => absurd hlt (not_lt.mpr hle), rfl, le_rfl⟩
  have hbody : ∀ d, (s.func.modifyBlock b ({ · with control := some c })).body d = s.func.body d := by
    intro d
    rw [body, block_modifyBlock]
    split
    · rfl
    · rfl
  obtain ⟨h1, hext⟩ := h.grow hg (h.sound.shape.setControl b (some c)) hbody
    (fun d hd => by rw [block_modifyBlock_other _ _ (Ne.symm hd)])
    fun v hle hlt => absurd hlt (not_lt.mpr hle)
  refine ⟨h1, hext, rfl, ?_⟩
  rw [block_modifyBlock_self _ _ h.lt]

theorem Lowering.newReturn {args : List ValueId} (hlt : ∀ a ∈ args, a < s.func.values.size)
    (haccepts : t.types.Made → Accepts t s .ret TypeId.void .none (if Op.ret.takesMem then args.dropLast else args)) :
    Lowering t b { s with func := (s.func.newValue b .ret TypeId.void args .none).2 } es ∧
      Works b s { s with func := (s.func.newValue b .ret TypeId.void args .none).2 } := by
  have hshape := h.sound.shape
  have hop : Op.ret ≠ .phi := by decide
  refine h.grow (hshape.grows_newValue b TypeId.void .none hop) (hshape.newValue b TypeId.void .none hop hlt)
    (body_newValue hshape b .ret TypeId.void args .none) (fun _ _ => rfl) fun v hle hlt =>
      ⟨?_, fun hmade => (haccepts hmade).newValue rfl rfl rfl rfl hle hlt⟩
  rw [values_size_newValue] at hlt
  rw [(Nat.le_of_lt_succ hlt).antisymm hle, value_newValue_new]

theorem Lowering.returnArgs (hr : s.Recorded es)
    {value : Option Ir.NodeId} (hvalue : ∀ n, value = some n → Done es n) {args : List ValueId}
    (hrun : Runs (t.returnArgs b value) s args s') :
    ∃ es' data tys m, Goes t b s es s' es' ∧ args = data ++ [m] ∧
      List.Forall₂ (s'.Carries t es') data tys ∧ tys.length ≤ 1 ∧ m < s'.func.values.size ∧
      s'.Current b es' .memory m := by
  obtain ⟨m, s1, hread, hrest⟩ := runs_bind.mp hrun
  obtain ⟨hgo, hcur, hfits⟩ := h.readVar hread
  cases value with
  | none =>
    obtain ⟨rfl, rfl⟩ := runs_pure.mp hrest
    exact ⟨es, [], [], m, hgo, rfl, .nil, Nat.zero_le 1, hfits.1, hcur⟩
  | some n =>
    obtain ⟨v, s2, hv, hplace⟩ := runs_bind.mp hrest
    obtain ⟨rfl, hv', -⟩ := hgo.lowering.nodeValue (hgo.recorded hr) (hgo.done (hvalue n rfl)) hv
    cases hptr : t.resultPtr with
    | none =>
      rw [hptr] at hplace
      obtain ⟨rfl, rfl⟩ := runs_pure.mp hplace
      exact ⟨es, [v], _, m, hgo, rfl, .cons hv' .nil, le_refl 1, hfits.1, hcur⟩
    | some ptr =>
      rw [hptr] at hplace
      rcases runs_ite.mp hplace with ⟨hagg, hmoves⟩ | ⟨-, hret⟩
      · obtain ⟨w, hmove, rfl⟩ := runs_bind_pure.mp hmoves
        obtain ⟨hlt, hop, hty⟩ := hgo.lowering.given.resultPtr ptr hptr
        rw [passedType, if_pos hagg] at hv'
        obtain ⟨es', hgo', hav', -, hcur'⟩ :=
          hgo.lowering.moveTo (carries_ptr ⟨hlt, .inl (.inr (.inl hop))⟩ hty) hv' hmove
        exact ⟨es', [], [], w, hgo.trans hgo', rfl, .nil, Nat.zero_le 1, hav'.1, hcur'⟩
      · obtain ⟨rfl, rfl⟩ := runs_pure.mp hret
        exact ⟨es, [v], _, m, hgo, rfl, .cons hv' .nil, le_refl 1, hfits.1, hcur⟩

end

/-- A block that has been lowered, but for the mark that it has been. -/
structure BlockDone (t : Task) (b : BlockId) (s : Construction) (es : List Event)
    (s' : Construction) (es' : List Event) : Prop where
  lowering : Lowering t b s' es'
  closed : Closed t s' b es'
  works : Works b s s'
  nodeValues : s'.nodeValues = s.nodeValues
  values : ∃ vs : List ValueId, es' = es ++ vs.map .value

section Terminator

variable (h : Lowering t b s es) (hr : s.Recorded es) (hopen : (s.func.block b).control = none)

include h hopen

theorem Lowering.done_plain (hk : (s.func.block b).kind = .plain) : BlockDone t b s es s es :=
  ⟨h, ⟨fun _ => hopen, fun hk' => absurd (hk.symm.trans hk') nofun,
    fun hk' => absurd (hk.symm.trans hk') nofun⟩, Works.refl h.sound, rfl, [],
    by rw [map_nil, append_nil]⟩

include hr

omit hopen in
theorem Lowering.lowerReturn (hk : (s.func.block b).kind = .ret) {value : Option Ir.NodeId}
    (hvalue : ∀ n, value = some n → Done es n) (hrun : Runs (do
      let args ← t.returnArgs b value
      let ret ← modifyGet fun s =>
        let (v, func) := s.func.newValue b .ret TypeId.void args .none
        (v, { s with func })
      Task.setControl b ret) s u s') : ∃ es', BlockDone t b s es s' es' := by
  obtain ⟨args, s1, hargs, hrest⟩ := runs_bind.mp hrun
  obtain ⟨ret, s2, hnew, hset⟩ := runs_bind.mp hrest
  obtain ⟨hret, hs2⟩ := Prod.mk.inj (runs_modifyGet.mp hnew)
  replace hret : ret = s1.func.values.size := hret.symm
  replace hs2 : s2 = { s1 with
      func := (s1.func.newValue b .ret TypeId.void args .none).2 } := hs2.symm
  obtain ⟨es1, data, tys, m, hgo, rfl, hcarries, hlen, hm, hcur⟩ := h.returnArgs hr hvalue hargs
  have hdata := avail_of_carries hcarries
  have hlt : ∀ a ∈ data ++ [m], a < s1.func.values.size := by
    intro a ha
    rcases mem_append.mp ha with ha | ha
    · exact (hdata a ha).1
    · rw [mem_singleton.mp ha]
      exact hm
  have hop : Op.ret ≠ .phi := by decide
  have hval := value_newValue_new s1.func b .ret TypeId.void (data ++ [m]) .none
  have harg := args_newValue_new (f := s1.func) b .ret TypeId.void (data ++ [m]) .none
  obtain ⟨h2, hext2⟩ := hgo.lowering.newReturn hlt (by
    rw [Op.takesMem, if_pos rfl, dropLast_concat]
    exact accepts_of_carries hcarries fun _ => hlen)
  rw [← hs2] at h2 hext2
  have hfunc : s2.func = (s1.func.newValue b .ret TypeId.void (data ++ [m]) .none).2 := by rw [hs2]
  rw [← hfunc, ← hret] at hval harg
  obtain ⟨h3, hext3, hnodes, hctl⟩ := h2.setControl hset
  have hlt2 : ret < s2.func.values.size := by
    rw [hret, hs2]
    exact size_lt_newValue ..
  have hop2 : (s2.func.value ret).op = .ret := congrArg Value.op hval
  have hphi : (s2.func.value ret).op ≠ .phi := by rw [hop2]; decide
  have hkind : (s'.func.block b).kind = .ret := by
    rw [((hgo.works.trans hext2).trans hext3).graph.kind]
    exact hk
  refine ⟨es1, h3, ⟨fun hk' => absurd (hkind.symm.trans hk') (by decide),
    fun hk' => absurd (hkind.symm.trans hk') (by decide), fun _ => ⟨ret, hctl,
    hlt2.trans_le hext3.size_le, ?_, ?_, fun a ha => ?_, m, ?_,
    hext3.current h2.value_lt (hext2.current hgo.lowering.value_lt hcur)⟩⟩,
    (hgo.works.trans hext2).trans hext3, ?_, hgo.values⟩
  · rw [hext3.value ret hlt2]
    exact hop2
  · rw [hext3.value ret hlt2]
    exact congrArg Value.block hval
  · rw [hext3.dataArgs hlt2 hphi, dataArgs, harg, hop2, if_neg fun hc => absurd hc.1 hop,
      Op.takesMem, if_pos rfl, dropLast_concat] at ha
    exact hext3.avail (hext2.avail (hdata a ha))
  · rw [hext3.memArg? hlt2 hphi, memArg?, harg, hop2, Op.takesMem, if_pos rfl, getLast?_concat]
  · rw [hnodes, hs2]
    exact hgo.nodeValues

theorem Lowering.lowerTerminator {source : Ir.Block} {nodes : List Ir.NodeId}
    (hnodes : ∀ n ∈ nodes, Done es n) {term : Ir.Terminator} (hterm : source.term = some term)
    (hok : t.ir.TerminatorOk nodes term) (hkind : (s.func.block b).kind = term.kind)
    (hrun : Runs (t.lowerTerminator b source) s u s') : ∃ es', BlockDone t b s es s' es' := by
  rw [Task.lowerTerminator, hterm] at hrun
  cases term with
  | jump target =>
    obtain ⟨-, rfl⟩ := runs_pure.mp hrun
    exact ⟨es, h.done_plain hopen hkind⟩
  | branch cond yes no =>
    have hbody := runs_get_bind.mp hrun
    rcases runs_ite.mp hbody with ⟨hk, hbody⟩ | ⟨hk, hbody⟩
    · obtain ⟨v, s1, hv, hset⟩ := runs_bind.mp hbody
      obtain ⟨rfl, ⟨hav, -⟩, -, hty⟩ := h.nodeValue hr (hnodes cond hok.1) hv
      obtain ⟨h1, hext, hsame, hctl⟩ := h.setControl hset
      rw [hok.2] at hty
      have hkind' : (s'.func.block b).kind = .branch := by
        rw [hext.graph.kind]
        exact hk
      refine ⟨es, h1, ⟨fun hk' => absurd (hkind'.symm.trans hk') nofun,
        fun _ => ⟨v, hctl, hext.avail hav, ?_⟩, fun hk' => absurd (hkind'.symm.trans hk') nofun⟩,
        hext, hsame, [], by rw [map_nil, append_nil]⟩
      rw [hext.value v hav.1]
      exact hty
    · obtain ⟨-, rfl⟩ := runs_pure.mp hbody
      refine ⟨es, h.done_plain hopen ?_⟩
      rw [hkind, Ir.Terminator.kind] at hk ⊢
      split at hk
      · next heq => rw [if_pos heq]
      · exact absurd rfl hk
  | ret value =>
    refine h.lowerReturn hr hkind (fun n hn => ?_) hrun
    subst hn
    exact hnodes n hok.2.1

end Terminator

end Construction

end SsaCodegen
