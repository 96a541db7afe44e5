import SsaCodegen.Proofs.Construction.Nodes

/-! Lowering a block node by node. -/

namespace SsaCodegen.Construction

open List

variable {t : Task} {b : BlockId} {s s' : Construction} {es es' : List Event} {n x : Ir.NodeId}
  {r : Option ValueId} {e : Event} {v : ValueId} {ty : TypeId} {l : Ir.LocalId} {op : Op}

/-- The node `n` has been lowered to `r`. -/
structure Lowered (t : Task) (b : BlockId) (s : Construction) (es : List Event) (n : Ir.NodeId)
    (r : Option ValueId) (s' : Construction) (es' : List Event) : Prop where
  lowering : Lowering t b s' es'
  works : Works b s s'
  nodeValues : s'.nodeValues = s.nodeValues
  control : (s'.func.block b).control = (s.func.block b).control
  events : ∃ (vs : List ValueId) (e : Event), es' = es ++ vs.map .value ++ [e] ∧ e.node? = some n ∧ e.result? = r
  holds : t.types.Made → ∀ v, r = some v → s'.Holds t v (passedType t.types (t.ir.nodeType n))

theorem Lowering.mark (h : Lowering t b s es) (hvalue : e.value? = none) (hfollows : Follows t s b es e)
    (hassigns : ∀ x, e.assigns? s.func x = none) (hlt : ∀ v, e.result? = some v → v < s.func.values.size)
    (hty : ∀ n v, e.node? = some n → e.result? = some v → t.types.isMemoryAggregate (t.ir.nodeType n) = false →
      (s.func.value v).ty = t.ir.nodeType n) : Lowering t b s (es ++ [e]) where
  toLowerable := h.toLowerable
  toTracks := h.toTracks.congr (fun x => by rw [assigned?_snoc, hassigns, Option.none_or])
    (fun _ _ he => he) fun _ hx => hx
  script := h.script.snoc (Extends.refl s h.sound.resolve_resolve)
    (by rw [hvalue]; exact (append_nil _).symm) hfollows hlt hty

theorem Goes.lowered (h : Goes t b s es s' es') (hlow : Lowering t b s' (es' ++ [e]))
    (hn : e.node? = some n) (hr : e.result? = r)
    (hholds : t.types.Made → ∀ v, r = some v → s'.Holds t v (passedType t.types (t.ir.nodeType n))) :
    Lowered t b s es n r s' (es' ++ [e]) := by
  obtain ⟨vs, rfl⟩ := h.values
  exact ⟨hlow, h.works, h.nodeValues, h.control, ⟨vs, e, rfl, hn, hr⟩, hholds⟩

def Plain (t : Task) (n : Ir.NodeId) : Prop :=
  (∀ l, (t.ir.node n).kind = .loadLocal l → t.memoryLocals.getD l none ≠ none) ∧
    ∀ l x, (t.ir.node n).kind = .storeLocal l x → t.memoryLocals.getD l none ≠ none

theorem plain_of_kind (hload : ∀ l, (t.ir.node n).kind ≠ .loadLocal l)
    (hstore : ∀ l x, (t.ir.node n).kind ≠ .storeLocal l x) : Plain t n :=
  ⟨fun l hl => absurd hl (hload l), fun l x hl => absurd hl (hstore l x)⟩

theorem Goes.plain (h : Goes t b s es s' es') (hn : Plain t n) : ∃ es'', Lowered t b s es n none s' es'' :=
  ⟨_, h.lowered (h.lowering.mark rfl
    (.node n none hn.1 hn.2 fun _ hu => absurd hu (by simp)) (fun x => by cases x <;> rfl)
    (fun _ hv => absurd hv (by simp [Event.result?]))
    (fun _ _ _ hv => absurd hv (by simp [Event.result?]))) rfl rfl fun _ _ hv => by cases hv⟩

theorem Gives.plain (h : Gives t b s es s' v ty) (hn : Plain t n)
    (hty : t.types.isMemoryAggregate (t.ir.nodeType n) = false → ty = t.ir.nodeType n)
    (hholds : t.types.Made → ty = passedType t.types (t.ir.nodeType n) ∧ t.ir.MayHold ty) :
    ∃ es', Lowered t b s es n (some v) s' es' := by
  obtain ⟨es', hgo, hav, hvty⟩ := h
  refine ⟨_, hgo.lowered (hgo.lowering.mark (e := .node n (some v)) rfl ?_
    (fun x => by cases x <;> rfl) ?_ ?_) rfl rfl fun hmade u hu => ?_⟩
  · exact .node n (some v) hn.1 hn.2 fun u hu => Option.some.inj hu ▸ hav
  · intro u hu
    obtain rfl := Option.some.inj hu
    exact hav.1
  · intro m u hm hu hagg
    obtain rfl := Option.some.inj hm
    obtain rfl := Option.some.inj hu
    rw [hvty]
    exact hty hagg
  · obtain rfl := Option.some.inj hu
    obtain ⟨heq, hmay⟩ := hholds hmade
    exact ⟨hav.1, hvty.trans heq, heq ▸ hmay⟩

theorem Gives.passed (h : Gives t b s es s' v (passedType t.types (t.ir.nodeType n))) (hn : Plain t n)
    (hmay : t.types.Made → t.ir.MayHold (t.ir.nodeType n)) : ∃ es', Lowered t b s es n (some v) s' es' :=
  h.plain hn passedType_eq fun hmade => ⟨rfl, Ir.Func.mayHold_passed (hmay hmade)⟩

theorem localAt?_type {ir : Ir.Func} (h : (ir.localAt? l).any (·.ty == ty)) :
    l < ir.locals.size ∧ Var.type ir (.slot l) = ty := by
  rw [Option.any_eq_true] at h
  obtain ⟨k, hk, hty⟩ := h
  have hk' : ir.locals[l]? = some k := hk
  refine ⟨(Array.getElem?_eq_some_iff.mp hk').1, ?_⟩
  rw [Var.type, Array.getD_eq_getD_getElem?, hk']
  exact beq_iff_eq.mp hty

section Node

variable (h : Lowering t b s es) (hr : s.Recorded es)

include h hr

omit hr in
theorem Lowering.lowerOp {vs : List ValueId} {tys : List TypeId} {payload : Payload}
    (hrun : Runs (some <$> Task.append b op ty vs payload) s r s')
    (hvs : List.Forall₂ (s.Carries t es) vs tys) (hn : Plain t n)
    (hop : op.isListed = true ∧ op.isLeading = false ∧ op.takesMem = false ∧ op.makesMem = false)
    (hty : ty = t.ir.nodeType n)
    (htakes : t.types.Made → op.Takes t.ir t.types s.func.locals.size ty payload tys ∧
      passedType t.types ty = ty ∧ t.ir.MayHold ty) : ∃ es', Lowered t b s es n r s' es' := by
  obtain ⟨w, hw, rfl⟩ := runs_map.mp hrun
  obtain ⟨hlisted, hlead, hmem, hmakes⟩ := hop
  refine Gives.plain (h.append hw (.of_carries hlisted hlead hvs (fun hmade => (htakes hmade).1) hmem) hmakes)
    hn (fun _ => hty) fun hmade => ?_
  rw [← hty]
  exact ⟨(htakes hmade).2.1.symm, (htakes hmade).2.2⟩

omit hr in
theorem Lowering.lowerRead (hk : (t.ir.node n).kind = .loadLocal l) (hreg : t.memoryLocals.getD l none = none)
    (hl : l < t.ir.locals.size) (hty : Var.type t.ir (.slot l) = t.ir.nodeType n)
    (hmay : t.ir.MayHold (t.ir.nodeType n)) (hrun : Runs (some <$> SsaCodegen.readVar t.ir (.slot l) b) s r s') :
    ∃ es', Lowered t b s es n r s' es' := by
  obtain ⟨v, hv, rfl⟩ := runs_map.mp hrun
  obtain ⟨hgo, hcur, hlt, hfits⟩ := h.readVar hv
  have hvty : (s'.func.value v).ty = t.ir.nodeType n := by
    rw [hty] at hfits
    exact hfits hmay.1
  refine ⟨_, hgo.lowered (hgo.lowering.mark (e := .load n l v) rfl (.load n l v hk hreg hcur)
    (fun x => by cases x <;> rfl) ?_ ?_) rfl rfl fun _ u hu => ?_⟩
  · intro u hu
    obtain rfl := Option.some.inj hu
    exact hlt
  · intro m u hm hu _
    obtain rfl := Option.some.inj hm
    obtain rfl := Option.some.inj hu
    exact hvty
  · obtain rfl := Option.some.inj hu
    rw [passedType_eq (by rw [← hty]; exact h.given.registers l hreg hl)]
    exact ⟨hlt, hvty, hmay⟩

theorem Lowering.lowerWrite (hk : (t.ir.node n).kind = .storeLocal l x)
    (hreg : t.memoryLocals.getD l none = none) (hx : Done es x) (hl : l < t.ir.locals.size)
    (hty : Var.type t.ir (.slot l) = t.ir.nodeType x) (hv : Runs (t.nodeValue x) s v s)
    (hs' : s' = s.assign (.slot l) b v) : ∃ es', Lowered t b s es n none s' es' := by
  obtain ⟨-, hcarries, hoperand, hvty⟩ := h.nodeValue hr hx hv
  have hfits : s.Fits t.ir (.slot l) v := by
    refine ⟨hcarries.1.1, fun _ => ?_⟩
    rw [hty]
    apply hvty
    rw [← hty]
    exact h.given.registers l hreg hl
  have hscript := h.script.snoc (Extends.refl s h.sound.resolve_resolve) (append_nil _).symm
      (.store n l x v hk hreg hoperand) (fun _ hu => absurd hu (by simp [Event.result?]))
      (fun _ _ _ hu => absurd hu (by simp [Event.result?]))
  have hassigns : ∀ y, (Event.store n l v).assigns? s.func y = if y = .slot l then some v else none := by
    intro y
    cases y with
    | memory => rfl
    | slot k =>
      rw [Event.assigns?]
      by_cases hkl : l = k
      · rw [if_pos hkl, if_pos (congrArg Var.slot hkl.symm)]
      · rw [if_neg hkl, if_neg fun hc => hkl (Var.slot.inj hc).symm]
  obtain ⟨hlow, hext⟩ := Lowering.of_assign h.toLowerable h.toTracks hscript hassigns hfits
  subst hs'
  exact ⟨_, hlow, hext, nodeValues_assign, by rw [func_assign], ⟨[], .store n l v,
    by rw [map_nil, append_nil], rfl, rfl⟩, fun _ _ hu => by cases hu⟩

variable (hok : t.ir.NodeOk t.types (es.filterMap Event.node?) n)

include hok

omit h hr in
theorem operand_done {a : Ir.NodeId} (ha : a ∈ (t.ir.node n).kind.operands) : Done es a := by
  obtain ⟨e, he, hea⟩ := mem_filterMap.mp (hok.operands a ha)
  exact ⟨e, he, hea⟩

/-- Lowering a node goes on with the script of the block, and gives the node a value unless it has no result. -/
theorem Lowering.lowerNode (hparams : TypeId.void ∉ t.ir.params)
    (hvoid : (t.ir.node n).kind.takesOut → t.ir.nodeType n = TypeId.void → t.ir.ReadsVoid)
    (hrun : Runs (t.lowerNode b n) s r s') : ∃ es', Lowered t b s es n r s' es' := by
  have htyped := hok.typed
  have hne : t.ir.nodeType n ≠ TypeId.mem := by
    have := hok.type
    rw [Ir.Func.isValueType, Bool.and_eq_true, bne_iff_ne] at this
    exact this.2
  have hdone : ∀ {a}, a ∈ (t.ir.node n).kind.operands → Done es a := operand_done hok
  have hvalue : ∀ {a} {k : ValueId → Build (Option ValueId)}, a ∈ (t.ir.node n).kind.operands →
      Runs (t.nodeValue a >>= k) s r s' →
      ∃ v, s.Carries t es v (passedType t.types (t.ir.nodeType a)) ∧ Runs (k v) s r s' := by
    intro a k ha hrun
    obtain ⟨v, s1, hv, hrest⟩ := runs_bind.mp hrun
    obtain ⟨rfl, hcarries, -⟩ := h.nodeValue hr (hdone ha) hv
    exact ⟨v, hcarries, hrest⟩
  have hplain : (∀ l, (t.ir.node n).kind ≠ .loadLocal l) →
      (∀ l x, (t.ir.node n).kind ≠ .storeLocal l x) → Plain t n := plain_of_kind
  have hinteger : ∀ {ty}, t.types.Made → t.types.isInteger ty →
      passedType t.types ty = ty ∧ t.ir.MayHold ty := fun hmade hty =>
    ⟨passedType_integer hmade hty, Ir.Func.mayHold_integer hmade hty⟩
  -- an operand that is a pointer
  have hpointer : ∀ {x v} {s1 : Construction}, t.ir.nodeType x = TypeId.ptr →
      s1.Carries t es v (passedType t.types (t.ir.nodeType x)) → s1.Carries t es v TypeId.ptr := by
    intro x v s1 hx hv
    refine ⟨hv.1, fun hmade => ?_⟩
    rw [← (hinteger hmade hmade.integer_ptr).1, ← hx]
    exact hv.2 hmade
  rw [Task.lowerNode] at hrun
  rw [Ir.Func.wellTyped] at htyped
  generalize hk : (t.ir.node n).kind = kind at hrun htyped hplain hvalue hdone hvoid
  cases kind with
  | param i =>
    obtain ⟨rfl, rfl⟩ := runs_pure.mp hrun
    have hparam : t.ir.params[i]? = some (t.ir.nodeType n) := beq_iff_eq.mp htyped
    obtain ⟨v, hv, hlt, hop, hty⟩ := h.given.params i _ hparam
    have hget : t.params.getD i 0 = v := by
      rw [getD_eq_getElem?_getD, hv]
      rfl
    rw [hget]
    refine Gives.passed ⟨es, Goes.refl h, ⟨hlt, .inl (.inl hop)⟩, hty⟩ (hplain nofun nofun)
      fun _ => ⟨hne, fun hzero => ?_⟩
    rw [hzero] at hparam
    exact absurd (mem_of_getElem? hparam) hparams
  | const value =>
    obtain ⟨v, hv, rfl⟩ := runs_map.mp hrun
    refine Gives.plain (h.constant htyped hv) (hplain nofun nofun) (fun _ => rfl) fun hmade => ?_
    obtain ⟨hpass, hmay⟩ := hinteger hmade htyped
    exact ⟨hpass.symm, hmay⟩
  | binary op x y =>
    simp only [Bool.and_eq_true, beq_iff_eq] at htyped
    obtain ⟨⟨hint, hxty⟩, hyty⟩ := htyped
    obtain ⟨v, hv', hrest⟩ := hvalue mem_cons_self hrun
    obtain ⟨w, hw', happ⟩ := hvalue (.tail _ mem_cons_self) hrest
    refine h.lowerOp happ (.cons hv' (.cons hw' .nil)) (hplain nofun nofun) ?_ rfl fun hmade => ⟨?_, ?_⟩
    · cases op <;> cases t.types.isSigned (t.ir.nodeType n) <;> exact ⟨rfl, rfl, rfl, rfl⟩
    · rw [hxty, hyty, show passedType t.types (t.ir.node n).ty = t.ir.nodeType n from (hinteger hmade hint).1]
      cases op <;> cases t.types.isSigned (t.ir.nodeType n) <;> exact ⟨hint, rfl⟩
    · exact hinteger hmade hint
  | unary op x =>
    simp only [Bool.and_eq_true, beq_iff_eq] at htyped
    obtain ⟨hint, hxty⟩ := htyped
    obtain ⟨v, hv', hrest⟩ := hvalue mem_cons_self hrun
    refine h.lowerOp hrest (.cons hv' .nil) (hplain nofun nofun) ?_ rfl fun hmade => ⟨?_, ?_⟩
    · cases op <;> exact ⟨rfl, rfl, rfl, rfl⟩
    · rw [hxty, show passedType t.types (t.ir.node n).ty = t.ir.nodeType n from (hinteger hmade hint).1]
      cases op <;> exact ⟨hint, rfl⟩
    · exact hinteger hmade hint
  | cmp rel x y =>
    simp only [Bool.and_eq_true, beq_iff_eq] at htyped
    obtain ⟨⟨hbool, hint⟩, hsame⟩ := htyped
    obtain ⟨v, hv', hrest⟩ := hvalue mem_cons_self hrun
    obtain ⟨w, hw', happ⟩ := hvalue (.tail _ mem_cons_self) hrest
    refine h.lowerOp happ (.cons hv' (.cons hw' .nil)) (hplain nofun nofun) ⟨rfl, rfl, rfl, rfl⟩ hbool.symm
      fun hmade => ⟨⟨rfl, ⟨rel, rfl⟩, t.ir.nodeType x, hint, ?_⟩, hinteger hmade hmade.integer_bool⟩
    rw [← hsame, (hinteger hmade hint).1]
  | convert c x =>
    obtain ⟨hsource, hint⟩ := Bool.and_eq_true_iff.mp (Bool.and_eq_true_iff.mp htyped).1
    obtain ⟨v, hv', hrest⟩ := hvalue mem_cons_self hrun
    refine h.lowerOp hrest (.cons hv' .nil) (hplain nofun nofun) ?_ rfl fun hmade => ⟨?_, ?_⟩
    · cases c <;> exact ⟨rfl, rfl, rfl, rfl⟩
    · rw [(hinteger hmade hsource).1]
      cases c <;> exact ⟨hint, _, hsource, rfl⟩
    · exact hinteger hmade hint
  | loadLocal l =>
    have hmay : t.ir.MayHold (t.ir.nodeType n) := ⟨hne, hvoid rfl⟩
    obtain ⟨hl, hty⟩ := localAt?_type htyped
    dsimp only at hrun
    split at hrun
    · next hreg => exact h.lowerRead hk hreg hl hty hmay hrun
    · next slot hslot =>
      obtain ⟨addr, s1, haddr, hrest⟩ := runs_bind.mp hrun
      obtain ⟨v, hv, rfl⟩ := runs_map.mp hrest
      obtain ⟨es1, hgo1, hav1, hty1⟩ := h.localAddr (h.given.slots l slot hslot) haddr
      obtain ⟨es2, hgo2, hav2, hty2⟩ := hgo1.lowering.fetch (carries_ptr hav1 hty1) hmay hv
      refine Gives.passed ⟨es2, hgo1.trans hgo2, hav2, hty2⟩ ⟨fun k hk' => ?_, fun k x hk' => ?_⟩ fun _ => hmay
      · obtain rfl := Ir.NodeKind.loadLocal.inj (hk.symm.trans hk')
        rw [hslot]
        exact Option.some_ne_none slot
      · exact absurd (hk.symm.trans hk') nofun
  | storeLocal l x =>
    obtain ⟨v, s1, hv, hrest⟩ := runs_bind.mp hrun
    obtain ⟨rfl, hv', -⟩ := h.nodeValue hr (hdone mem_cons_self) hv
    rw [Bool.and_eq_true] at htyped
    obtain ⟨hl, hty⟩ := localAt?_type htyped.1
    split at hrest
    · next hreg =>
      obtain ⟨_, hmod, rfl⟩ := runs_bind_pure.mp hrest
      exact h.lowerWrite hr hk hreg (hdone mem_cons_self) hl hty hv (runs_modify.mp hmod)
    · next slot hslot =>
      obtain ⟨addr, s2, haddr, hstores⟩ := runs_bind.mp hrest
      obtain ⟨_, hstore, rfl⟩ := runs_bind_pure.mp hstores
      obtain ⟨es1, hgo1, hav1, hty1⟩ := h.localAddr (h.given.slots l slot hslot) haddr
      rw [hty] at hstore
      obtain ⟨es2, hgo2⟩ := hgo1.lowering.storeTo (carries_ptr hav1 hty1) (hgo1.carries hv') hstore
      refine (hgo1.trans hgo2).plain ⟨fun k hk' => ?_, fun k y hk' => ?_⟩
      · exact absurd (hk.symm.trans hk') nofun
      · obtain ⟨rfl, -⟩ := Ir.NodeKind.storeLocal.inj (hk.symm.trans hk')
        rw [hslot]
        exact Option.some_ne_none slot
  | addrOf l =>
    simp only [Bool.and_eq_true, beq_iff_eq] at htyped
    have hty : TypeId.ptr = t.ir.nodeType n := htyped.2.symm
    dsimp only at hrun
    split at hrun
    · exact (runs_throw.mp hrun).elim
    · next slot hslot =>
      obtain ⟨v, hv, rfl⟩ := runs_map.mp hrun
      refine Gives.plain (h.localAddr (h.given.slots l slot hslot) hv) (hplain nofun nofun) (fun _ => hty)
        fun hmade => ⟨?_, t.ir.mayHold_ptr⟩
      rw [← hty, (hinteger hmade hmade.integer_ptr).1]
  | load ptr =>
    simp only [Bool.and_eq_true, beq_iff_eq, bne_iff_ne] at htyped
    obtain ⟨p, hp', hrest⟩ := hvalue mem_cons_self hrun
    obtain ⟨v, hv, rfl⟩ := runs_map.mp hrest
    have hmay : t.ir.MayHold (t.ir.nodeType n) := ⟨hne, fun hzero => absurd hzero htyped.2⟩
    exact Gives.passed (h.fetch (hpointer htyped.1 hp') hmay hv) (hplain nofun nofun) fun _ => hmay
  | store ptr x =>
    simp only [Bool.and_eq_true, beq_iff_eq] at htyped
    obtain ⟨p, hp', hrest⟩ := hvalue mem_cons_self hrun
    obtain ⟨v, hv', hstores⟩ := hvalue (.tail _ mem_cons_self) hrest
    obtain ⟨_, hstore, rfl⟩ := runs_bind_pure.mp hstores
    obtain ⟨es', hgo⟩ := h.storeTo (hpointer htyped.1 hp') hv' hstore
    exact hgo.plain (hplain nofun nofun)
  | offset ptr bytes =>
    simp only [Bool.and_eq_true, beq_iff_eq] at htyped
    obtain ⟨v, hv', hrest⟩ := hvalue mem_cons_self hrun
    exact h.lowerOp hrest (.cons (hpointer htyped.1 hv') .nil) (hplain nofun nofun) ⟨rfl, rfl, rfl, rfl⟩
      htyped.2.symm fun hmade => ⟨⟨rfl, ⟨bytes, rfl⟩, rfl⟩, hinteger hmade hmade.integer_ptr⟩
  | global name =>
    simp only [Bool.and_eq_true, beq_iff_eq] at htyped
    exact h.lowerOp hrun .nil (hplain nofun nofun) ⟨rfl, rfl, rfl, rfl⟩ htyped.2.symm
      fun hmade => ⟨⟨rfl, ⟨name, rfl⟩, rfl⟩, hinteger hmade hmade.integer_ptr⟩
  | call callee args fixed =>
    rcases h.lowerCall hr (fun m hm => hdone hm) hrun with ⟨es', hgo, rfl⟩ | ⟨v, rfl, hgives, hzero⟩
    · exact hgo.plain (hplain nofun nofun)
    · exact hgives.passed (hplain nofun nofun) fun hmade => ⟨hne, fun h => absurd h (hzero hmade)⟩
  | aggregate fields =>
    simp only [Bool.and_eq_true, beq_iff_eq, all_eq_true] at htyped
    obtain ⟨v, hv, rfl⟩ := runs_map.mp hrun
    obtain ⟨hgives, hmay⟩ := h.lowerAggregate hr (fun m hm => hdone hm) hne
      ⟨htyped.1, fun i m hm => htyped.2 (m, i) (mem_zipIdx_iff_getElem?.mpr hm)⟩ hv
    exact hgives.passed (hplain nofun nofun) hmay
  | extract x i =>
    have hmay : t.ir.MayHold (t.ir.nodeType n) := ⟨hne, hvoid rfl⟩
    obtain ⟨v, hv, rfl⟩ := runs_map.mp hrun
    obtain ⟨ty, hgives, hty, hpass⟩ := h.lowerExtract hr (hdone mem_cons_self) (beq_iff_eq.mp htyped) hmay hv
    refine hgives.plain (hplain nofun nofun) hty fun hmade => ⟨hpass hmade, ?_⟩
    rw [hpass hmade]
    exact Ir.Func.mayHold_passed hmay
  | zero ptr zeroed =>
    simp only [Bool.and_eq_true, beq_iff_eq] at htyped
    obtain ⟨p, hp', hrest⟩ := hvalue mem_cons_self hrun
    obtain ⟨v, hzero, rfl⟩ := runs_bind_pure.mp hrest
    obtain ⟨es', hgo, -⟩ := h.effect hzero rfl rfl rfl rfl (.cons (hpointer htyped.1.1 hp') .nil)
      fun _ _ => ⟨rfl, ⟨_, rfl⟩, rfl⟩
    exact hgo.plain (hplain nofun nofun)
  | copy x =>
    have hsame : t.ir.nodeType x = t.ir.nodeType n := beq_iff_eq.mp htyped
    obtain ⟨v, hv', hrest⟩ := hvalue mem_cons_self hrun
    rw [hsame] at hv'
    rcases runs_ite.mp hrest with ⟨hagg, hret⟩ | ⟨hagg, hcopy⟩
    · obtain ⟨rfl, rfl⟩ := runs_pure.mp hret
      refine Gives.plain ⟨es, Goes.refl h, hv'.1, rfl⟩ (hplain nofun nofun) (fun hno => ?_) fun hmade => ?_
      · exact absurd hagg (by rw [hno]; exact Bool.false_ne_true)
      · obtain ⟨-, hty, hmay⟩ := hv'.2 hmade
        exact ⟨hty, hty ▸ hmay⟩
    · rw [passedType_eq (Bool.eq_false_iff.mpr hagg)] at hv'
      exact h.lowerOp hcopy (.cons hv' .nil) (hplain nofun nofun) ⟨rfl, rfl, rfl, rfl⟩ rfl fun hmade =>
        ⟨⟨(hv'.2 hmade).may, rfl⟩, passedType_eq (Bool.eq_false_iff.mpr hagg), (hv'.2 hmade).may⟩

end Node

end SsaCodegen.Construction
