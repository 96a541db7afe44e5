import SsaCodegen.Proofs.Construction.Form
import SsaCodegen.Proofs.Tokens

/-! Along every walk a variable has, in the finished function, the token of what was last assigned to
it. -/

namespace SsaCodegen

open List Func Event Option

/-- The operand of the last assignment to a local among some nodes. -/
def Ir.Func.storeIn (ir : Ir.Func) (l : Ir.LocalId) (ns : List Ir.NodeId) : Option Ir.NodeId :=
  ns.reverse.findSome? fun n => match (ir.node n).kind with
    | .storeLocal l' x => if l' = l then some x else none
    | _ => none

namespace Construction

variable {bs : List BlockId} {l : Ir.LocalId} {f : Func} {ns ns' : List Ir.NodeId} {n : Ir.NodeId}
  {vs : List ValueId}

def valueOf (s : Construction) (n : Ir.NodeId) : Option ValueId :=
  (s.nodeValues.getD n none).map s.resolve

/-- The token of what was last assigned to a local, when a walk has come past the nodes `ns` of its last
block and `before` was the token at the start of that block. -/
def storedPast (t : Task) (s : Construction) (f : Func) (l : Ir.LocalId) (bs : List BlockId)
    (ns : List Ir.NodeId) (before : Option Token) : Option Token :=
  match t.ir.storeIn l ns with
  | some x => (s.valueOf x).bind (f.tokens bs)
  | none => before

def lastStored (t : Task) (s : Construction) (f : Func) (l : Ir.LocalId) : List BlockId → Option Token
  | [] => none
  | b :: rest => storedPast t s f l (b :: rest) (sourceNodes t b) (lastStored t s f l rest)

variable {t : Task} {s : Construction} {b : BlockId} {es pre post : List Event} {x : Var}
  {u v : ValueId} {rest : List BlockId}

/-- `E` gives for every walk the token of what was last assigned to a variable. -/
structure Traces (t : Task) (s : Construction) (x : Var) (E : List BlockId → Option Token) : Prop where
  assigned : ∀ b rest es w, Finished t s b es → assigned? s.func x es = some w →
    E (b :: rest) = s.pruned.tokens (b :: rest) (s.resolve w)
  kept : ∀ b rest es, Finished t s b es → assigned? s.func x es = none → E (b :: rest) = E rest

theorem Traces.eq_some {E : List BlockId → Option Token} (hE : Traces t s x E)
    (hfin : Finished t s b es) {tok : Token} (hassigned : ∀ w, assigned? s.func x es = some w →
      s.pruned.tokens (b :: rest) (s.resolve w) = some tok)
    (hnone : assigned? s.func x es = none → E rest = some tok) : E (b :: rest) = some tok := by
  cases hw : assigned? s.func x es with
  | some w => rw [hE.assigned b rest es w hfin hw, hassigned w hw]
  | none => rw [hE.kept b rest es hfin hw, hnone hw]

def TokenAt (s : Construction) (x : Var) (E : List BlockId → Option Token) (bs : List BlockId) : Prop :=
  ∀ b rest, bs = b :: rest → ∀ v, s.EndsWith x b v → s.Kept (s.resolve v) →
    ∃ tok, s.pruned.tokens bs (s.resolve v) = some tok ∧ E bs = some tok

section

variable {E : List BlockId → Option Token} (h : Complete t s) (hform : s.pruned.SsaForm)
  (htrail : Trail s.func (b :: rest)) (hprev : s.TokenAt x E rest)

include h hform htrail hprev

theorem Complete.token_start (hv : s.StartsWith x b v) (hkept : s.Kept (s.resolve v)) :
    ∃ tok, E rest = some tok ∧ ∀ vs, (∀ w ∈ vs, w ∈ (s.pruned.block b).values) →
      s.pruned.tokensPast rest b vs (s.resolve v) = some tok := by
  have hne : (s.func.block b).preds ≠ [] → ∃ q rest', rest = q :: rest' := by
    intro hne
    cases rest with
    | nil =>
      cases htrail with
      | start => exact absurd h.flow.entry_preds hne
    | cons q rest' => exact ⟨q, rest', rfl⟩
  rcases h.starts_cases hv with hp | ⟨hpreds, hall⟩
  · have hmem : s.resolve v ∈ (s.pruned.block b).values := by
      have := hkept hp.op
      rwa [hp.block] at this
    obtain ⟨-, -, -, htwo⟩ := h.sound.shape.phi _ hp.lt hp.op
    obtain ⟨q, rest', rfl⟩ := hne (by
      rintro hnil
      rw [hp.block, hnil] at htwo
      exact absurd htwo (by decide))
    obtain ⟨k, a, hq, ha, hends⟩ := h.operand hp (htrail.head_pred h.flow)
    have harg : (s.pruned.args (s.resolve v))[k]? = some (s.resolve a) := by
      rw [args_pruned, getElem?_map, ha, map_some]
    obtain ⟨tok, htok, hE⟩ := hprev q rest' rfl a hends fun hop =>
      h.operand_placed (mem_of_getElem? harg) hop (.inr hmem)
    rw [← (sameGraph_pruned s).preds] at hq
    refine ⟨tok, hE, fun vs _ => ?_⟩
    rw [tokensPast_of_phi (f := s.pruned) hp.op, head?_cons, mergeTokens_of_phi hform.flow hmem hp.op hq harg]
    exact htok
  · obtain ⟨q, rest', rfl⟩ := hne hpreds
    obtain ⟨tok, htok, hE⟩ := hprev q rest' rfl v (hall q (htrail.head_pred h.flow)) hkept
    refine ⟨tok, hE, fun vs hvs => ?_⟩
    rw [tokensPast_of_not_mem hvs fun hmem => h.host_ne hpreds hall (h.placed hmem).2]
    exact htok

/-- After some events of a block a variable has the token of what was assigned to it in the block, or
the token that it had before. -/
theorem Complete.token_current (hfin : Finished t s b es) (hsplit : es = pre ++ post)
    (hcur : s.Current b pre x v) (hkept : s.Kept (s.resolve v)) :
    ∃ tok, s.pruned.tokens (b :: rest) (s.resolve v) = some tok ∧ (∀ w, assigned? s.func x pre = some w →
        s.pruned.tokens (b :: rest) (s.resolve w) = some tok) ∧
      (assigned? s.func x pre = none → E rest = some tok) := by
  have hb := htrail.lt h.flow b mem_cons_self
  cases hw : assigned? s.func x pre with
  | some w =>
    have hprov : s.Provided b es (s.resolve v) := ((h.provided hb hfin hsplit).2 x v hcur).mono
      fun e he => by rw [hsplit]; exact mem_append_left post he
    rw [Current, hw] at hcur
    obtain ⟨c, hc, hdom⟩ := h.atEnd_of_provided hfin hkept hprov
    have htrail' := htrail.congr (sameGraph_pruned s)
    obtain ⟨tok, htok⟩ := hform.exists_token htrail' _ c (hdom rest htrail') hc
    refine ⟨tok, htok, fun w' hw' => ?_, fun hnone => absurd hnone (some_ne_none w)⟩
    rw [← some.inj hw', hcur]
    exact htok
  | none =>
    rw [Current, hw] at hcur
    obtain ⟨tok, hE, hpast⟩ := h.token_start hform htrail hprev hcur hkept
    exact ⟨tok, hpast _ fun _ hw => hw, fun w hw => absurd hw.symm (some_ne_none w), fun _ => hE⟩

end

section

variable {E : List BlockId → Option Token} (h : Complete t s) (hform : s.pruned.SsaForm)

include h hform

theorem Complete.token_end (hE : Traces t s x E) (htrail : Trail s.func bs) : s.TokenAt x E bs := by
  have hlast : ∀ b rest, Trail s.func (b :: rest) → s.TokenAt x E rest → s.TokenAt x E (b :: rest) := by
    rintro b rest htrail hprev _ _ hsplit v hv hkept
    obtain ⟨rfl, rfl⟩ := List.cons.inj hsplit
    obtain ⟨es, hfin⟩ := h.finished b (htrail.lt h.flow b mem_cons_self)
    obtain ⟨tok, htok, hassigned, hnone⟩ := h.token_current hform htrail hprev hfin
      (append_nil es).symm (hfin.current h.sound hv) hkept
    exact ⟨tok, htok, hE.eq_some hfin hassigned hnone⟩
  induction htrail with
  | start => exact hlast _ [] .start fun _ _ hnil => absurd hnil nofun
  | step trail edge ih => exact hlast _ _ (.step trail edge) ih

theorem Complete.token_before (hE : Traces t s x E) (htrail : Trail s.func (b :: rest)) : s.TokenAt x E rest := by
  intro q rest' hq
  rw [hq] at htrail ⊢
  exact h.token_end hform hE htrail.tail.1 q rest' rfl

end

theorem storeIn_snoc (ir : Ir.Func) (l : Ir.LocalId) (ns : List Ir.NodeId) (n : Ir.NodeId) :
    ir.storeIn l (ns ++ [n]) = (match (ir.node n).kind with
      | .storeLocal l' x => if l' = l then some x else none
      | _ => none).or (ir.storeIn l ns) := by
  rw [Ir.Func.storeIn, reverse_append, reverse_singleton, singleton_append, findSome?_cons]
  split <;> next heq => rw [heq]; rfl

theorem Finished.assigned?_slot (hfin : Finished t s b es) (hreg : t.memoryLocals.getD l none = none) :
    ∀ pre post, es = pre ++ post →
      t.ir.storeIn l (pre.filterMap node?) = none ∧ assigned? s.func (.slot l) pre = none ∨
      ∃ x w, t.ir.storeIn l (pre.filterMap node?) = some x ∧
        s.nodeValues.getD x none = some w ∧ assigned? s.func (.slot l) pre = some w := by
  intro pre
  induction pre using List.reverseRecOn with
  | nil => exact fun _ _ => .inl ⟨rfl, rfl⟩
  | append_singleton pre e ih =>
    intro post hpost
    rw [append_assoc] at hpost
    have hbefore := ih _ hpost
    rw [filterMap_append, assigned?_snoc]
    cases hfin.script.follows pre e post hpost with
    | value v lt op data memory =>
      rw [show [value v].filterMap node? = [] from rfl]
      simpa [assigns?] using hbefore
    | store n l' x v kind reg operand =>
      rw [show [store n l' v].filterMap node? = [n] from rfl, storeIn_snoc, kind]
      by_cases hl : l' = l
      · obtain ⟨e', he', hx, hv⟩ := operand
        have hrec := hfin.recorded e' (by rw [hpost]; exact mem_append_left _ he') x hx
        refine .inr ⟨x, v, by simp [hl], by rw [hrec, hv], by simp [assigns?, hl]⟩
      · simpa [assigns?, hl] using hbefore
    | load n l' v kind reg current =>
      rw [show [load n l' v].filterMap node? = [n] from rfl, storeIn_snoc, kind]
      simpa [assigns?] using hbefore
    | node n v load store result =>
      rw [show [node n v].filterMap node? = [n] from rfl, storeIn_snoc]
      have hnone : (match (t.ir.node n).kind with
          | .storeLocal l' x => if l' = l then some x else none
          | _ => none) = none := by
        split
        · next l' x kind =>
          rw [if_neg]
          rintro rfl
          exact store l' x kind hreg
        · rfl
      rw [hnone]
      simpa [assigns?] using hbefore

theorem storedPast_of_some {before : Option Token} {w : ValueId} (hn : t.ir.storeIn l ns = some n)
    (hw : s.nodeValues.getD n none = some w) :
    storedPast t s f l bs ns before = f.tokens bs (s.resolve w) := by
  rw [storedPast, hn]
  dsimp only
  rw [valueOf, hw]
  rfl

theorem storedPast_of_none {before : Option Token} (hn : t.ir.storeIn l ns = none) :
    storedPast t s f l bs ns before = before := by
  rw [storedPast, hn]

theorem traces_slot (hreg : t.memoryLocals.getD l none = none) :
    Traces t s (.slot l) (lastStored t s s.pruned l) := by
  refine ⟨fun b rest es w hfin hw => ?_, fun b rest es hfin hnone => ?_⟩
  · rcases hfin.assigned?_slot hreg es [] (append_nil es).symm with ⟨-, hnone⟩ | ⟨n, w', hn, hw', hs⟩
    · exact absurd (hnone.symm.trans hw) nofun
    · obtain rfl := some.inj (hs.symm.trans hw)
      rw [lastStored, ← hfin.nodes]
      exact storedPast_of_some hn hw'
  · rcases hfin.assigned?_slot hreg es [] (append_nil es).symm with ⟨hn, -⟩ | ⟨n, w', -, -, hs⟩
    · rw [lastStored, ← hfin.nodes]
      exact storedPast_of_none hn
    · exact absurd (hnone.symm.trans hs) nofun

/-- A load of a local in registers reads what the local is after the nodes before it. -/
theorem Finished.load_current (hfin : Finished t s b es) (hnodes : sourceNodes t b = ns ++ n :: ns')
    (hkind : (t.ir.node n).kind = .loadLocal l) (hreg : t.memoryLocals.getD l none = none) :
    ∃ pre post v, es = pre ++ .load n l v :: post ∧ pre.filterMap node? = ns ∧ s.Current b pre (.slot l) v := by
  obtain ⟨pre, e, post, hsplit, hpre, he⟩ : ∃ pre e post, es = pre ++ e :: post ∧
      pre.filterMap node? = ns ∧ e.node? = some n := by
    rw [← hfin.nodes] at hnodes
    obtain ⟨front, back, rfl, hfront, hback⟩ := filterMap_eq_append_iff.mp hnodes
    obtain ⟨skipped, e, post, rfl, hskip, he, -⟩ := filterMap_eq_cons_iff.mp hback
    refine ⟨front ++ skipped, e, post, (append_assoc ..).symm, ?_, he⟩
    rw [filterMap_append, filterMap_eq_nil_iff.mpr hskip, append_nil, hfront]
  cases hfin.script.follows pre e post hsplit with
  | value => cases he
  | store n' l' x v kind =>
    obtain rfl := some.inj he
    exact absurd (kind.symm.trans hkind) nofun
  | node n' v load store result =>
    obtain rfl := some.inj he
    exact absurd hreg (load l hkind)
  | load n' l' v kind reg current =>
    obtain rfl := some.inj he
    obtain rfl : l' = l := by
      rw [hkind] at kind
      exact (Ir.NodeKind.loadLocal.inj kind).symm
    exact ⟨pre, post, v, hsplit, hpre, current⟩

theorem Complete.token_load (h : Complete t s) (hform : s.pruned.SsaForm)
    (htrail : Trail s.func (b :: rest)) (hnodes : sourceNodes t b = ns ++ n :: ns')
    (hkind : (t.ir.node n).kind = .loadLocal l) (hreg : t.memoryLocals.getD l none = none) :
    ∃ v, s.valueOf n = some v ∧ (s.Kept v → ∃ tok, s.pruned.tokens (b :: rest) v = some tok ∧
      storedPast t s s.pruned l (b :: rest) ns (lastStored t s s.pruned l rest) = some tok) := by
  obtain ⟨es, hfin⟩ := h.finished b (htrail.lt h.flow b mem_cons_self)
  obtain ⟨pre, post, v, hsplit, hpre, hcur⟩ := hfin.load_current hnodes hkind hreg
  have hrec := hfin.recorded _ (mem_iff_append.mpr ⟨_, _, hsplit⟩) n rfl
  refine ⟨s.resolve v, by rw [valueOf, hrec]; rfl, fun hkept => ?_⟩
  obtain ⟨tok, htok, hassigned, hnone⟩ := h.token_current hform htrail
    (h.token_before hform (traces_slot hreg) htrail) hfin hsplit hcur hkept
  refine ⟨tok, htok, ?_⟩
  rcases hfin.assigned?_slot hreg pre _ hsplit with ⟨hn, hs⟩ | ⟨x, w, hn, hw, hs⟩
  · rw [← hpre, storedPast_of_none hn]
    exact hnone hs
  · rw [← hpre, storedPast_of_some hn hw]
    exact hassigned w hs

theorem assigned?_memory (f : Func) (es : List Event) : assigned? f .memory es =
    (es.filterMap value?).reverse.find? fun v => (f.value v).op.makesMem := by
  induction es using List.reverseRecOn with
  | nil => rfl
  | append_singleton es e ih =>
    rw [assigned?_snoc, ih, filterMap_append, reverse_append]
    cases e with
    | value v =>
      rw [assigns?]
      by_cases hm : (f.value v).op.makesMem <;> simp [value?, hm]
    | store n l v => rfl
    | load n l v => rfl
    | node n v => rfl

section

variable (h : Complete t s)

include h

/-- The last memory state in the first values of a block is that after the events that they are from. -/
theorem Complete.memoryIn_eq {ps lead back : List ValueId} (hl : s.Layout b ps lead back)
    (hpre : pre.filterMap value? = lead ++ vs) (step : Nat) : s.pruned.memoryIn step
      (ps ++ lead ++ (if b = s.func.entry then s.consts.map (·.2) else []) ++ vs) =
      (assigned? s.func .memory pre).map (·, step) := by
  have hphi : ps.reverse.find? (fun v => (s.func.value v).op.makesMem) = none := by
    rw [find?_eq_none]
    intro p hp
    obtain ⟨⟨x, hx⟩, -⟩ := (hl.phi p).mp (mem_reverse.mp hp)
    rw [hx.op]
    decide
  have hconst : (if b = s.func.entry then s.consts.map (·.2) else []).reverse.find?
      (fun v => (s.func.value v).op.makesMem) = none := by
    rw [find?_eq_none]
    intro c hc
    rw [mem_reverse] at hc
    split at hc
    · rw [(h.const_op hc).2.1]
      decide
    · cases hc
  change Option.map _ (List.find? (fun v => (s.func.value v).op.makesMem) _) = _
  rw [assigned?_memory, hpre]
  simp only [reverse_append, find?_append, hphi, hconst, or_none, none_or]

theorem Complete.traces_memory : Traces t s .memory s.pruned.lastMemory := by
  have hlast : ∀ b rest es, Finished t s b es → s.pruned.lastMemory (b :: rest) =
      ((assigned? s.func .memory es).map (·, rest.length)).or (s.pruned.lastMemory rest) := by
    intro b rest es hfin
    obtain ⟨ps, lead, back, hl⟩ := h.layout b
    have hbody := hfin.script.body
    rw [hl.body] at hbody
    rw [lastMemory, hl.values, h.memoryIn_eq hl hbody.symm]
  refine ⟨fun b rest es w hfin hw => ?_, fun b rest es hfin hnone => ?_⟩
  · have hmem : w ∈ s.func.body b := by
      rw [assigned?_memory, ← hfin.script.body] at hw
      exact mem_reverse.mp (mem_of_find?_eq_some hw)
    obtain ⟨ps, lead, back, hl⟩ := h.layout b
    have hop := (mem_body h.sound.shape hmem).2.2
    rw [hlast b rest es hfin, hw, h.sound.resolve_not_phi hop, tokens_cons,
      tokensPast_of_mem (f := s.pruned) (hl.mem_values.mpr (.inr (.inl hmem))) hop]
    rfl
  · rw [hlast b rest es hfin, hnone]
    rfl

omit h in
theorem memArg?_pruned (s : Construction) (v : ValueId) : s.pruned.memArg? v = (s.func.memArg? v).map s.resolve := by
  rw [memArg?, memArg?, args_pruned, value_pruned]
  split
  · rw [getLast?_map]
  · rfl

variable (hform : s.pruned.SsaForm) (htrail : Trail s.func (b :: rest))

include hform htrail

/-- What a value reads from memory is the last memory state of the walk. -/
theorem Complete.token_memory {ws : List ValueId} (hsplit : (s.pruned.block b).values = vs ++ v :: ws)
    (htakes : (s.func.value v).op.takesMem) :
    ∃ m tok, s.pruned.memArg? v = some m ∧ s.pruned.tokensPast rest b vs m = some tok ∧
      (s.pruned.memoryIn rest.length vs).or (s.pruned.lastMemory rest) = some tok := by
  have hop := (Op.not_leading_of_takesMem htakes).2.2
  obtain ⟨es, hfin⟩ := h.finished b (htrail.lt h.flow b mem_cons_self)
  obtain ⟨ps, lead, back, hl⟩ := h.layout b
  obtain ⟨vs', hback, hvs⟩ := h.split_values hl hsplit hop (.inr htakes)
  obtain ⟨pre, post, rfl, hpre⟩ := hfin.script.split (hl.body.trans (by rw [hback, ← append_assoc]))
  obtain ⟨m, hm, hcur⟩ : ∃ m, s.func.memArg? v = some m ∧ s.Current b pre .memory m := by
    cases hfin.script.follows pre _ post rfl with
    | value _ _ _ _ memory => exact memory htakes
  have harg : s.pruned.memArg? v = some (s.resolve m) := by
    rw [memArg?_pruned, hm]
    rfl
  have hkept : s.Kept (s.resolve m) := by
    refine fun hphi => h.operand_placed (b := b) (Func.mem_args_of_memArg? harg) hphi (.inr ?_)
    rw [hsplit]
    exact mem_append_right _ mem_cons_self
  have hin : s.pruned.memoryIn rest.length vs = (assigned? s.func .memory pre).map (·, rest.length) := by
    rw [hvs]
    exact h.memoryIn_eq hl hpre _
  refine ⟨s.resolve m, ?_⟩
  rw [hin]
  rw [Current] at hcur
  split at hcur
  · next w hw =>
    have hmem : w ∈ lead ++ vs' := by
      rw [assigned?_memory, hpre] at hw
      exact mem_reverse.mp (mem_of_find?_eq_some hw)
    have hwop := (mem_body h.sound.shape (by
      rw [hl.body, hback, ← append_assoc]
      exact mem_append_left _ hmem)).2.2
    refine ⟨(w, rest.length), harg, ?_, by rw [hw]; rfl⟩
    rw [← hcur, h.sound.resolve_not_phi hwop]
    refine tokensPast_of_mem ?_ hwop
    rw [hvs]
    rcases mem_append.mp hmem with hmem | hmem <;> simp [hmem]
  · next hnone =>
    obtain ⟨tok, hE, hpast⟩ := h.token_start hform htrail (h.token_before hform h.traces_memory htrail) hcur hkept
    refine ⟨tok, harg, hpast vs fun w hw => ?_, by rw [hnone]; exact hE⟩
    rw [hsplit]
    exact mem_append_left _ hw

theorem Complete.token_ret (hk : (s.func.block b).kind = .ret) :
    ∃ c m tok, (s.pruned.block b).control = some c ∧ (s.func.value c).op = .ret ∧
      s.pruned.memArg? c = some m ∧ s.pruned.tokens (b :: rest) m = some tok ∧
      s.pruned.lastMemory (b :: rest) = some tok := by
  have hb := htrail.lt h.flow b mem_cons_self
  obtain ⟨es, hfin⟩ := h.finished b hb
  obtain ⟨c, hc, -, hop, -, -, m, hm, hcur⟩ := hfin.closed.ret hk
  have hctl : (s.pruned.block b).control = some c := by
    rw [block_pruned]
    rw [hc, map_some, h.sound.resolve_not_phi (by rw [hop]; decide)]
  have harg : s.pruned.memArg? c = some (s.resolve m) := by
    rw [memArg?_pruned, hm]
    rfl
  have hkept : s.Kept (s.resolve m) := fun hphi =>
    h.operand_placed (Func.mem_args_of_memArg? harg) hphi (.inl hctl)
  obtain ⟨tok, htok, hassigned, hnone⟩ := h.token_current hform htrail
    (h.token_before hform h.traces_memory htrail) hfin (append_nil es).symm hcur hkept
  exact ⟨c, _, tok, hctl, hop, harg, htok, h.traces_memory.eq_some hfin hassigned hnone⟩

omit hform htrail in
theorem Complete.kept_or_absent (v : ValueId) : s.Kept v ∨ s.pruned.Absent v := by
  by_cases hkept : s.Kept v
  · exact .inl hkept
  refine .inr fun b => ⟨fun hmem => hkept fun _ => ?_, fun hc => hkept fun hop => ?_,
    fun r hr hmem => hkept fun hop => ?_⟩
  · rw [(h.placed hmem).2]
    exact hmem
  · exact h.control_placed hc hop
  · exact h.operand_placed hmem hop hr.symm

omit h hform htrail in
theorem lastStored_recountUses (t : Task) (s : Construction) (f : Func) (l : Ir.LocalId)
    (bs : List BlockId) : lastStored t s f.recountUses l bs = lastStored t s f l bs := by
  induction bs with
  | nil => rfl
  | cons b rest ih => rw [lastStored, lastStored, ih, storedPast, storedPast, tokens_recountUses]

end

end Construction

open Construction in
/-- Data flows in the finished function as it does in the input. The walks are those of the input. On
each of them a load of a local in registers has the token of what was last stored to the local, unless
nothing needs the load, and everything that reads the memory state reads the last one. -/
theorem buildSsa_keeps_data_flow {ir : Ir.Func} {types : TypeTable} {built : Built}
    (hbuilt : buildSsa ir types = .ok built) :
    ∃ s, lowered ir types = .ok s ∧ built = s.finish ∧
      (∀ i b, ir.reachableBlocks[i]? = some b → ∀ j, j ∈ (built.func.block i).succs ↔
        ∃ c ∈ ir.distinctSuccessors b, ir.reachableBlocks[j]? = some c) ∧
      ∀ b rest, Trail built.func (b :: rest) → (∀ ns n ns' l, sourceNodes (enter ir types).1 b = ns ++ n :: ns' →
          (ir.node n).kind = .loadLocal l → (ir.memoryLocals types).getD l false = false →
          ∃ v, s.collapse.valueOf n = some v ∧ (built.func.Absent v ∨
            ∃ tok, built.func.tokens (b :: rest) v = some tok ∧
              storedPast (enter ir types).1 s.collapse built.func l (b :: rest) ns
                (lastStored (enter ir types).1 s.collapse built.func l rest) = some tok)) ∧
        (∀ vs v ws, (built.func.block b).values = vs ++ v :: ws → (built.func.value v).op.takesMem = true →
          ∃ m tok, built.func.memArg? v = some m ∧ built.func.tokensPast rest b vs m = some tok ∧
            (built.func.memoryIn rest.length vs).or (built.func.lastMemory rest) = some tok) ∧
        ((built.func.block b).kind = .ret →
          ∃ c m tok, (built.func.block b).control = some c ∧ (built.func.value c).op = .ret ∧
            built.func.memArg? c = some m ∧ built.func.tokens (b :: rest) m = some tok ∧
            built.func.lastMemory (b :: rest) = some tok) := by
  obtain ⟨hvalid, s, hs, rfl⟩ := lowered_of_buildSsa hbuilt
  have h := (complete_of_lowered hvalid hs).collapse.complete
  have hop := s.collapse.pruned.value_recountUses_congr Value.op fun _ _ => rfl
  have hmemArg : ∀ v, s.finish.func.memArg? v = s.collapse.pruned.memArg? v := by
    intro v
    rw [finish_func, Func.memArg?, Func.memArg?, hop, Func.args_recountUses]
  refine ⟨s, hs, rfl, fun i b hi j => ?_, fun b rest htrail => ?_⟩
  · rw [(sameGraph_finish hvalid hs).succs, ir.skeleton_block hi]
    exact ir.mem_targets
  replace htrail : Trail s.collapse.func (b :: rest) :=
    htrail.congr ((sameGraph_pruned s.collapse).trans (Func.sameGraph_recountUses _)).symm
  refine ⟨fun ns n ns' l hnodes hkind hlocal => ?_, fun vs v ws hsplit htakes => ?_, fun hk => ?_⟩
  · have hreg : (enter ir types).1.memoryLocals.getD l none = none := by
      rw [enter_eq, ← Option.isNone_iff_eq_none, ← Option.isSome_eq_false_iff,
        ir.placeLocals_slots types ir.skeleton l]
      exact hlocal
    obtain ⟨v, hv, htok⟩ := h.token_load h.ssaForm htrail hnodes (by rw [enter_eq]; exact hkind) hreg
    refine ⟨v, hv, ?_⟩
    rw [finish_func, Func.tokens_recountUses, lastStored_recountUses, storedPast, Func.tokens_recountUses]
    rcases h.kept_or_absent v with hkept | habsent
    · exact Or.inr (htok hkept)
    · refine Or.inl fun c => ?_
      simp only [Func.block_recountUses, Func.args_recountUses]
      exact habsent c
  · rw [finish_func, Func.block_recountUses] at hsplit
    rw [finish_func, hop, value_pruned] at htakes
    rw [hmemArg, finish_func, Func.tokensPast_recountUses _ _ (Func.tokens_recountUses _ _),
      Func.memoryIn_recountUses, Func.lastMemory_recountUses]
    exact h.token_memory h.ssaForm htrail hsplit htakes
  · rw [finish_func, Func.block_recountUses, (sameGraph_pruned s.collapse).kind] at hk
    obtain ⟨c, m, tok, hc, hret, hm, htok⟩ := h.token_ret h.ssaForm htrail hk
    refine ⟨c, m, tok, ?_, ?_, (hmemArg c).trans hm, ?_, ?_⟩
    · rw [finish_func, Func.block_recountUses]
      exact hc
    · rw [finish_func, hop, value_pruned]
      exact hret
    · rw [finish_func, Func.tokens_recountUses]
      exact htok.1
    · rw [finish_func, Func.lastMemory_recountUses]
      exact htok.2

open Construction in
/-- When the loop is entered again, the load at its head has the token of the difference that its body
stored. -/
theorem countdown_keeps_data_flow : ∃ built s, buildSsa countdown .builtins = .ok built ∧
    lowered countdown .builtins = .ok s ∧ s.collapse.valueOf 2 = some 3 ∧
    ∃ tok, built.func.tokens [1, 2, 1, 0] 3 = some tok ∧
      storedPast (enter countdown .builtins).1 s.collapse built.func 0 [1, 2, 1, 0] []
        (lastStored (enter countdown .builtins).1 s.collapse built.func 0 [2, 1, 0]) = some tok := by
  obtain ⟨built, hbuilt⟩ := exists_buildSsa_countdown
  obtain ⟨s, hs, hfinish, -, hflow⟩ := buildSsa_keeps_data_flow hbuilt
  have hvalue : (lowered countdown .builtins).toOption.map (·.collapse.valueOf 2) = some (some 3) := by
    decide +kernel
  have hblocks : (buildSsa countdown .builtins).toOption.map (fun built =>
      (built.func.entry, [0, 1, 2].map fun b => (built.func.block b).succs, (built.func.block 1).values)) =
      some (0, [[1], [2, 3], [1]], [3, 6, 5]) := by
    decide +kernel
  rw [hs] at hvalue
  rw [hbuilt] at hblocks
  replace hvalue := Option.some.inj hvalue
  obtain ⟨hentry, hsuccs, hhead⟩ : built.func.entry = 0 ∧ [0, 1, 2].map
      (fun b => (built.func.block b).succs) = [[1], [2, 3], [1]] ∧
      (built.func.block 1).values = [3, 6, 5] := by
    simpa only [Except.toOption, Option.map_some, Option.some.injEq, Prod.mk.injEq] using hblocks
  simp only [List.map_cons, List.map_nil, List.cons.injEq, and_true] at hsuccs
  have htrail : Trail built.func [1, 2, 1, 0] := by
    refine .step (.step (.step (hentry ▸ .start) ?_) ?_) ?_
    · rw [hsuccs.1]
      decide
    · rw [hsuccs.2.1]
      decide
    · rw [hsuccs.2.2]
      decide
  have hnodes : sourceNodes (enter countdown .builtins).1 1 = [] ++ 2 :: [3, 4] := by decide +kernel
  obtain ⟨v, hv, hload⟩ := (hflow 1 [2, 1, 0] htrail).1 [] 2 [3, 4] 0 hnodes rfl (by decide +kernel)
  obtain rfl := Option.some.inj (hvalue.symm.trans hv)
  have hmem : 3 ∈ (built.func.block 1).values := by
    rw [hhead]
    decide
  exact ⟨built, s, hbuilt, hs, hvalue, hload.resolve_left fun habsent => (habsent 1).1 hmem⟩

end SsaCodegen
