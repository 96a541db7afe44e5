import SsaCodegen.Proofs.Flow

/-! SSA form: blocks list their phis first, every value is computed before it is read, whatever the walk, and
counting uses anew changes nothing but the counts. -/

namespace SsaCodegen.Func

section

open List

def addUse (f : Func) (v : ValueId) : Func := f.modifyValue v fun x => { x with uses := x.uses + 1 }

def unused (f : Func) : Func := { f with values := f.values.map ({ · with uses := 0 }) }

theorem foldl_addUse (refs : List ValueId) : ∀ f : Func, ∃ vals : Array Value,
    refs.foldl addUse f = { f with values := vals } ∧ vals.size = f.values.size ∧
      ∀ v, v < f.values.size → ({ f with values := vals } : Func).value v =
        { f.value v with uses := (f.value v).uses + refs.count v } := by
  induction refs with
  | nil =>
    intro f
    exact ⟨f.values, rfl, rfl, fun v _ => rfl⟩
  | cons r refs ih =>
    intro f
    obtain ⟨vals, heq, hsize, hvalue⟩ := ih (f.addUse r)
    have hsize' : vals.size = f.values.size := hsize.trans (values_size_modifyValue f r _)
    refine ⟨vals, heq, hsize', fun v hv => ?_⟩
    have hval := hvalue v (by rw [addUse, values_size_modifyValue]; exact hv)
    change ({ f with values := vals } : Func).value v = _ at hval
    rw [hval, addUse, value_modifyValue, count_cons]
    by_cases hrv : r = v
    · rw [if_pos ⟨hrv, hv⟩, if_pos (beq_iff_eq.mpr hrv)]
      simp only
      congr 1
      omega
    · rw [if_neg fun hc => hrv hc.1, if_neg fun hc => hrv (beq_iff_eq.mp hc), Nat.add_zero]

theorem value_unused (f : Func) (v : ValueId) : f.unused.value v = { f.value v with uses := 0 } :=
  getD_map rfl

theorem recountUses_spec (f : Func) : ∃ vals : Array Value,
    f.recountUses = { f with values := vals } ∧ vals.size = f.values.size ∧
      ∀ v, v < f.values.size → ({ f with values := vals } : Func).value v =
        { f.value v with uses := (f.blockIds.flatMap f.blockRefs).count v } := by
  obtain ⟨vals, heq, hsize, hvalue⟩ := foldl_addUse (f.blockIds.flatMap f.blockRefs) f.unused
  have hunused : f.unused.values.size = f.values.size := Array.size_map ..
  refine ⟨vals, heq, hsize.trans hunused, fun v hv => ?_⟩
  have hval := hvalue v (by rw [hunused]; exact hv)
  change ({ f with values := vals } : Func).value v = _ at hval
  rw [hval, value_unused f v]
  simp only [Nat.zero_add]

section

variable (f : Func)

theorem blocks_recountUses : f.recountUses.blocks = f.blocks := by
  obtain ⟨vals, heq, -⟩ := f.recountUses_spec
  rw [heq]

theorem block_recountUses (b : BlockId) : f.recountUses.block b = f.block b := by
  rw [block, blocks_recountUses, block]

theorem values_size_recountUses : f.recountUses.values.size = f.values.size := by
  obtain ⟨vals, heq, hsize, -⟩ := f.recountUses_spec
  rw [heq]
  exact hsize

theorem value_recountUses {v : ValueId} (hv : v < f.values.size) : f.recountUses.value v =
    { f.value v with uses := (f.blockIds.flatMap f.blockRefs).count v } := by
  obtain ⟨vals, heq, -, hvalue⟩ := f.recountUses_spec
  rw [heq]
  exact hvalue v hv

theorem exists_value_recountUses (v : ValueId) : ∃ n, f.recountUses.value v = { f.value v with uses := n } := by
  by_cases hv : v < f.values.size
  · exact ⟨_, value_recountUses f hv⟩
  · rw [value_eq_default _ (by rw [values_size_recountUses]; exact not_lt.mp hv), value_eq_default _ (not_lt.mp hv)]
    exact ⟨_, rfl⟩

theorem value_recountUses_congr {β : Type} (p : Value → β) (hp : ∀ x n, p { x with uses := n } = p x)
    (v : ValueId) : p (f.recountUses.value v) = p (f.value v) := by
  obtain ⟨n, hn⟩ := f.exists_value_recountUses v
  rw [hn, hp]

theorem args_recountUses (v : ValueId) : f.recountUses.args v = f.args v := by
  have hspan := value_recountUses_congr f Value.span (fun _ _ => rfl) v
  obtain ⟨vals, heq, -⟩ := f.recountUses_spec
  rw [args, hspan, heq, args]

theorem blockRefs_recountUses (b : BlockId) : f.recountUses.blockRefs b = f.blockRefs b := by
  rw [blockRefs, blockRefs, block_recountUses, funext f.args_recountUses]

theorem checkUseCounts_eq_ok : f.checkUseCounts = .ok () ↔
    ∀ v < f.values.size, (f.value v).uses = (f.blockIds.flatMap f.blockRefs).count v := by
  have hcounted : ∀ v < f.values.size, (f.recountUses.value v).uses = (f.blockIds.flatMap f.blockRefs).count v :=
    fun v hv => by rw [value_recountUses f hv]
  rw [checkUseCounts]
  split
  · next v hsome =>
    refine iff_of_false (fun h => by cases h) fun hall => ?_
    have hv := mem_range.mp (mem_of_find?_eq_some hsome)
    have hbad := find?_some hsome
    exact of_decide_eq_true hbad ((hall v hv).trans (hcounted v hv).symm)
  · next hnone =>
    refine iff_of_true rfl fun v hv => ?_
    have hgood := find?_eq_none.mp hnone v (mem_range.mpr hv)
    rw [← hcounted v hv]
    simpa using hgood

theorem checkUseCounts_recountUses : f.recountUses.checkUseCounts = .ok () := by
  refine (checkUseCounts_eq_ok _).mpr fun v hv => ?_
  have hids : f.recountUses.blockIds = f.blockIds := by rw [blockIds, blocks_recountUses, blockIds]
  rw [values_size_recountUses] at hv
  rw [value_recountUses f hv, hids, funext f.blockRefs_recountUses]

end

end

variable {b : BlockId}

def AtEnd (f : Func) (a : ValueId) (b : BlockId) : Prop :=
  ∃ c, a ∈ (f.block c).values ∧ f.Dominates c b

def Before (f : Func) (a : ValueId) (b : BlockId) (pre : List ValueId) : Prop :=
  a ∈ pre ∨ ∃ c, c ≠ b ∧ a ∈ (f.block c).values ∧ f.Dominates c b

theorem Before.atEnd {f : Func} {a : ValueId} {pre : List ValueId} (h : f.Before a b pre)
    (hpre : ∀ v ∈ pre, v ∈ (f.block b).values) : f.AtEnd a b := by
  rcases h with ha | ⟨c, -, ha, hdom⟩
  · exact ⟨b, hpre a ha, fun _ _ => List.mem_cons_self⟩
  · exact ⟨c, ha, hdom⟩

/-- A function in SSA form. -/
structure SsaForm (f : Func) : Prop where
  flow : f.Flow
  spans : f.Spans
  placed : ∀ b, ∀ v ∈ (f.block b).values, v < f.values.size ∧ (f.value v).block = b
  nodup : ∀ b, (f.block b).values.Nodup
  phis_first : ∀ b, ∃ ps rest, (f.block b).values = ps ++ rest ∧
    (∀ v ∈ ps, (f.value v).op = .phi) ∧ ∀ v ∈ rest, (f.value v).op ≠ .phi
  phi_args : ∀ b, ∀ p ∈ (f.block b).values, (f.value p).op = .phi →
    (f.args p).length = (f.block b).preds.length ∧ 2 ≤ (f.block b).preds.length
  reads : ∀ b pre v post, (f.block b).values = pre ++ v :: post → (f.value v).op ≠ .phi →
    ∀ a ∈ f.args v, f.Before a b pre
  phi_reads : ∀ b, ∀ p ∈ (f.block b).values, (f.value p).op = .phi →
    ∀ (k : Nat) q a, (f.block b).preds[k]? = some q → (f.args p)[k]? = some a → f.AtEnd a q
  plain : ∀ b, (f.block b).kind = .plain → (f.block b).control = none
  branch : ∀ b, b < f.blocks.size → (f.block b).kind = .branch → ∃ c, (f.block b).control = some c ∧ f.AtEnd c b
  ret : ∀ b, b < f.blocks.size → (f.block b).kind = .ret →
    ∃ c, (f.block b).control = some c ∧ c < f.values.size ∧ (f.value c).op = .ret ∧
      (f.value c).block = b ∧ (∀ d, c ∉ (f.block d).values) ∧ ∀ a ∈ f.args c, f.AtEnd a b

def BranchesOnBool (f : Func) : Prop :=
  ∀ b c, (f.block b).kind = .branch → (f.block b).control = some c → (f.value c).ty = TypeId.bool

/-- `g` has the values of `f` in the same blocks. Only their use counts and the edges may be others. -/
structure SameCode (f g : Func) : Prop where
  entry : g.entry = f.entry
  params : g.params = f.params
  size : g.values.size = f.values.size
  value : ∀ v, ∃ uses, g.value v = { f.value v with uses := uses }
  args : ∀ v, g.args v = f.args v
  inside : ∀ b, (g.block b).values = (f.block b).values ∧ (g.block b).control = (f.block b).control ∧
    (g.block b).kind = (f.block b).kind

variable {f g : Func}

namespace SameCode

variable (h : f.SameCode g)

include h

theorem value_congr {β : Type} (p : Value → β) (hp : ∀ x n, p { x with uses := n } = p x) (v : ValueId) :
    p (g.value v) = p (f.value v) := by
  obtain ⟨uses, hv⟩ := h.value v
  rw [hv, hp]

theorem op (v : ValueId) : (g.value v).op = (f.value v).op := h.value_congr Value.op (fun _ _ => rfl) v

theorem ty (v : ValueId) : (g.value v).ty = (f.value v).ty := h.value_congr Value.ty (fun _ _ => rfl) v

theorem block (v : ValueId) : (g.value v).block = (f.value v).block :=
  h.value_congr Value.block (fun _ _ => rfl) v

theorem values (b : BlockId) : (g.block b).values = (f.block b).values := (h.inside b).1

theorem control (b : BlockId) : (g.block b).control = (f.block b).control := (h.inside b).2.1

theorem kind (b : BlockId) : (g.block b).kind = (f.block b).kind := (h.inside b).2.2

theorem branchesOnBool (hf : f.BranchesOnBool) : g.BranchesOnBool := by
  intro b c hk hc
  rw [h.kind] at hk
  rw [h.control] at hc
  rw [h.ty]
  exact hf b c hk hc

theorem atEnd {a : ValueId} {c : BlockId} (hdom : ∀ d, f.Dominates d b → g.Dominates d c) (ha : f.AtEnd a b) :
    g.AtEnd a c := by
  obtain ⟨d, hd, hdom'⟩ := ha
  exact ⟨d, by rwa [h.values], hdom d hdom'⟩

/-- Other edges keep a function in SSA form if each block keeps its dominators and its number of predecessors. -/
theorem ssaForm (hf : f.SsaForm) (hflow : g.Flow) (hspans : g.Spans)
    (hpreds : ∀ b, b < f.blocks.size → (g.block b).preds.length = (f.block b).preds.length)
    (hdom : ∀ b, b < f.blocks.size → ∀ d, f.Dominates d b → g.Dominates d b)
    (hedges : ∀ b, b < f.blocks.size → ∀ (k : Nat) q, (g.block b).preds[k]? = some q →
      ∃ q', (f.block b).preds[k]? = some q' ∧ ∀ d, f.Dominates d q' → g.Dominates d q) : g.SsaForm := by
  have hlt : ∀ {b v}, v ∈ (f.block b).values → b < f.blocks.size := lt_of_mem_values
  refine ⟨hflow, hspans, ?_, ?_, ?_, ?_, ?_, ?_, ?_, ?_, ?_⟩ <;>
    simp only [h.op, h.block, h.size, h.values, h.control, h.kind, h.args]
  · exact hf.placed
  · exact hf.nodup
  · exact hf.phis_first
  · intro b p hp hphi
    rw [hpreds b (hlt hp)]
    exact hf.phi_args b p hp hphi
  · intro b pre v post hsplit hphi a ha
    have hb := hlt (hsplit ▸ List.mem_append_right _ List.mem_cons_self)
    rcases hf.reads b pre v post hsplit hphi a ha with hmem | ⟨c, hne, hc, hdom'⟩
    · exact .inl hmem
    · exact .inr ⟨c, hne, by rwa [h.values], hdom b hb c hdom'⟩
  · intro b p hp hphi k q a hq ha
    obtain ⟨q', hq', hends⟩ := hedges b (hlt hp) k q hq
    exact h.atEnd hends (hf.phi_reads b p hp hphi k q' a hq' ha)
  · exact hf.plain
  · intro b _ hk
    have hb := lt_of_kind hk (by decide)
    obtain ⟨c, hc, hend⟩ := hf.branch b hb hk
    exact ⟨c, hc, h.atEnd (hdom b hb) hend⟩
  · intro b _ hk
    have hb := lt_of_kind hk (by decide)
    obtain ⟨c, hc, hsize, hret, hblk, hnot, hargs⟩ := hf.ret b hb hk
    exact ⟨c, hc, hsize, hret, hblk, hnot, fun a ha => h.atEnd (hdom b hb) (hargs a ha)⟩

end SameCode

theorem Dominates.congr (hg : f.SameGraph g) {a : BlockId} (h : f.Dominates a b) :
    g.Dominates a b := fun rest htrail => h rest (htrail.congr hg.symm)

theorem sameGraph_recountUses (f : Func) : f.SameGraph f.recountUses := by
  obtain ⟨vals, heq, -⟩ := f.recountUses_spec
  rw [heq]
  exact ⟨rfl, rfl, fun _ => rfl, fun _ => rfl, fun _ => rfl⟩

theorem Spans.recountUses (h : f.Spans) : f.recountUses.Spans := by
  have hspan : ∀ v, (f.recountUses.value v).span = (f.value v).span :=
    f.value_recountUses_congr Value.span fun _ _ => rfl
  have hpool : f.recountUses.operands = f.operands := by
    obtain ⟨vals, heq, -⟩ := f.recountUses_spec
    rw [heq]
  exact h.congr f.values_size_recountUses hspan (by rw [hpool])

theorem sameCode_recountUses (f : Func) : f.SameCode f.recountUses where
  entry := (sameGraph_recountUses f).entry
  params := by
    obtain ⟨vals, heq, -⟩ := f.recountUses_spec
    rw [heq]
  size := f.values_size_recountUses
  value := f.exists_value_recountUses
  args := f.args_recountUses
  inside b := by rw [block_recountUses]; exact ⟨rfl, rfl, rfl⟩

theorem SsaForm.recountUses (h : f.SsaForm) : f.recountUses.SsaForm := by
  have hgraph := sameGraph_recountUses f
  refine (sameCode_recountUses f).ssaForm h (h.flow.congr hgraph) h.spans.recountUses
    (fun b _ => by rw [hgraph.preds]) (fun _ _ _ hdom => hdom.congr hgraph) fun b _ k q hq => ?_
  rw [hgraph.preds] at hq
  exact ⟨q, hq, fun _ hdom => hdom.congr hgraph⟩

end SsaCodegen.Func
