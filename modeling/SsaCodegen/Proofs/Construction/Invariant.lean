import SsaCodegen.Proofs.Flow
import SsaCodegen.Proofs.Stateful
import SsaCodegen.Proofs.Construction.Replacements

/-! What holds of a function while it is brought into SSA form. The value of a variable at the end of a
lowered block is fixed up to replacements, and a phi reads, for each predecessor, that of its variable there. -/

namespace SsaCodegen

open List

namespace Func

variable {ps : List ValueId} {v : ValueId}

def body (f : Func) (b : BlockId) : List ValueId :=
  (f.block b).values.filter fun v => (f.value v).op != .phi

/-- A function whose blocks list their phis first, each with one operand for each predecessor of its
block, which are at least two. The other values at the top of a block stand in the entry. -/
structure Shape (f : Func) : Prop where
  spans : f.Spans
  args_lt : ∀ v, v < f.values.size → ∀ a ∈ f.args v, a < f.values.size
  entry_lt : f.entry < f.blocks.size
  entry_preds : (f.block f.entry).preds = []
  placed : ∀ b, ∀ v ∈ (f.block b).values, v < f.values.size ∧ (f.value v).block = b
  nodup : ∀ b, (f.block b).values.Nodup
  phis_first : ∀ b, ∃ ps rest, (f.block b).values = ps ++ rest ∧ (∀ v ∈ ps, (f.value v).op = .phi) ∧
    ∀ v ∈ rest, (f.value v).op ≠ .phi ∧ ((f.value v).op.isLeading → b = f.entry)
  phi : ∀ p, p < f.values.size → (f.value p).op = .phi →
    (f.value p).block < f.blocks.size ∧ p ∈ (f.block (f.value p).block).values ∧
    (f.args p).length = (f.block (f.value p).block).preds.length ∧
    2 ≤ (f.block (f.value p).block).preds.length

theorem Shape.grow {f g : Func} {b : BlockId} {new : List ValueId} (h : f.Shape) (hgraph : f.SameGraph g)
    (hspans : g.Spans) (hsize : f.values.size ≤ g.values.size)
    (hold : ∀ v, v < f.values.size → g.value v = f.value v ∧ g.args v = f.args v)
    (hargs : ∀ v, f.values.size ≤ v → v < g.values.size → ∀ a ∈ g.args v, a < g.values.size)
    (hother : ∀ c, b ≠ c → (g.block c).values = (f.block c).values)
    (hperm : (g.block b).values ~ new ++ (f.block b).values) (hnd : new.Nodup)
    (hnew : ∀ v ∈ new, f.values.size ≤ v ∧ v < g.values.size ∧ (g.value v).block = b)
    (hfirst : ∃ ps rest, (g.block b).values = ps ++ rest ∧ (∀ v ∈ ps, (g.value v).op = .phi) ∧
      ∀ v ∈ rest, (g.value v).op ≠ .phi ∧ ((g.value v).op.isLeading → b = f.entry))
    (hphi : ∀ p, f.values.size ≤ p → p < g.values.size → (g.value p).op = .phi → p ∈ new ∧ b < f.blocks.size ∧
      (g.args p).length = (f.block b).preds.length ∧ 2 ≤ (f.block b).preds.length) : g.Shape := by
  constructor
  · exact hspans
  · intro v hv a ha
    by_cases hlt : v < f.values.size
    · rw [(hold v hlt).2] at ha
      exact (h.args_lt v hlt a ha).trans_le hsize
    · exact hargs v (not_lt.mp hlt) hv a ha
  · rw [hgraph.entry, hgraph.size]
    exact h.entry_lt
  · rw [hgraph.entry, hgraph.preds]
    exact h.entry_preds
  · intro c v hv
    have hlisted : v ∈ (f.block c).values ∨ v ∈ new ∧ b = c := by
      by_cases hc : b = c
      · subst hc
        exact (mem_append.mp (hperm.mem_iff.mp hv)).symm.imp_right (⟨·, rfl⟩)
      · rw [hother c hc] at hv
        exact .inl hv
    rcases hlisted with hv | ⟨hmem, rfl⟩
    · obtain ⟨hlt, hblock⟩ := h.placed c v hv
      rw [(hold v hlt).1]
      exact ⟨hlt.trans_le hsize, hblock⟩
    · exact (hnew v hmem).2
  · intro c
    by_cases hc : b = c
    · subst hc
      rw [hperm.nodup_iff]
      refine nodup_append.mpr ⟨hnd, h.nodup b, ?_⟩
      rintro v hv w hw rfl
      exact not_lt.mpr (hnew v hv).1 (h.placed b v hw).1
    · rw [hother c hc]
      exact h.nodup c
  · intro c
    rw [hgraph.entry]
    by_cases hc : b = c
    · exact hc ▸ hfirst
    · obtain ⟨ps, rest, hvals, hps, hrest⟩ := h.phis_first c
      have hsame : ∀ v ∈ ps ++ rest, g.value v = f.value v := fun v hv =>
        (hold v (h.placed c v (hvals ▸ hv)).1).1
      refine ⟨ps, rest, (hother c hc).trans hvals, fun v hv => ?_, fun v hv => ?_⟩
      · rw [hsame v (mem_append_left _ hv)]
        exact hps v hv
      · rw [hsame v (mem_append_right _ hv)]
        exact hrest v hv
  · intro p hp hop
    rw [hgraph.size, hgraph.preds]
    by_cases hlt : p < f.values.size
    · rw [(hold p hlt).1] at hop ⊢
      obtain ⟨hblock, hmem, hlen, htwo⟩ := h.phi p hlt hop
      refine ⟨hblock, ?_, by rwa [(hold p hlt).2], htwo⟩
      by_cases hc : b = (f.value p).block
      · rw [← hc] at hmem ⊢
        exact hperm.mem_iff.mpr (mem_append_right _ hmem)
      · rwa [hother _ hc]
    · obtain ⟨hmem, hblock, hlen, htwo⟩ := hphi p (not_lt.mp hlt) hp hop
      rw [(hnew p hmem).2.2]
      exact ⟨hblock, hperm.mem_iff.mpr (mem_append_left _ hmem), hlen, htwo⟩

theorem phis_of_layout (f : Func) {b : BlockId} {rest : List ValueId}
    (hvals : (f.block b).values = ps ++ rest) (hps : ∀ v ∈ ps, (f.value v).op = .phi)
    (hrest : ∀ v ∈ rest, (f.value v).op.isLeading = false) : f.phis b = ps := by
  have hlead : ∀ v ∈ ps, (f.value v).op.isLeading := fun v hv => by rw [hps v hv]; rfl
  have hnil : rest.takeWhile (fun v => (f.value v).op.isLeading) = [] := by
    cases rest with
    | nil => rfl
    | cons v rest =>
      rw [takeWhile_cons_of_neg]
      rw [hrest v mem_cons_self]
      exact Bool.false_ne_true
  rw [phis, hvals, takeWhile_append_of_pos hlead, hnil, append_nil]
  exact filter_eq_self.mpr fun v hv => by rw [hps v hv]; rfl

def insertPhi (f : Func) (b : BlockId) (ty : TypeId) : Func :=
  let g := (f.newValue b .phi ty ((f.block b).preds.map fun _ => f.values.size) .none).2
  g.modifyBlock b fun k => { k with values := k.values.insertIdx (g.phis b).length f.values.size }

section InsertPhi

variable (f : Func) (b : BlockId) (ty : TypeId)

theorem values_size_insertPhi : (f.insertPhi b ty).values.size = f.values.size + 1 :=
  values_size_newValue f b .phi ty _ .none

theorem value_insertPhi_old (hv : v < f.values.size) : (f.insertPhi b ty).value v = f.value v :=
  value_newValue_old f b .phi ty _ .none hv

theorem value_insertPhi_new : ((f.insertPhi b ty).value f.values.size).op = .phi ∧
      ((f.insertPhi b ty).value f.values.size).ty = ty ∧
      ((f.insertPhi b ty).value f.values.size).block = b := by
  have h : (f.insertPhi b ty).value f.values.size = _ := value_newValue_new f b .phi ty _ .none
  rw [h]
  exact ⟨rfl, rfl, rfl⟩

theorem args_insertPhi_new : (f.insertPhi b ty).args f.values.size = (f.block b).preds.map fun _ => f.values.size :=
  args_newValue_new b .phi ty _ .none

theorem sameGraph_insertPhi : f.SameGraph (f.insertPhi b ty) := by
  have hnew (args : List ValueId) : f.SameGraph (f.newValue b .phi ty args .none).2 :=
    ⟨rfl, rfl, fun _ => rfl, fun _ => rfl, fun _ => rfl⟩
  exact (hnew _).trans (SameGraph.modifyBlock _ b _ (fun _ => rfl) (fun _ => rfl) fun _ => rfl)

theorem control_insertPhi (c : BlockId) : ((f.insertPhi b ty).block c).control = (f.block c).control := by
  rw [insertPhi, block_modifyBlock]
  split
  · rfl
  · rfl

variable {f b}

theorem Shape.args_insertPhi_old (h : f.Shape) (hv : v < f.values.size) : (f.insertPhi b ty).args v = f.args v :=
  h.spans.args_newValue_old b .phi ty _ .none hv

theorem Shape.values_insertPhi (h : f.Shape) (hb : b < f.blocks.size) (hne : b ≠ f.entry)
    {rest : List ValueId} (hvals : (f.block b).values = ps ++ rest) (hps : ∀ v ∈ ps, (f.value v).op = .phi)
    (hrest : ∀ v ∈ rest, (f.value v).op ≠ .phi ∧ ((f.value v).op.isLeading → b = f.entry)) :
    ((f.insertPhi b ty).block b).values = ps ++ f.values.size :: rest := by
  let g := (f.newValue b .phi ty ((f.block b).preds.map fun _ => f.values.size) .none).2
  have hold : ∀ v ∈ (f.block b).values, g.value v = f.value v := fun v hv =>
    value_newValue_old f b .phi ty _ .none (h.placed b v hv).1
  have hphis : g.phis b = ps := by
    refine phis_of_layout g hvals ?_ ?_
    · intro v hv
      rw [hold v (by rw [hvals]; exact mem_append_left _ hv)]
      exact hps v hv
    · intro v hv
      rw [hold v (by rw [hvals]; exact mem_append_right _ hv)]
      exact Bool.eq_false_iff.mpr fun hl => hne ((hrest v hv).2 hl)
  have hblock : (f.insertPhi b ty).block b = { f.block b with
      values := (f.block b).values.insertIdx (g.phis b).length f.values.size } :=
    block_modifyBlock_self g _ hb
  rw [hblock, hphis, hvals]
  exact insertIdx_append_length f.values.size ps rest

theorem values_insertPhi_other {c : BlockId} (hc : b ≠ c) :
    ((f.insertPhi b ty).block c).values = (f.block c).values := by
  have hblock : (f.insertPhi b ty).block c = f.block c := block_modifyBlock_other _ _ hc
  rw [hblock]

theorem Shape.ne_entry (h : f.Shape) (hj : 2 ≤ (f.block b).preds.length) : b ≠ f.entry := by
  rintro rfl
  rw [h.entry_preds] at hj
  exact absurd hj (by decide)

section

variable (h : f.Shape) (hb : b < f.blocks.size) (hj : 2 ≤ (f.block b).preds.length)

include h hb hj

theorem Shape.insertPhi : (f.insertPhi b ty).Shape := by
  obtain ⟨hop, -, hblk⟩ := value_insertPhi_new f b ty
  have hsize := values_size_insertPhi f b ty
  have hlast : ∀ v, f.values.size ≤ v → v < (f.insertPhi b ty).values.size → v = f.values.size := by
    intro v hle hlt
    rw [hsize] at hlt
    exact (Nat.le_of_lt_succ hlt).antisymm hle
  obtain ⟨ps, rest, hvals, hps, hrest⟩ := h.phis_first b
  have hnew := h.values_insertPhi ty hb (h.ne_entry hj) hvals hps hrest
  have hold : ∀ v ∈ ps ++ rest, (f.insertPhi b ty).value v = f.value v := fun v hv =>
    value_insertPhi_old f b ty (h.placed b v (hvals ▸ hv)).1
  refine h.grow (sameGraph_insertPhi f b ty) ((h.spans.newValue b .phi ty _ .none).modifyBlock b _)
    (hsize ▸ Nat.le_succ _) (fun v hv => ⟨value_insertPhi_old f b ty hv, h.args_insertPhi_old ty hv⟩)
    (fun v hle hlt a ha => ?_) (fun c => values_insertPhi_other ty)
    (by rw [hnew, hvals]; exact @perm_middle _ _ ps _) (pairwise_singleton _ _) (fun v hv => ?_)
    ⟨ps ++ [f.values.size], rest, by rw [hnew, append_assoc]; rfl, fun v hv => ?_, fun v hv => ?_⟩
    fun p hle hlt _ => ?_
  · rw [hlast v hle hlt, args_insertPhi_new] at ha
    obtain ⟨q, -, rfl⟩ := mem_map.mp ha
    exact hsize ▸ Nat.lt_succ_self _
  · rw [mem_singleton.mp hv]
    exact ⟨le_rfl, hsize ▸ Nat.lt_succ_self _, hblk⟩
  · rcases mem_append.mp hv with hv | hv
    · rw [hold v (mem_append_left _ hv)]
      exact hps v hv
    · rw [mem_singleton.mp hv]
      exact hop
  · rw [hold v (mem_append_right _ hv)]
    exact hrest v hv
  · rw [hlast p hle hlt, args_insertPhi_new, length_map]
    exact ⟨mem_singleton_self _, hb, rfl, hj⟩

theorem Shape.body_insertPhi (c : BlockId) : (f.insertPhi b ty).body c = f.body c := by
  have hold : ∀ v ∈ (f.block c).values, (f.insertPhi b ty).value v = f.value v :=
    fun v hv => value_insertPhi_old f b ty (h.placed c v hv).1
  have hcongr : (f.block c).values.filter (fun v => ((f.insertPhi b ty).value v).op != .phi) = f.body c :=
    filter_congr fun v hv => by rw [hold v hv]
  by_cases hc : b = c
  · subst hc
    obtain ⟨ps, rest, hvals, hps, hrest⟩ := h.phis_first b
    have hop := (value_insertPhi_new f b ty).1
    rw [← hcongr, body, h.values_insertPhi ty hb (h.ne_entry hj) hvals hps hrest, hvals, filter_append,
      filter_append, filter_cons_of_neg (by rw [hop]; decide)]
  · rw [body, values_insertPhi_other ty hc, hcongr]

end

end InsertPhi

theorem Shape.setArg {f : Func} (h : f.Shape) {p : ValueId} (hp : p < f.values.size) {i : Nat}
    (hi : i < (f.args p).length) (hv : v < f.values.size) : (f.setArg p i v).Shape := by
  have hlen : ∀ w, ((f.setArg p i v).args w).length = (f.args w).length := by
    intro w
    by_cases hw : w = p
    · rw [hw, h.spans.args_setArg_self hp hi, length_set]
    · rw [h.spans.args_setArg_other hp hi v hw]
  exact
    { spans := h.spans.setArg p i v
      args_lt := fun w hw a ha => by
        by_cases hwp : w = p
        · subst hwp
          rw [h.spans.args_setArg_self hp hi] at ha
          rcases mem_or_eq_of_mem_set ha with ha | rfl
          · exact h.args_lt w hw a ha
          · exact hv
        · rw [h.spans.args_setArg_other hp hi v hwp] at ha
          exact h.args_lt w hw a ha
      entry_lt := h.entry_lt
      entry_preds := h.entry_preds
      placed := h.placed
      nodup := h.nodup
      phis_first := h.phis_first
      phi := fun q hq hop => by
        rw [hlen]
        exact h.phi q hq hop }

end Func

namespace Construction

variable {x : Var} {b : BlockId} {v : ValueId} {ir : Ir.Func} {W F : List ValueId}

def EndsWith (s : Construction) (x : Var) (b : BlockId) (v : ValueId) : Prop :=
  ∃ w, s.def? x b = some w ∧ s.resolve w = s.resolve v

/-- `p` is a phi of `b` that merges `x`. -/
structure Merges (f : Func) (vars : List (ValueId × Var)) (p : ValueId) (x : Var) (b : BlockId) :
    Prop where
  lt : p < f.values.size
  op : (f.value p).op = .phi
  block : (f.value p).block = b
  var : vars.lookup p = some x

abbrev IsPhi (s : Construction) (p : ValueId) (x : Var) (b : BlockId) : Prop :=
  Merges s.func s.phiVars p x b

def KnownUpTo (s : Construction) (n : Nat) (p : ValueId) (x : Var) (b : BlockId) : Prop :=
  ∀ (k : Nat) q, k < n → (s.func.block b).preds[k]? = some q →
    q ∈ s.filled ∧ ∃ a, (s.func.args p)[k]? = some a ∧ s.EndsWith x q a

def Known (s : Construction) (p : ValueId) (x : Var) (b : BlockId) : Prop :=
  ∀ (k : Nat) q, (s.func.block b).preds[k]? = some q →
    q ∈ s.filled ∧ ∃ a, (s.func.args p)[k]? = some a ∧ s.EndsWith x q a

def StartsWith (s : Construction) (x : Var) (b : BlockId) (v : ValueId) : Prop :=
  (∃ p, s.IsPhi p x b ∧ s.resolve p = s.resolve v) ∨
    ((s.func.block b).preds ≠ [] ∧ ∀ q ∈ (s.func.block b).preds, q ∈ s.filled ∧ s.EndsWith x q v)

def Fits (ir : Ir.Func) (s : Construction) (x : Var) (v : ValueId) : Prop :=
  v < s.func.values.size ∧ (x.type ir ≠ TypeId.mem → (s.func.value v).ty = x.type ir)

def Untouched (s : Construction) (p : ValueId) : Prop :=
  s.isReplaced p = false ∧ ∀ v, (v, p) ∉ s.phiUsers

/-- The state of a construction. The operands of the phis in `W` are still to be found, as are those of
incomplete phis; the phis in `F` have some of their operands already. -/
structure Sound (ir : Ir.Func) (W F : List ValueId) (s : Construction) : Prop where
  shape : s.func.Shape
  settled : Settled s.forward
  replaced : ∀ p v, s.forward.lookup p = some v → p < s.func.values.size ∧ v < s.func.values.size ∧
    ((s.func.value p).ty ≠ TypeId.mem → (s.func.value v).ty = (s.func.value p).ty)
  replaced_known : ∀ p, s.isReplaced p → ∃ x b, s.IsPhi p x b ∧ s.Known p x b ∧
    ∀ a ∈ s.func.args p, s.resolve a = s.resolve p
  defs_size : s.defs.size = s.func.blocks.size
  defs : ∀ x b v, s.def? x b = some v → s.Fits ir x v
  phi_var : ∀ p, p < s.func.values.size → (s.func.value p).op = .phi →
    ∃ x, s.phiVars.lookup p = some x ∧ (s.func.value p).ty = x.type ir
  known : ∀ p x b, s.IsPhi p x b → p ∈ W ∨ p ∈ F ∨ (b, x, p) ∈ s.incomplete ∨ s.Known p x b
  starts : ∀ x b v, s.def? x b = some v → b ∈ s.sites x ∨ s.StartsWith x b v
  assigned : ∀ x b, b ∈ s.sites x → ∃ v, s.def? x b = some v
  sealed_preds : ∀ b ∈ s.sealedBlocks, ∀ q ∈ (s.func.block b).preds, q ∈ s.filled
  filled_join : ∀ b ∈ s.filled, b ∈ s.sealedBlocks ∨ 2 ≤ (s.func.block b).preds.length
  filled_lt : ∀ b ∈ s.filled, b < s.func.blocks.size
  entry_sealed : s.func.entry ∈ s.sealedBlocks
  incomplete : ∀ b x p, (b, x, p) ∈ s.incomplete → b ∉ s.sealedBlocks ∧ s.IsPhi p x b ∧ s.Untouched p
  incomplete_nodup : (s.incomplete.map (·.2.2)).Nodup
  waiting : ∀ q ∈ W, q < s.func.values.size ∧ s.Untouched q
  frames : ∀ q ∈ F, q < s.func.values.size ∧ s.isReplaced q = false
  users : ∀ v q, (v, q) ∈ s.phiUsers → v < s.func.values.size ∧ q < s.func.values.size ∧
    (q ∈ F ∨ ∃ x b, s.IsPhi q x b ∧ s.Known q x b)

/-- What a later state keeps of an earlier one. -/
structure Extends (s t : Construction) : Prop where
  graph : s.func.SameGraph t.func
  size_le : s.func.values.size ≤ t.func.values.size
  value : ∀ v, v < s.func.values.size → t.func.value v = s.func.value v
  args : ∀ v, v < s.func.values.size → (s.func.value v).op ≠ .phi → t.func.args v = s.func.args v
  known : ∀ p x b, s.IsPhi p x b → s.Known p x b → t.Known p x b
  resolve : ∀ v, t.resolve (s.resolve v) = t.resolve v
  ends : ∀ x b v, b ∈ s.filled → s.EndsWith x b v → t.EndsWith x b v
  phiVar : ∀ p x, p < s.func.values.size → s.phiVars.lookup p = some x → t.phiVars.lookup p = some x
  filled : ∀ b ∈ s.filled, b ∈ t.filled
  params : t.func.params = s.func.params
  locals_le : s.func.locals.size ≤ t.func.locals.size

/-- What asking for the value of a variable keeps. -/
structure Asks (s t : Construction) : Prop extends Extends s t where
  new_phi : ∀ v, s.func.values.size ≤ v → v < t.func.values.size →
    (t.func.value v).op = .phi ∧ (t.func.value v).loc = none
  ends_all : ∀ x b v, s.EndsWith x b v → t.EndsWith x b v
  body_all : ∀ b, t.func.body b = s.func.body b
  control_all : ∀ b, (t.func.block b).control = (s.func.block b).control
  filled_eq : t.filled = s.filled
  sealed : ∀ b ∈ s.sealedBlocks, b ∈ t.sealedBlocks
  assignments_eq : t.assignments = s.assignments
  consts_eq : t.consts = s.consts
  nodeValues_eq : t.nodeValues = s.nodeValues

/-- The values below `n` keep their operands and their replacements, and get no new users among
themselves. -/
structure Frozen (n : Nat) (s t : Construction) : Prop where
  args : ∀ v, v < n → t.func.args v = s.func.args v
  users : ∀ v q, (v, q) ∈ t.phiUsers → q < n → (v, q) ∈ s.phiUsers

theorem EndsWith.congr {s : Construction} {w : ValueId} (h : s.EndsWith x b v)
    (hvw : s.resolve v = s.resolve w) : s.EndsWith x b w := by
  obtain ⟨u, hu, huv⟩ := h
  exact ⟨u, hu, huv.trans hvw⟩

theorem known_iff_knownUpTo {s : Construction} {p : ValueId} :
    s.Known p x b ↔ s.KnownUpTo (s.func.block b).preds.length p x b := by
  constructor
  · intro h k q _ hq
    exact h k q hq
  · intro h k q hq
    exact h k q (List.getElem?_eq_some_iff.mp hq).1 hq

namespace Extends

variable {s t u : Construction} {v : ValueId} {x : Var} {b : BlockId}

theorem resolve_congr (h : Extends s t) {w : ValueId} (hvw : s.resolve v = s.resolve w) :
    t.resolve v = t.resolve w := by
  rw [← h.resolve v, hvw, h.resolve w]

theorem isPhi (h : Extends s t) {p : ValueId} (hp : s.IsPhi p x b) : t.IsPhi p x b := by
  have hv := h.value p hp.lt
  exact ⟨hp.lt.trans_le h.size_le, hv ▸ hp.op, hv ▸ hp.block, h.phiVar p x hp.lt hp.var⟩

theorem startsWith (h : Extends s t) (hs : s.StartsWith x b v) : t.StartsWith x b v := by
  rcases hs with ⟨p, hp, hr⟩ | ⟨hne, hq⟩
  · exact .inl ⟨p, h.isPhi hp, h.resolve_congr hr⟩
  · refine .inr ⟨by rwa [h.graph.preds], ?_⟩
    intro q hmem
    rw [h.graph.preds] at hmem
    obtain ⟨hf, he⟩ := hq q hmem
    exact ⟨h.filled q hf, h.ends x q v hf he⟩

protected theorem refl (s : Construction) (hs : ∀ v, s.resolve (s.resolve v) = s.resolve v) : Extends s s where
  graph := Func.SameGraph.refl s.func
  size_le := le_rfl
  value _ _ := rfl
  args _ _ _ := rfl
  known _ _ _ _ h := h
  resolve := hs
  ends _ _ _ _ h := h
  phiVar _ _ _ h := h
  filled _ h := h
  params := rfl
  locals_le := le_rfl

protected theorem trans (h : Extends s t) (h' : Extends t u) : Extends s u where
  graph := h.graph.trans h'.graph
  size_le := h.size_le.trans h'.size_le
  value v hv := (h'.value v (hv.trans_le h.size_le)).trans (h.value v hv)
  args v hv hop := (h'.args v (hv.trans_le h.size_le) (by rwa [h.value v hv])).trans (h.args v hv hop)
  known p x b hp hk := h'.known p x b (h.isPhi hp) (h.known p x b hp hk)
  resolve v := by rw [← h'.resolve (s.resolve v), h.resolve, h'.resolve]
  ends x b v hb he := h'.ends x b v (h.filled b hb) (h.ends x b v hb he)
  phiVar p x hp hx := h'.phiVar p x (hp.trans_le h.size_le) (h.phiVar p x hp hx)
  filled b hb := h'.filled b (h.filled b hb)
  params := h'.params.trans h.params
  locals_le := h.locals_le.trans h'.locals_le

theorem fits (h : Extends s t) {ir : Ir.Func} (hv : s.Fits ir x v) : t.Fits ir x v := by
  refine ⟨hv.1.trans_le h.size_le, ?_⟩
  rw [h.value v hv.1]
  exact hv.2

end Extends

theorem Sound.resolve_resolve {s : Construction} (hs : s.Sound ir W F) (v : ValueId) :
    s.resolve (s.resolve v) = s.resolve v := by
  rw [resolve_eq_standsFor hs.settled, resolve_eq_standsFor hs.settled, standsFor_standsFor hs.settled]

theorem Sound.resolve_self {s : Construction} (hs : s.Sound ir W F) (hv : s.forward.lookup v = none) :
    s.resolve v = v := by
  rw [resolve_eq_standsFor hs.settled, (standsFor_of_lookup_none hv).1]

theorem Sound.lookup_resolve {s : Construction} (hs : s.Sound ir W F) (v : ValueId) :
    s.forward.lookup (s.resolve v) = none := by
  rw [resolve_eq_standsFor hs.settled]
  exact lookup_standsFor hs.settled v

theorem Extends.of_func {s t : Construction} (hs : s.Sound ir W F) (hfunc : t.func = s.func)
    (hvars : t.phiVars = s.phiVars) (hfilled : t.filled = s.filled)
    (hres : ∀ v w, s.resolve v = s.resolve w → t.resolve v = t.resolve w)
    (hends : ∀ x b v, b ∈ s.filled → s.EndsWith x b v → t.EndsWith x b v) : Extends s t where
  graph := hfunc ▸ Func.SameGraph.refl s.func
  size_le := Nat.le_of_eq (by rw [hfunc])
  value _ _ := by rw [hfunc]
  args _ _ _ := by rw [hfunc]
  known p x b _ hk k q hq := by
    rw [hfunc] at hq
    obtain ⟨hf, a, ha, he⟩ := hk k q hq
    exact ⟨hfilled ▸ hf, a, hfunc ▸ ha, hends x q a hf he⟩
  resolve v := hres _ _ (hs.resolve_resolve v)
  ends := hends
  phiVar _ _ _ h := hvars ▸ h
  filled _ h := hfilled ▸ h
  params := by rw [hfunc]
  locals_le := Nat.le_of_eq (by rw [hfunc])

/-- What may change in a sound state: phis `new` are made and wait for their operands, others get operands
or give way, variables get values and the function grows. -/
structure Step (ir : Ir.Func) (W F new : List ValueId) (s t : Construction) : Prop extends Extends s t where
  sealed_eq : t.sealedBlocks = s.sealedBlocks := by rfl
  filled_eq : t.filled = s.filled := by rfl
  incomplete_eq : t.incomplete = s.incomplete := by rfl
  shape : t.func.Shape
  settled : Settled t.forward
  replaces : ∀ p v, t.forward.lookup p = some v → s.forward.lookup p = some v ∨
    (∃ x b, s.IsPhi p x b ∧ s.Known p x b) ∧ v < t.func.values.size ∧
      ((t.func.value p).ty ≠ TypeId.mem → (t.func.value v).ty = (t.func.value p).ty) ∧
      ∀ a ∈ t.func.args p, t.resolve a = t.resolve p
  replaced_args : ∀ p, p < s.func.values.size → s.isReplaced p → t.func.args p = s.func.args p
  defs_size : t.defs.size = s.defs.size := by rfl
  defines : ∀ x b v, t.def? x b = some v → s.def? x b = some v ∨ t.Fits ir x v ∧ (b ∈ t.sites x ∨ t.StartsWith x b v)
  sites : ∀ x b, b ∈ s.sites x → b ∈ t.sites x
  assigned : ∀ x b, b ∈ t.sites x → ∃ v, t.def? x b = some v
  makes : ∀ p, s.func.values.size ≤ p → p < t.func.values.size → (t.func.value p).op = .phi →
    p ∈ new ∧ ∃ x, t.phiVars.lookup p = some x ∧ (t.func.value p).ty = x.type ir
  waits : ∀ q ∈ new, q < t.func.values.size ∧ t.Untouched q
  free : ∀ q, q ∈ W ∨ q ∈ F ∨ q ∈ s.incomplete.map (·.2.2) → s.isReplaced q = false → t.isReplaced q = false
  users : ∀ v q, (v, q) ∈ t.phiUsers → v < t.func.values.size ∧
    ((∃ w, (w, q) ∈ s.phiUsers) ∨ q ∈ F ∧ q ∉ W ∧ q ∉ s.incomplete.map (·.2.2))

/-- The invariant is kept by every step of construction; the new phis wait for their operands. -/
theorem Sound.step {new : List ValueId} {s t : Construction} (hs : s.Sound ir W F) (h : Step ir W F new s t) :
    t.Sound ir (new ++ W) F := by
  have hext := h.toExtends
  have hlt : ∀ v, v < s.func.values.size → v < t.func.values.size := fun v hv => hv.trans_le hext.size_le
  have hknown : ∀ {q}, (∃ x b, s.IsPhi q x b ∧ s.Known q x b) → ∃ x b, t.IsPhi q x b ∧ t.Known q x b := by
    rintro q ⟨x, b, hp, hk⟩
    exact ⟨x, b, hext.isPhi hp, hext.known q x b hp hk⟩
  have hphi : ∀ p x b, p < s.func.values.size → t.IsPhi p x b → s.IsPhi p x b := by
    intro p x b hp h'
    have hval := hext.value p hp
    obtain ⟨y, hy, -⟩ := hs.phi_var p hp (hval ▸ h'.op)
    obtain rfl : y = x := Option.some.inj ((hext.phiVar p y hp hy).symm.trans h'.var)
    exact ⟨hp, hval ▸ h'.op, hval ▸ h'.block, hy⟩
  have huntouched : ∀ q, q ∈ W ∨ q ∈ s.incomplete.map (·.2.2) → s.Untouched q → t.Untouched q := by
    rintro q hq ⟨hself, hnone⟩
    refine ⟨h.free q (hq.imp_right .inr) hself, fun v hv => ?_⟩
    rcases (h.users v q hv).2 with ⟨w, hw⟩ | ⟨-, hW, hI⟩
    · exact hnone w hw
    · exact hq.elim hW hI
  exact
    { shape := h.shape
      settled := h.settled
      replaced := fun p v hv => by
        rcases h.replaces p v hv with hold | ⟨⟨x, b, hp, -⟩, hvlt, hty, -⟩
        · obtain ⟨hp, hv, hty⟩ := hs.replaced p v hold
          rw [hext.value p hp, hext.value v hv]
          exact ⟨hlt p hp, hlt v hv, hty⟩
        · exact ⟨hlt p hp.lt, hvlt, hty⟩
      replaced_known := fun p hp => by
        obtain ⟨v, hv⟩ := Option.isSome_iff_exists.mp hp
        rcases h.replaces p v hv with hold | ⟨hk, -, -, hargs⟩
        · have hp : s.isReplaced p := by rw [isReplaced, hold]; rfl
          obtain ⟨x, b, hip, hk, hargs⟩ := hs.replaced_known p hp
          refine ⟨x, b, hext.isPhi hip, hext.known p x b hip hk, fun a ha => hext.resolve_congr ?_⟩
          rw [h.replaced_args p hip.lt hp] at ha
          exact hargs a ha
        · obtain ⟨x, b, hip, hk⟩ := hknown hk
          exact ⟨x, b, hip, hk, hargs⟩
      defs_size := h.defs_size.trans (hs.defs_size.trans hext.graph.size.symm)
      defs := fun x b v hv => by
        rcases h.defines x b v hv with hold | hnew
        · exact hext.fits (hs.defs x b v hold)
        · exact hnew.1
      phi_var := fun p hp hop => by
        by_cases hold : p < s.func.values.size
        · rw [hext.value p hold] at hop ⊢
          obtain ⟨x, hx, hty⟩ := hs.phi_var p hold hop
          exact ⟨x, hext.phiVar p x hold hx, hty⟩
        · exact (h.makes p (not_lt.mp hold) hp hop).2
      known := fun p x b hp => by
        by_cases hold : p < s.func.values.size
        · have hp := hphi p x b hold hp
          rw [h.incomplete_eq]
          rcases hs.known p x b hp with hW | hF | hI | hk
          · exact .inl (mem_append_right _ hW)
          · exact .inr (.inl hF)
          · exact .inr (.inr (.inl hI))
          · exact .inr (.inr (.inr (hext.known p x b hp hk)))
        · exact .inl (mem_append_left _ (h.makes p (not_lt.mp hold) hp.lt hp.op).1)
      starts := fun x b v hv => by
        rcases h.defines x b v hv with hold | hnew
        · exact (hs.starts x b v hold).imp (h.sites x b) hext.startsWith
        · exact hnew.2
      assigned := h.assigned
      sealed_preds := fun b hb q hq => by
        rw [h.sealed_eq] at hb
        rw [hext.graph.preds] at hq
        rw [h.filled_eq]
        exact hs.sealed_preds b hb q hq
      filled_join := fun b hb => by
        rw [h.filled_eq] at hb
        rw [h.sealed_eq, hext.graph.preds]
        exact hs.filled_join b hb
      filled_lt := fun b hb => by
        rw [h.filled_eq] at hb
        rw [hext.graph.size]
        exact hs.filled_lt b hb
      entry_sealed := by
        rw [h.sealed_eq, hext.graph.entry]
        exact hs.entry_sealed
      incomplete := fun b x p hp => by
        rw [h.incomplete_eq] at hp
        obtain ⟨hb, hip, hfree⟩ := hs.incomplete b x p hp
        rw [h.sealed_eq]
        exact ⟨hb, hext.isPhi hip, huntouched p (.inr (mem_map_of_mem hp)) hfree⟩
      incomplete_nodup := by
        rw [h.incomplete_eq]
        exact hs.incomplete_nodup
      waiting := fun q hq => by
        rcases mem_append.mp hq with hq | hq
        · exact h.waits q hq
        · exact ⟨hlt q (hs.waiting q hq).1, huntouched q (.inl hq) (hs.waiting q hq).2⟩
      frames := fun q hq => ⟨hlt q (hs.frames q hq).1, h.free q (.inr (.inl hq)) (hs.frames q hq).2⟩
      users := fun v q hvq => by
        obtain ⟨hv, ⟨w, hw⟩ | ⟨hF, -⟩⟩ := h.users v q hvq
        · obtain ⟨-, hq, huser⟩ := hs.users w q hw
          exact ⟨hv, hlt q hq, huser.imp_right hknown⟩
        · exact ⟨hv, hlt q (hs.frames q hF).1, .inl hF⟩ }

namespace Asks

variable {s t u : Construction}

theorem of_func (hext : Extends s t) (hfunc : t.func = s.func) (hends : ∀ x b v, s.EndsWith x b v → t.EndsWith x b v)
    (hrest : t.filled = s.filled ∧ t.sealedBlocks = s.sealedBlocks ∧ t.assignments = s.assignments ∧
      t.consts = s.consts ∧ t.nodeValues = s.nodeValues) : Asks s t where
  toExtends := hext
  new_phi _ hle hlt := absurd hlt (hfunc ▸ not_lt.mpr hle)
  ends_all := hends
  body_all _ := by rw [hfunc]
  control_all _ := by rw [hfunc]
  filled_eq := hrest.1
  sealed _ h := hrest.2.1 ▸ h
  assignments_eq := hrest.2.2.1
  consts_eq := hrest.2.2.2.1
  nodeValues_eq := hrest.2.2.2.2

protected theorem refl (s : Construction) (hs : ∀ v, s.resolve (s.resolve v) = s.resolve v) : Asks s s where
  toExtends := Extends.refl s hs
  new_phi _ hle hlt := absurd hlt (not_lt.mpr hle)
  ends_all _ _ _ h := h
  body_all _ := rfl
  control_all _ := rfl
  filled_eq := rfl
  sealed _ h := h
  assignments_eq := rfl
  consts_eq := rfl
  nodeValues_eq := rfl

protected theorem trans (h : Asks s t) (h' : Asks t u) : Asks s u where
  toExtends := h.toExtends.trans h'.toExtends
  new_phi v hle hlt := by
    by_cases hv : v < t.func.values.size
    · rw [h'.value v hv]
      exact h.new_phi v hle hv
    · exact h'.new_phi v (not_lt.mp hv) hlt
  ends_all x b v he := h'.ends_all x b v (h.ends_all x b v he)
  body_all b := (h'.body_all b).trans (h.body_all b)
  control_all b := (h'.control_all b).trans (h.control_all b)
  filled_eq := h'.filled_eq.trans h.filled_eq
  sealed b hb := h'.sealed b (h.sealed b hb)
  assignments_eq := h'.assignments_eq.trans h.assignments_eq
  consts_eq := h'.consts_eq.trans h.consts_eq
  nodeValues_eq := h'.nodeValues_eq.trans h.nodeValues_eq

end Asks

namespace Frozen

variable {n m : Nat} {s t u : Construction}

protected theorem refl (n : Nat) (s : Construction) : Frozen n s s :=
  ⟨fun _ _ => rfl, fun _ _ h _ => h⟩

protected theorem trans (h : Frozen n s t) (h' : Frozen m t u) (hnm : n ≤ m) : Frozen n s u where
  args v hv := (h'.args v (hv.trans_le hnm)).trans (h.args v hv)
  users v q hm hq := h.users v q (h'.users v q hm (hq.trans_le hnm)) hq

end Frozen

end Construction

end SsaCodegen
