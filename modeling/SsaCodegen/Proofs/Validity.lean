import Mathlib.Order.Nat
import SsaCodegen.Ir.Validity
import SsaCodegen.Proofs.Stateful

/-! What a valid input function guarantees. -/

namespace SsaCodegen.Ir.Func

open List

variable {f : Func} {types : TypeTable} {k : Block} {u : Unit}

/-- What the end of a block may refer to. -/
def TerminatorOk (f : Func) (nodes : List NodeId) : Terminator → Prop
  | .jump _ => True
  | .branch cond _ _ => cond ∈ nodes ∧ f.nodeType cond = TypeId.bool
  | .ret none => f.result = TypeId.void
  | .ret (some v) => f.result ≠ TypeId.void ∧ v ∈ nodes ∧ f.nodeType v = f.result

/-- A node that may follow those in `before`. -/
structure NodeOk (f : Func) (types : TypeTable) (before : List NodeId) (n : NodeId) : Prop where
  lt : n < f.nodes.size
  operands : ∀ a ∈ (f.node n).kind.operands, a ∈ before
  type : isValueType types (f.nodeType n) = true
  typed : f.wellTyped types (f.node n) = true
  new : n ∉ before

structure Valid (f : Func) (types : TypeTable) : Prop where
  nonempty : 0 < f.blocks.size
  signature : ∀ ty ∈ f.params ++ [f.result], isValueType types ty = true
  params : TypeId.void ∉ f.params
  entry : f.predecessors 0 = []
  node : ∀ b, b < f.blocks.size → ∀ pre n post, (f.block b).nodes = pre ++ n :: post → f.NodeOk types pre n
  disjoint : ∀ b c, b < c → c < f.blocks.size → ∀ n ∈ (f.block b).nodes, n ∉ (f.block c).nodes
  term : ∀ b, b < f.blocks.size → ∃ t, (f.block b).term = some t ∧
    (∀ c ∈ t.successors, c < f.blocks.size) ∧ f.TerminatorOk (f.block b).nodes t

theorem checkNode_ok {earlier here : List NodeId} {n : NodeId}
    (h : f.checkNode types k earlier here n = .ok u) : f.NodeOk types here n ∧ n ∉ earlier := by
  rw [checkNode] at h
  split at h
  · cases h
  · next node hnode =>
    have hlt : n < f.nodes.size := (Array.getElem?_eq_some_iff.mp hnode).1
    have hget : f.node n = node := by
      rw [Func.node, Array.getD_eq_getD_getElem?, hnode]
      rfl
    split at h
    · cases h
    · next hfind =>
      split at h
      · cases h
      · next htype =>
        split at h
        · cases h
        · next htyped =>
          split at h
          · cases h
          · next hnew =>
            rw [Bool.or_eq_true, not_or, contains_iff_mem, contains_iff_mem] at hnew
            refine ⟨⟨hlt, fun a ha => ?_, ?_, ?_, hnew.1⟩, hnew.2⟩
            · rw [hget] at ha
              have := find?_eq_none.mp hfind a ha
              simpa using this
            · rw [nodeType, hget]
              simpa using htype
            · rw [hget]
              simpa using htyped

theorem checkNodes_ok {earlier : List NodeId} :
    ∀ {ns here res : List NodeId}, f.checkNodes types k earlier here ns = .ok res →
      res = ns.reverse ++ here ∧ ∀ pre n post, ns = pre ++ n :: post →
        f.NodeOk types (pre.reverse ++ here) n ∧ n ∉ earlier := by
  intro ns
  induction ns with
  | nil =>
    intro here res h
    cases h
    refine ⟨rfl, fun pre n post hsplit => ?_⟩
    exact absurd hsplit (by simp)
  | cons m ns ih =>
    intro here res h
    obtain ⟨u, hm, hrest⟩ := except_bind_eq_ok.mp h
    obtain ⟨hres, hok⟩ := ih hrest
    refine ⟨by rw [hres, reverse_cons, append_assoc]; rfl, fun pre n post hsplit => ?_⟩
    cases pre with
    | nil =>
      obtain ⟨rfl, -⟩ := List.cons.inj hsplit
      exact checkNode_ok hm
    | cons p pre =>
      obtain ⟨rfl, htail⟩ := List.cons.inj hsplit
      have := hok pre n post htail
      rwa [reverse_cons, append_assoc]

theorem checkTerminator_ok {here : List NodeId} (h : f.checkTerminator k here = .ok u) : ∃ t, k.term = some t ∧
      (∀ c ∈ t.successors, c < f.blocks.size) ∧ f.TerminatorOk here t := by
  rw [checkTerminator] at h
  split at h
  · cases h
  · next t hterm =>
    split at h
    · cases h
    · next hfind =>
      refine ⟨t, hterm, fun c hc => ?_, ?_⟩
      · have := find?_eq_none.mp hfind c hc
        simpa using this
      · split at h
        · trivial
        · split at h
          · next hc =>
            rw [Bool.and_eq_true, contains_iff_mem, beq_iff_eq] at hc
            exact hc
          · cases h
        · split at h
          · next hr => exact beq_iff_eq.mp hr
          · cases h
        · split at h
          · cases h
          · next hr =>
            split at h
            · next hc =>
              rw [Bool.and_eq_true, contains_iff_mem, beq_iff_eq] at hc
              exact ⟨fun hv => hr (beq_iff_eq.mpr hv), hc⟩
            · cases h

theorem TerminatorOk.congr {ns ms : List NodeId} (hmem : ∀ n, n ∈ ns ↔ n ∈ ms) {t : Terminator}
    (h : f.TerminatorOk ns t) : f.TerminatorOk ms t := by
  cases t with
  | jump _ => trivial
  | branch cond _ _ => exact ⟨(hmem cond).mp h.1, h.2⟩
  | ret value =>
    cases value with
    | none => exact h
    | some v => exact ⟨h.1, (hmem v).mp h.2.1, h.2.2⟩

theorem checkBlocks_ok : ∀ {ks : List Block} {earlier : List NodeId} {u : Unit},
    f.checkBlocks types earlier ks = .ok u → ∀ (i : Nat) k, ks[i]? = some k →
      (∀ pre n post, k.nodes = pre ++ n :: post → f.NodeOk types pre n ∧ n ∉ earlier) ∧
      (∃ t, k.term = some t ∧ (∀ c ∈ t.successors, c < f.blocks.size) ∧ f.TerminatorOk k.nodes t) ∧
      ∀ (j : Nat) k', i < j → ks[j]? = some k' → ∀ n ∈ k.nodes, n ∉ k'.nodes := by
  intro ks
  induction ks with
  | nil =>
    intro earlier u _ i k hk
    exact absurd hk (by simp)
  | cons k0 ks ih =>
    intro earlier u h i k hk
    obtain ⟨here, hnodes, hrest⟩ := except_bind_eq_ok.mp h
    obtain ⟨_, hterm, hrest⟩ := except_bind_eq_ok.mp hrest
    obtain ⟨rfl, hok⟩ := checkNodes_ok hnodes
    rw [append_nil] at hterm hrest
    cases i with
    | zero =>
      obtain rfl := Option.some.inj hk
      refine ⟨fun pre n post hsplit => ?_, ?_, fun j k' hj hk' n hn hn' => ?_⟩
      · obtain ⟨hn, hne⟩ := hok pre n post hsplit
        rw [append_nil] at hn
        exact ⟨⟨hn.lt, fun a ha => mem_reverse.mp (hn.operands a ha), hn.type, hn.typed,
          fun hm => hn.new (mem_reverse.mpr hm)⟩, hne⟩
      · obtain ⟨t, ht, hsucc, htok⟩ := checkTerminator_ok hterm
        exact ⟨t, ht, hsucc, htok.congr fun n => mem_reverse⟩
      · obtain ⟨j, rfl⟩ := Nat.exists_eq_succ_of_ne_zero hj.ne'
        obtain ⟨pre, post, hsplit⟩ := append_of_mem hn'
        have hne := ((ih hrest j k' hk').1 pre n post hsplit).2
        exact hne (mem_append_left _ (mem_reverse.mpr hn))
    | succ i =>
      obtain ⟨h1, h2, h3⟩ := ih hrest i k hk
      refine ⟨fun pre n post hsplit => ?_, h2, fun j k' hj hk' => ?_⟩
      · obtain ⟨hn, hne⟩ := h1 pre n post hsplit
        exact ⟨hn, fun hm => hne (mem_append_right _ hm)⟩
      · obtain ⟨j, rfl⟩ := Nat.exists_eq_succ_of_ne_zero ((Nat.zero_le _).trans_lt hj).ne'
        exact h3 j k' (Nat.lt_of_succ_lt_succ hj) hk'

theorem valid_of_validate (h : f.validate types = .ok u) : f.Valid types := by
  have hcheck := except_mapError_eq_ok.mp h
  have hempty : ¬f.blocks.isEmpty := by
    intro hc
    rw [check, if_pos hc] at hcheck
    cases hcheck
  rw [check, if_neg hempty] at hcheck
  obtain ⟨_, hsig, hrest⟩ := except_bind_eq_ok.mp hcheck
  have hentry : (f.predecessors 0).isEmpty := by
    by_contra hc
    rw [if_neg hc] at hrest
    cases hrest
  rw [if_pos hentry] at hrest
  have hget : ∀ b, b < f.blocks.size → f.blocks.toList[b]? = some (f.block b) := by
    intro b hb
    rw [Array.getElem?_toList, block, Array.getD_eq_getD_getElem?, Array.getElem?_eq_getElem hb]
    rfl
  have hsignature : (∀ ty ∈ f.params ++ [f.result], isValueType types ty) ∧ TypeId.void ∉ f.params := by
    rw [checkSignature] at hsig
    split at hsig
    · cases hsig
    · next hfind =>
      split at hsig
      · cases hsig
      · next hvoid =>
        refine ⟨fun ty hty => ?_, fun hm => hvoid (contains_iff_mem.mpr hm)⟩
        simpa using find?_eq_none.mp hfind ty hty
  refine ⟨?_, hsignature.1, hsignature.2, ?_, ?_, ?_, ?_⟩
  · exact Nat.pos_of_ne_zero fun h0 => hempty (by simpa using h0)
  · exact List.isEmpty_iff.mp hentry
  · intro b hb pre n post hsplit
    exact ((checkBlocks_ok hrest b _ (hget b hb)).1 pre n post hsplit).1
  · intro b c hbc hc
    exact (checkBlocks_ok hrest b _ (hget b (hbc.trans hc))).2.2 c _ hbc (hget c hc)
  · intro b hb
    exact (checkBlocks_ok hrest b _ (hget b hb)).2.1

end SsaCodegen.Ir.Func
