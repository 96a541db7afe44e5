import SsaCodegen.Proofs.Construction.Unassigned

/-! What construction looks up by number. A valid function has all of it that its signature and its blocks
refer to, but not always the types of its locals. -/

namespace SsaCodegen

open List

namespace Ir

/-- What a node names besides its operands is there. -/
def NodeKind.Named (f : Func) (types : TypeTable) : NodeKind → Prop
  | .param i => i < f.params.length
  | .loadLocal l | .storeLocal l _ | .addrOf l => l < f.locals.size
  | .extract a i => (types.fieldType? (f.nodeType a) i).isSome = true
  | .zero _ ty => types.isValid ty = true
  | _ => True

def Terminator.operand? : Terminator → Option NodeId
  | .jump _ => none
  | .branch cond _ _ => some cond
  | .ret value => value

namespace Func

variable {f : Func} {types : TypeTable} {n : NodeId} {u : Unit}

/-- What the blocks and the signature of a function refer to is there. -/
structure Referenced (f : Func) (types : TypeTable) : Prop where
  signature : ∀ ty ∈ f.params ++ [f.result], types.isValid ty = true
  node : ∀ b, b < f.blocks.size → ∀ n ∈ (f.block b).nodes, n < f.nodes.size ∧
    types.isValid (f.nodeType n) ∧ (∀ a ∈ (f.node n).kind.operands, a < f.nodes.size) ∧
    (f.node n).kind.Named f types
  term : ∀ b, b < f.blocks.size → ∃ t, (f.block b).term = some t ∧
    (∀ c ∈ t.successors, c < f.blocks.size) ∧ ∀ a, t.operand? = some a → a < f.nodes.size

/-- All that construction looks up is there. -/
structure Indexed (f : Func) (types : TypeTable) : Prop extends Referenced f types where
  localType : ∀ l, l < f.locals.size → types.isValid (f.locals.getD l default).ty = true
  addressed : ∀ n, n < f.nodes.size → ∀ l, (f.node n).kind = .addrOf l → l < f.locals.size

theorem isValid_of_isValueType {ty : TypeId} (h : isValueType types ty) : types.isValid ty := by
  rw [isValueType, Bool.and_eq_true] at h
  exact h.1

theorem lt_of_localAt? {l : LocalId} (h : (f.localAt? l).isSome) : l < f.locals.size := by
  obtain ⟨x, hx⟩ := Option.isSome_iff_exists.mp h
  exact (Array.getElem?_eq_some_iff.mp hx).1

theorem NodeOk.named {before : List NodeId} (h : f.NodeOk types before n) : (f.node n).kind.Named f types := by
  have hany : ∀ {α : Type} {o : Option α} {p : α → Bool}, o.any p → o.isSome := by
    intro α o p ho
    cases o with
    | none => cases ho
    | some _ => rfl
  have htyped := h.typed
  rw [wellTyped] at htyped
  generalize (f.node n).kind = kind at htyped ⊢
  cases kind with
  | param i => exact (List.getElem?_eq_some_iff.mp (beq_iff_eq.mp htyped)).1
  | loadLocal l => exact lt_of_localAt? (hany htyped)
  | storeLocal l x => exact lt_of_localAt? (hany (Bool.and_eq_true _ _ ▸ htyped).1)
  | addrOf l => exact lt_of_localAt? (Bool.and_eq_true _ _ ▸ htyped).1
  | extract a i =>
    rw [NodeKind.Named, beq_iff_eq.mp htyped]
    rfl
  | zero ptr ty => exact (Bool.and_eq_true _ _ ▸ htyped).2
  | _ => trivial

theorem Valid.mem_nodes_lt (h : f.Valid types) {b : BlockId} (hb : b < f.blocks.size)
    (hn : n ∈ (f.block b).nodes) : n < f.nodes.size := by
  obtain ⟨pre, post, hsplit⟩ := append_of_mem hn
  exact (h.node b hb pre n post hsplit).lt

theorem referenced_of_validate (h : f.validate types = .ok u) : f.Referenced types := by
  have hvalid := valid_of_validate h
  refine ⟨fun ty hty => isValid_of_isValueType (hvalid.signature ty hty), fun b hb n hn => ?_, fun b hb => ?_⟩
  · obtain ⟨pre, post, hsplit⟩ := append_of_mem hn
    have hok := hvalid.node b hb pre n post hsplit
    refine ⟨hok.lt, isValid_of_isValueType hok.type, fun a ha => ?_, hok.named⟩
    refine hvalid.mem_nodes_lt hb ?_
    rw [hsplit]
    exact mem_append_left _ (hok.operands a ha)
  · obtain ⟨t, ht, hsucc, hok⟩ := hvalid.term b hb
    refine ⟨t, ht, hsucc, fun a ha => hvalid.mem_nodes_lt hb ?_⟩
    cases t with
    | jump target => cases ha
    | branch cond yes no =>
      obtain rfl := Option.some.inj ha
      exact hok.1
    | ret value =>
      rw [show value = some a from ha] at hok
      exact hok.2.1

theorem mem_zipIdx_toList {α : Type} [Inhabited α] {xs : Array α} {x : α} {i : Nat} :
    (x, i) ∈ xs.toList.zipIdx ↔ i < xs.size ∧ xs.getD i default = x := by
  rw [mem_zipIdx_iff_getElem?]
  by_cases hi : i < xs.size
  · simp [hi]
  · simp [hi]

/-- Where locals live can be told if their types are known and only locals that exist have their address
taken. -/
theorem checkLocals_eq_ok : f.checkLocals types = .ok () ↔
    (∀ l, l < f.locals.size → types.isValid (f.locals.getD l default).ty) ∧
      ∀ n, n < f.nodes.size → ∀ l, (f.node n).kind = .addrOf l → l < f.locals.size := by
  rw [checkLocals]
  constructor
  · intro h
    split at h
    · cases h
    · next hfind =>
      refine ⟨fun l hl => ?_, fun n hn l hkind => ?_⟩
      · have hvalid := find?_eq_none.mp hfind _ (mem_zipIdx_toList.mpr ⟨hl, rfl⟩)
        simpa using hvalid
      · have hnode := (forM_eq_ok _).mp h _ (mem_zipIdx_toList.mpr ⟨hn, rfl⟩)
        dsimp only at hnode
        rw [show (f.nodes.getD n default).kind = .addrOf l from hkind] at hnode
        dsimp only at hnode
        by_contra hl
        rw [if_neg hl] at hnode
        cases hnode
  · rintro ⟨hlocals, hnodes⟩
    split
    · next x l hfind =>
      obtain ⟨hl, rfl⟩ := mem_zipIdx_toList.mp (mem_of_find?_eq_some hfind)
      have hinvalid := find?_some hfind
      dsimp only at hinvalid
      rw [hlocals l hl] at hinvalid
      cases hinvalid
    · refine (forM_eq_ok _).mpr ?_
      rintro ⟨node, n⟩ hmem
      obtain ⟨hn, rfl⟩ := mem_zipIdx_toList.mp hmem
      dsimp only
      split
      · next l hkind =>
        rw [if_pos (hnodes n hn l hkind)]
        rfl
      · rfl

theorem indexed_iff (h : f.validate types = .ok u) : f.Indexed types ↔ f.checkLocals types = .ok () := by
  rw [checkLocals_eq_ok]
  exact ⟨fun hi => ⟨hi.localType, hi.addressed⟩, fun hl => ⟨referenced_of_validate h, hl.1, hl.2⟩⟩

end Func

end Ir

/-- Construction of a valid function meets a number that is out of range exactly if something that it looks
up is not there. -/
theorem out_of_range_iff_not_indexed (ir : Ir.Func) (types : TypeTable) :
    (∃ func fault, buildSsa ir types = .error (.outOfRange func fault)) ↔
      ir.validate types = .ok () ∧ ¬ ir.Indexed types := by
  rw [buildSsa]
  constructor
  · rintro ⟨func, fault, h⟩
    cases hvalidate : ir.validate types with
    | error e =>
      obtain ⟨fault', rfl⟩ := Ir.Func.invalidIr_of_validate hvalidate
      rw [hvalidate] at h
      cases h
    | ok u =>
      refine ⟨rfl, fun hindexed => ?_⟩
      rw [hvalidate] at h
      replace h : buildUnchecked ir types = .error (.outOfRange func fault) := h
      rw [buildUnchecked_eq, (Ir.Func.indexed_iff hvalidate).mp hindexed] at h
      cases hlowered : lowered ir types with
      | ok s =>
        rw [hlowered] at h
        cases h
      | error e =>
        rw [hlowered] at h
        obtain rfl : e = .outOfRange func fault := Except.error.inj h
        exact lowered_outcome (Ir.Func.valid_of_validate hvalidate) hlowered
  · rintro ⟨hvalidate, hindexed⟩
    rw [Ir.Func.indexed_iff hvalidate] at hindexed
    cases hlocals : ir.checkLocals types with
    | ok u => exact absurd hlocals hindexed
    | error fault =>
      refine ⟨ir.name, fault, ?_⟩
      rw [hvalidate]
      change buildUnchecked ir types = _
      rw [buildUnchecked_eq, hlocals]
      rfl

/-- A valid function with a local whose type is not known. -/
def strangeLocal : Ir.Func where
  name := "strange"
  params := []
  result := TypeId.void
  locals := #[⟨"x", 99⟩]
  blocks := #[⟨"entry", [], some (.ret none)⟩]
  nodes := #[]

/-- Being valid does not put all that is looked up in range. -/
theorem strangeLocal_out_of_range : strangeLocal.validate .builtins = .ok () ∧
    (buildSsa strangeLocal .builtins).map (fun _ => ()) = .error (.outOfRange "strange" (.localType 0 99)) := by
  decide +kernel

end SsaCodegen
