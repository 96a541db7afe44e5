import SsaCodegen.Proofs.Construction.Form
import SsaCodegen.Proofs.CriticalEdges

/-! What construction builds is ready for register allocation, once its critical edges are split. -/

namespace SsaCodegen

open List Func

theorem inputs_cases (ir : Ir.Func) (types : TypeTable) {v : Nat} {i : Input} (h : (inputs ir types)[v]? = some i) :
    (v = 0 ∧ i = ⟨.initMem, TypeId.mem, .none⟩) ∨
    (∃ k ty, v = k + 1 ∧ ir.params[k]? = some ty ∧ i = ⟨.arg, passedType types ty, .int k⟩) ∨
    (v = ir.params.length + 1 ∧ i = ⟨.resultPtr, TypeId.ptr, .none⟩) := by
  cases v with
  | zero => exact .inl ⟨rfl, (Option.some.inj h).symm⟩
  | succ k =>
    right
    by_cases hk : k < ir.params.length
    · rw [inputs_param ir types (getElem?_eq_getElem hk)] at h
      exact .inl ⟨k, _, rfl, getElem?_eq_getElem hk, (Option.some.inj h).symm⟩
    · right
      change (_ ++ _ : List Input)[k]? = _ at h
      rw [getElem?_append_right (by simpa using not_lt.mp hk)] at h
      split at h
      · simp only [length_map, length_zipIdx] at h
        obtain ⟨hlt, rfl⟩ := List.getElem?_eq_some_iff.mp h
        rw [length_singleton] at hlt
        exact ⟨by omega, by simp⟩
      · exact absurd h (by simp)

variable {ir : Ir.Func} {types : TypeTable} {built : Built}

theorem Func.Allocatable.recountUses {f : Func} (h : f.Allocatable types) : f.recountUses.Allocatable types :=
  f.sameCode_recountUses.allocatable h.ssa.recountUses h

namespace Construction

variable {s : Construction} {v : ValueId}

theorem pruned_rest (s : Construction) : s.pruned.values.size = s.func.values.size ∧
    s.pruned.params = s.func.params ∧ s.pruned.locals = s.func.locals := ⟨rfl, rfl, rfl⟩

variable {t : Task} {b : BlockId} {ps lead back : List ValueId}

theorem Complete.leading_pruned (h : Complete t s) (hl : s.Layout b ps lead back) :
    s.pruned.leading b = ps ++ lead ∧ ∃ rest, (s.pruned.block b).values = ps ++ lead ++ rest ∧
      ∀ v ∈ rest, (s.func.value v).op.isLeading = false := by
  have hrest : ∀ v ∈ (if b = s.func.entry then s.consts.map (·.2) else []) ++ back,
      (s.func.value v).op.isLeading = false := by
    intro v hv
    rcases mem_append.mp hv with hv | hv
    · split at hv
      · rw [(h.const_op hv).2.1]
        rfl
      · cases hv
    · exact hl.back v hv
  have hlead : ∀ v ∈ ps ++ lead, (s.func.value v).op.isLeading := by
    intro v hv
    rcases mem_append.mp hv with hv | hv
    · obtain ⟨x, hx⟩ := ((hl.phi v).mp hv).1
      rw [hx.op]
      rfl
    · exact (hl.lead v hv).1
  have hvalues := hl.values
  rw [append_assoc (ps ++ lead)] at hvalues
  refine ⟨?_, _, hvalues, hrest⟩
  rw [leading, hvalues]
  simp only [s.value_pruned]
  rw [takeWhile_append_of_pos hlead, takeWhile_eq_nil_iff.mpr, append_nil]
  intro hpos
  rw [hrest _ (get_mem ..)]
  exact Bool.false_ne_true

section

variable (hs : lowered ir types = .ok s) (hvalid : ir.Valid types)

include hs hvalid

theorem complete_collapse : Complete (enter ir types).1 s.collapse :=
  (complete_of_lowered hvalid hs).collapse.complete

theorem value_collapse (v : ValueId) : s.collapse.pruned.value v = s.func.value v := by
  rw [value_pruned, (complete_of_lowered hvalid hs).collapse.func]

theorem lt_of_mem_pruned (hv : v ∈ (s.collapse.pruned.block b).values) : v < s.func.values.size := by
  have hlt := ((complete_collapse hs hvalid).placed hv).1
  rwa [(complete_of_lowered hvalid hs).collapse.func] at hlt

theorem leading_collapse (hv : v ∈ s.collapse.pruned.leading b) (hphi : (s.collapse.func.value v).op ≠ .phi) :
    s.collapse.pruned.args v = [] ∧ b = s.collapse.func.entry := by
  have h := complete_collapse hs hvalid
  obtain ⟨ps, lead, back, hl⟩ := h.layout b
  rw [(h.leading_pruned hl).1] at hv
  rcases mem_append.mp hv with hv | hv
  · obtain ⟨x, hx⟩ := ((hl.phi v).mp hv).1
    exact absurd hx.op hphi
  · obtain ⟨hop, hargs⟩ := hl.lead v hv
    refine ⟨by rw [args_pruned, hargs, map_nil], ?_⟩
    obtain ⟨qs, rest, hvals, hqs, hrest⟩ := h.sound.shape.phis_first b
    have hbody : v ∈ s.collapse.func.body b := by
      rw [hl.body]
      exact mem_append_left _ hv
    have hmem := mem_of_mem_filter hbody
    rw [hvals] at hmem
    rcases mem_append.mp hmem with hmem | hmem
    · exact absurd (hqs v hmem) hphi
    · exact (hrest v hmem).2 hop

theorem own_collapse (hv : v ∈ (s.collapse.pruned.block b).values) :
    (s.collapse.func.value v).op ≠ .storeReg ∧ (s.collapse.func.value v).op ≠ .loadReg ∧
      (s.collapse.func.value v).op ≠ .ret := by
  have h := complete_collapse hs hvalid
  rcases h.mem_values_cases hv with ⟨x, hx⟩ | hbody | ⟨-, hconst⟩
  · rw [hx.op]
    decide
  · have hlisted := h.rooted.listed b v hbody
    refine ⟨?_, ?_, ?_⟩ <;> intro hop <;> rw [hop] at hlisted <;> cases hlisted
  · rw [(h.const_op hconst).2.1]
    decide

theorem type_phi_operand {p a : ValueId} (hp : p ∈ (s.collapse.pruned.block b).values)
    (hop : (s.collapse.func.value p).op = .phi) (hres : (s.collapse.func.value p).hasResult)
    (ha : a ∈ s.collapse.pruned.args p) : (s.collapse.func.value a).ty = (s.collapse.func.value p).ty := by
  have h := complete_collapse hs hvalid
  rw [args_pruned] at ha
  obtain ⟨a', ha', rfl⟩ := mem_map.mp ha
  obtain ⟨hlt, -⟩ := h.placed hp
  obtain ⟨x, hx, -⟩ := h.sound.phi_var p hlt hop
  have hty : (s.collapse.func.value p).ty ≠ TypeId.mem := by
    intro hty
    rw [Value.hasResult, hty] at hres
    exact absurd hres (by decide)
  exact h.type_operand ⟨hlt, hop, rfl, hx⟩ ha' hty

variable (htypes : types.Made)

include htypes

section

variable (hv : v < s.func.values.size)

include hv

theorem input_of_leading (hlead : (s.func.value v).op.isLeading) (hphi : (s.func.value v).op ≠ .phi) :
    ∃ i, (inputs ir types)[v]? = some i ∧ (s.func.value v).op = i.op ∧ (s.func.value v).ty = i.ty ∧
      (s.func.value v).payload = i.payload := by
  have h := ((typed_of_lowered htypes hvalid hs).leading v hv hlead).resolve_left hphi
  rwa [(task_enter ir types).2.1] at h

theorem input_of_arg (hop : (s.func.value v).op = .arg) : ∃ k ty, v = k + 1 ∧ ir.params[k]? = some ty ∧
      (s.func.value v).ty = passedType types ty ∧ (s.func.value v).payload = .int k := by
  obtain ⟨i, hi, hiop, hty, hpayload⟩ :=
    input_of_leading hs hvalid htypes hv (by rw [hop]; rfl) (by rw [hop]; decide)
  rw [hop] at hiop
  rcases inputs_cases ir types hi with ⟨-, rfl⟩ | ⟨k, ty, rfl, hk, rfl⟩ | ⟨-, rfl⟩
  · cases hiop
  · exact ⟨k, ty, rfl, hk, hty, hpayload⟩
  · cases hiop

theorem input_of_resultPtr (hop : (s.func.value v).op = .resultPtr) :
    v = ir.params.length + 1 ∧ (s.func.value v).ty = TypeId.ptr := by
  obtain ⟨i, hi, hiop, hty, -⟩ :=
    input_of_leading hs hvalid htypes hv (by rw [hop]; rfl) (by rw [hop]; decide)
  rw [hop] at hiop
  rcases inputs_cases ir types hi with ⟨-, rfl⟩ | ⟨k, ty, -, -, rfl⟩ | ⟨hv, rfl⟩
  · cases hiop
  · cases hiop
  · exact ⟨hv, hty⟩

end

theorem type_of_initMem (hop : (s.func.value v).op = .initMem) : (s.func.value v).ty = TypeId.mem := by
  by_cases hv : v < s.func.values.size
  · obtain ⟨i, hi, hiop, hty, -⟩ :=
      input_of_leading hs hvalid htypes hv (by rw [hop]; rfl) (by rw [hop]; decide)
    rw [hop] at hiop
    rcases inputs_cases ir types hi with ⟨-, rfl⟩ | ⟨k, ty, -, -, rfl⟩ | ⟨-, rfl⟩
    · exact hty
    · cases hiop
    · cases hiop
  · rw [s.func.value_eq_default (not_lt.mp hv)]
    rfl

theorem typed_pruned : s.collapse.pruned.Typed ir types := by
  have h := complete_collapse hs hvalid
  have htyped := (typed_of_lowered htypes hvalid hs).func
  rw [← (complete_of_lowered hvalid hs).collapse.func] at htyped
  obtain ⟨hsize, -, hlocals⟩ := s.collapse.pruned_rest
  intro v hv hlead
  rw [hsize] at hv
  rw [value_pruned] at hlead
  have hcomputes := htyped v hv hlead
  refine hcomputes.congr ?_ ?_ (by rw [hlocals])
  · rw [value_pruned]
    exact ⟨rfl, rfl, rfl⟩
  have hdata : s.collapse.pruned.dataArgs v = (s.collapse.func.dataArgs v).map s.collapse.resolve := by
    rw [dataArgs, dataArgs, args_pruned, value_pruned]
    split
    · rfl
    · split
      · exact map_dropLast.symm
      · rfl
  rw [dataTypes, hdata, map_map]
  refine map_congr_left fun a ha => ?_
  rw [Function.comp_apply, value_pruned]
  have hlt := h.sound.shape.args_lt v hv a ((s.collapse.func.dataArgs_front v).subset ha)
  exact (h.sound.type_resolve hlt).2 (hcomputes.operands _ (mem_map_of_mem ha)).1

theorem allocatable_pruned : s.collapse.pruned.Allocatable types := by
  have h := complete_collapse hs hvalid
  have hvalue := value_collapse hs hvalid
  have hlt : ∀ b, ∀ v ∈ (s.collapse.pruned.block b).values, v < s.func.values.size :=
    fun b v hv => lt_of_mem_pruned hs hvalid hv
  have hparams : s.collapse.pruned.params = ir.params := by
    rw [(pruned_rest _).2.1, (complete_of_lowered hvalid hs).collapse.func,
      (typed_of_lowered htypes hvalid hs).params, (task_enter ir types).1]
  refine ⟨h.ssaForm, h.branchesOnBool htypes.bool_not_memory, ⟨htypes.parts_mem, htypes.parts_void⟩,
    ?_, ?_, ?_, ?_, ?_, ?_, ?_, ?_, ?_, ?_, ?_, ?_⟩
  · intro v
    rw [hvalue]
    by_cases hv : v < s.func.values.size
    · exact (typed_of_lowered htypes hvalid hs).bare v hv
    · rw [s.func.value_eq_default (not_lt.mp hv)]
      rfl
  · intro b
    obtain ⟨ps, lead, back, hl⟩ := h.layout b
    obtain ⟨hleading, rest, hvals, hrest⟩ := h.leading_pruned hl
    refine ⟨rest, by rw [hleading, hvals], fun v hv => ?_⟩
    rw [value_pruned]
    exact hrest v hv
  · intro b v hv hphi
    rw [value_pruned] at hphi
    rw [(sameGraph_pruned s.collapse).entry]
    exact (leading_collapse hs hvalid hv hphi).2
  · intro b v hv hphi
    rw [value_pruned] at hphi
    exact (leading_collapse hs hvalid hv hphi).1
  · intro b v hv hop
    rw [value_pruned] at hop
    have hconst := h.const_op (h.rooted.const v (h.placed hv).1 hop)
    rw [args_pruned, hconst.2.2.2, map_nil]
  · intro b v hv
    rw [value_pruned]
    exact own_collapse hs hvalid hv
  · intro v hop
    rw [hvalue] at hop ⊢
    exact type_of_initMem hs hvalid htypes hop
  · intro b v hv hop
    rw [hvalue] at hop ⊢
    obtain ⟨k, ty, -, hk, hty, hpayload⟩ := input_of_arg hs hvalid htypes (hlt b v hv) hop
    exact ⟨k, ty, hpayload, by rw [hparams]; exact hk, hty⟩
  · intro b v hv w hw hopv hopw hpayload
    rw [hvalue] at hopv hopw
    rw [hvalue, hvalue] at hpayload
    obtain ⟨k, ty, rfl, -, -, hk⟩ := input_of_arg hs hvalid htypes (hlt b v hv) hopv
    obtain ⟨j, ty', rfl, -, -, hj⟩ := input_of_arg hs hvalid htypes (hlt b w hw) hopw
    rw [hk, hj] at hpayload
    cases hpayload
    rfl
  · intro b v hv hop
    rw [hvalue] at hop ⊢
    rw [(input_of_resultPtr hs hvalid htypes (hlt b v hv) hop).2]
    exact htypes.parts_ptr
  · intro b v hv w hw hopv hopw
    rw [hvalue] at hopv hopw
    rw [(input_of_resultPtr hs hvalid htypes (hlt b v hv) hopv).1,
      (input_of_resultPtr hs hvalid htypes (hlt b w hw) hopw).1]
  · intro b p hp hop hres a ha
    rw [value_pruned] at hop hres
    rw [value_pruned, value_pruned]
    exact type_phi_operand hs hvalid hp hop hres ha

end

end Construction

section

variable (htypes : types.Made) (hbuilt : buildSsa ir types = .ok built)

include htypes hbuilt

theorem prepared_of_buildSsa : built.func.splitCriticalEdges.Prepared types := by
  obtain ⟨hvalid, s, hs, rfl⟩ := lowered_of_buildSsa hbuilt
  exact (Construction.allocatable_pruned hs hvalid htypes).recountUses.prepared

theorem typed_of_buildSsa : built.func.splitCriticalEdges.Typed ir types := by
  obtain ⟨hvalid, s, hs, rfl⟩ := lowered_of_buildSsa hbuilt
  have hallocatable := (Construction.allocatable_pruned hs hvalid htypes).recountUses
  have htyped : s.collapse.pruned.recountUses.Typed ir types := by
    obtain ⟨vals, heq, hsize, -⟩ := s.collapse.pruned.recountUses_spec
    refine (Construction.typed_pruned hs hvalid htypes).congr ?_ (fun v => ⟨?_, ?_, ?_⟩)
      (s.collapse.pruned.args_recountUses) ?_
    · rw [heq]
      exact hsize
    · exact value_recountUses_congr _ Value.op (fun _ _ => rfl) v
    · exact value_recountUses_congr _ Value.ty (fun _ _ => rfl) v
    · exact value_recountUses_congr _ Value.payload (fun _ _ => rfl) v
    · rw [heq]
  refine (splitting_splitCriticalEdges hallocatable.ssa.flow.balanced
    (fun g => g.Allocatable types ∧ g.Typed ir types) ?_ ⟨hallocatable, htyped⟩).2.2.2
  rintro g g' p c i j hsp - ⟨hg, hty⟩
  refine ⟨hsp.allocatable hg, hty.congr (congrArg Array.size hsp.values_eq) (fun v => ?_) hsp.args hsp.locals⟩
  rw [hsp.value]
  exact ⟨rfl, rfl, rfl⟩

end

end SsaCodegen
