import SsaCodegen.Proofs.Construction.Typing
import SsaCodegen.Proofs.Validity

/-! Lowering a block. Every operation computes some values from what is available, and leaves one that is
available itself and has the type that it needs. -/

namespace SsaCodegen

open List Func

variable {f : Func}

def Op.isListed : Op → Bool
  | .const | .ret | .storeReg | .loadReg => false
  | _ => true

def Func.InputsFirst (f : Func) : Prop :=
  ∃ lead rest, f.body f.entry = lead ++ rest ∧ (∀ v ∈ lead, (f.value v).op.isLeading ∧ f.args v = []) ∧
    ∀ v ∈ rest, (f.value v).op.isLeading = false

theorem Func.InputsFirst.append {g : Func} (h : f.InputsFirst) {new : List ValueId}
    (hbody : g.body g.entry = f.body f.entry ++ new)
    (hold : ∀ v ∈ f.body f.entry, g.value v = f.value v ∧ g.args v = f.args v)
    (hnew : ∀ v ∈ new, (g.value v).op.isLeading = false) : g.InputsFirst := by
  obtain ⟨lead, rest, hsplit, hlead, hrest⟩ := h
  rw [hsplit] at hold
  refine ⟨lead, rest ++ new, by rw [hbody, hsplit, append_assoc], fun v hv => ?_, fun v hv => ?_⟩
  · rw [(hold v (mem_append_left _ hv)).1, (hold v (mem_append_left _ hv)).2]
    exact hlead v hv
  · rcases mem_append.mp hv with hv | hv
    · rw [(hold v (mem_append_right _ hv)).1]
      exact hrest v hv
    · exact hnew v hv

theorem Func.mem_body (h : f.Shape) {b : BlockId} {v : ValueId} (hv : v ∈ f.body b) :
    v < f.values.size ∧ (f.value v).block = b ∧ (f.value v).op ≠ .phi := by
  obtain ⟨hmem, hop⟩ := mem_filter.mp hv
  exact ⟨(h.placed b v hmem).1, (h.placed b v hmem).2, by simpa using hop⟩

namespace Construction

variable {x : Var} {v : ValueId}

/-- Constants are kept aside until the function is finished; inputs stand in the entry. -/
structure Rooted (s : Construction) : Prop where
  const : ∀ v, v < s.func.values.size → (s.func.value v).op = .const → v ∈ s.consts.map (·.2)
  consts : ∀ key c, (key, c) ∈ s.consts → c < s.func.values.size ∧
    (s.func.value c).op = .const ∧ (s.func.value c).ty = key.1 ∧
    (s.func.value c).block = s.func.entry ∧ s.func.args c = []
  nodup : (s.consts.map (·.2)).Nodup
  inputs : ∀ v, v < s.func.values.size →
    (s.func.value v).op = .arg ∨ (s.func.value v).op = .resultPtr → v ∈ s.func.body s.func.entry
  listed : ∀ b, ∀ v ∈ s.func.body b, (s.func.value v).op.isListed = true
  first : s.func.InputsFirst

/-- What a task has from the entry. -/
structure Given (t : Task) (s : Construction) : Prop where
  params : ∀ (i : Nat) ty, t.ir.params[i]? = some ty → ∃ v, t.params[i]? = some v ∧
    v < s.func.values.size ∧ (s.func.value v).op = .arg ∧
    (s.func.value v).ty = passedType t.types ty
  resultPtr : ∀ v, t.resultPtr = some v →
    v < s.func.values.size ∧ (s.func.value v).op = .resultPtr ∧ (s.func.value v).ty = TypeId.ptr
  registers : ∀ l, t.memoryLocals.getD l none = none → l < t.ir.locals.size →
    t.types.isMemoryAggregate (Var.type t.ir (.slot l)) = false
  slots : ∀ l slot, t.memoryLocals.getD l none = some slot → slot < s.func.locals.size

/-- The block `b` is open to new values. -/
structure Lowerable (t : Task) (b : BlockId) (s : Construction) : Prop where
  sound : s.Sound t.ir [] []
  rooted : s.Rooted
  given : s.Given t
  unfilled : b ∉ s.filled
  lt : b < s.func.blocks.size
  join : b ∈ s.sealedBlocks ∨ 2 ≤ (s.func.block b).preds.length
  typed : t.types.Made → s.Typed t

/-- What the block `b` has assigned is what its script says. -/
structure Tracks (s : Construction) (b : BlockId) (es : List Event) : Prop where
  tracks : ∀ x w, assigned? s.func x es = some w → s.EndsWith x b w
  untouched : ∀ x, assigned? s.func x es = none → b ∉ s.sites x

/-- The block `b` is being lowered, and `es` is its script so far. -/
structure Lowering (t : Task) (b : BlockId) (s : Construction) (es : List Event) : Prop
    extends Lowerable t b s, Tracks s b es where
  script : Script t s b es

/-- The value is available, with that type. -/
def Carries (t : Task) (s : Construction) (es : List Event) (v : ValueId) (ty : TypeId) : Prop :=
  s.Avail es v ∧ (t.types.Made → s.Holds t v ty)

/-- What work on the block `b` keeps: the other blocks stay as they are. -/
structure Works (b : BlockId) (s s' : Construction) : Prop extends Extends s s' where
  filled_eq : s'.filled = s.filled
  body_other : ∀ c, c ≠ b → s'.func.body c = s.func.body c
  control_other : ∀ c, c ≠ b → (s'.func.block c).control = (s.func.block c).control
  sites_other : ∀ c, c ≠ b → ∀ x, c ∈ s'.sites x → c ∈ s.sites x

/-- The script goes on with values only. -/
structure Goes (t : Task) (b : BlockId) (s : Construction) (es : List Event) (s' : Construction)
    (es' : List Event) : Prop where
  lowering : Lowering t b s' es'
  works : Works b s s'
  nodeValues : s'.nodeValues = s.nodeValues
  control : (s'.func.block b).control = (s.func.block b).control
  values : ∃ vs : List ValueId, es' = es ++ vs.map .value

variable {t : Task} {b : BlockId} {s s' s'' : Construction} {es es' es'' : List Event} {ty : TypeId}
  {tys : List TypeId} {args : List ValueId} {op : Op} {payload : Payload}

protected theorem Works.refl (hs : s.Sound t.ir [] []) : Works b s s where
  toExtends := Extends.refl s hs.resolve_resolve
  filled_eq := rfl
  body_other _ _ := rfl
  control_other _ _ := rfl
  sites_other _ _ _ h := h

protected theorem Works.trans (h : Works b s s') (h' : Works b s' s'') : Works b s s'' where
  toExtends := h.toExtends.trans h'.toExtends
  filled_eq := h'.filled_eq.trans h.filled_eq
  body_other c hc := (h'.body_other c hc).trans (h.body_other c hc)
  control_other c hc := (h'.control_other c hc).trans (h.control_other c hc)
  sites_other c hc x hx := h.sites_other c hc x (h'.sites_other c hc x hx)

theorem Asks.works (h : Asks s s') (b : BlockId) : Works b s s' where
  toExtends := h.toExtends
  filled_eq := h.filled_eq
  body_other c _ := h.body_all c
  control_other c _ := h.control_all c
  sites_other c _ x hx := by
    rw [sites, h.assignments_eq] at hx
    exact hx

theorem Given.extends (h : s.Given t) (hext : Extends s s') : s'.Given t where
  params i ty hi := by
    obtain ⟨v, hv, hlt, hop, hty⟩ := h.params i ty hi
    rw [← hext.value v hlt] at hop hty
    exact ⟨v, hv, hlt.trans_le hext.size_le, hop, hty⟩
  resultPtr v hv := by
    obtain ⟨hlt, hop⟩ := h.resultPtr v hv
    rw [← hext.value v hlt] at hop
    exact ⟨hlt.trans_le hext.size_le, hop⟩
  registers := h.registers
  slots l slot hslot := (h.slots l slot hslot).trans_le hext.locals_le

theorem Goes.refl (h : Lowering t b s es) : Goes t b s es s es :=
  ⟨h, Works.refl h.sound, rfl, rfl, [], by rw [map_nil, append_nil]⟩

section

variable (h : Goes t b s es s' es')

include h

theorem Goes.trans (h' : Goes t b s' es' s'' es'') : Goes t b s es s'' es'' := by
  obtain ⟨vs, hvs⟩ := h.values
  obtain ⟨ws, hws⟩ := h'.values
  refine ⟨h'.lowering, h.works.trans h'.works, h'.nodeValues.trans h.nodeValues,
    h'.control.trans h.control, vs ++ ws, ?_⟩
  rw [hws, hvs, List.map_append, append_assoc]

theorem Goes.sub : ∀ e ∈ es, e ∈ es' := by
  obtain ⟨vs, rfl⟩ := h.values
  exact fun e he => mem_append_left _ he

theorem Goes.avail {a : ValueId} (ha : s.Avail es a) : s'.Avail es' a :=
  (h.works.avail ha).mono h.sub

theorem Goes.carries (hv : s.Carries t es v ty) : s'.Carries t es' v ty :=
  ⟨h.avail hv.1, fun hmade => h.works.holds (hv.2 hmade)⟩

theorem Goes.carry (hargs : List.Forall₂ (s.Carries t es) args tys) : List.Forall₂ (s'.Carries t es') args tys :=
  hargs.imp fun _ _ => h.carries

end

theorem avail_of_carries (h : List.Forall₂ (s.Carries t es) args tys) : ∀ a ∈ args, s.Avail es a := by
  induction h with
  | nil => exact forall_mem_nil _
  | cons hv _ ih => exact forall_mem_cons.mpr ⟨hv.1, ih⟩

theorem carries_ptr (hav : s.Avail es v) (hty : (s.func.value v).ty = TypeId.ptr) : s.Carries t es v TypeId.ptr :=
  ⟨hav, fun _ => ⟨hav.1, hty, t.ir.mayHold_ptr⟩⟩

theorem Lowering.value_lt (h : Lowering t b s es) : ∀ v, .value v ∈ es → v < s.func.values.size :=
  fun _ hv => (h.script.value_lt hv).1

/-- New values that are no inputs, and `cs` the constants among them, leave the roots as they are. -/
theorem Rooted.extends (h : s.Rooted) (new : BlockId → List ValueId) (cs : List ((TypeId × Int) × ValueId))
    (hshape : s.func.Shape) (hext : Extends s s') (hbody : ∀ c, s'.func.body c = s.func.body c ++ new c)
    (hlisted : ∀ c, ∀ v ∈ new c, (s'.func.value v).op.isListed ∧ (s'.func.value v).op.isLeading = false)
    (hops : ∀ v, s.func.values.size ≤ v → v < s'.func.values.size → (s'.func.value v).op = .phi ∨
      (s'.func.value v).op.isLeading = false ∧ ((s'.func.value v).op = .const → v ∈ cs.map (·.2)))
    (hconsts : s'.consts = s.consts ++ cs) (hnodup : (s'.consts.map (·.2)).Nodup)
    (hcs : ∀ key c, (key, c) ∈ cs → c < s'.func.values.size ∧ (s'.func.value c).op = .const ∧
      (s'.func.value c).ty = key.1 ∧ (s'.func.value c).block = s.func.entry ∧ s'.func.args c = []) :
    s'.Rooted := by
  have hold : ∀ c, ∀ v ∈ s.func.body c, s'.func.value v = s.func.value v ∧ s'.func.args v = s.func.args v := by
    intro c v hv
    obtain ⟨hlt, -, hop⟩ := mem_body hshape hv
    exact ⟨hext.value v hlt, hext.args v hlt hop⟩
  have hentry := hext.graph.entry
  refine ⟨fun v hv hop => ?_, fun key c hc => ?_, hnodup, fun v hv hop => ?_, fun c v hv => ?_,
    h.first.append (by rw [hentry]; exact hbody _) (hold _) fun v hv => (hlisted _ v hv).2⟩
  · rw [hconsts, List.map_append]
    by_cases hlt : v < s.func.values.size
    · rw [hext.value v hlt] at hop
      exact mem_append_left _ (h.const v hlt hop)
    · rcases hops v (not_lt.mp hlt) hv with hphi | ⟨-, hmem⟩
      · cases hop.symm.trans hphi
      · exact mem_append_right _ (hmem hop)
  · rw [hconsts] at hc
    rw [hentry]
    rcases mem_append.mp hc with hc | hc
    · obtain ⟨hlt, hop, hrest⟩ := h.consts key c hc
      rw [hext.value c hlt, hext.args c hlt (by rw [hop]; decide)]
      exact ⟨hlt.trans_le hext.size_le, hop, hrest⟩
    · exact hcs key c hc
  · by_cases hlt : v < s.func.values.size
    · rw [hext.value v hlt] at hop
      rw [hentry, hbody]
      exact mem_append_left _ (h.inputs v hlt hop)
    · rcases hops v (not_lt.mp hlt) hv with hphi | ⟨hlead, -⟩
      · rw [hphi] at hop
        rcases hop with hop | hop <;> cases hop
      · rcases hop with hop | hop <;> rw [hop] at hlead <;> cases hlead
  · rw [hbody] at hv
    rcases mem_append.mp hv with hv | hv
    · rw [(hold c v hv).1]
      exact h.listed c v hv
    · exact (hlisted c v hv).1

theorem Rooted.keeps (h : s.Rooted) (hshape : s.func.Shape) (hext : Extends s s')
    (hbody : ∀ c, s'.func.body c = s.func.body c) (hconsts : s'.consts = s.consts)
    (hops : ∀ v, s.func.values.size ≤ v → v < s'.func.values.size →
      (s'.func.value v).op = .phi ∨ (s'.func.value v).op = .ret) : s'.Rooted := by
  refine h.extends (fun _ => []) [] hshape hext (fun c => by rw [hbody, append_nil])
    (fun _ _ hv => absurd hv not_mem_nil) (fun v hle hlt => ?_) (by rw [hconsts, append_nil])
    (by rw [hconsts]; exact h.nodup) fun _ _ hc => absurd hc not_mem_nil
  refine (hops v hle hlt).imp_right fun hop => ?_
  rw [hop]
  exact ⟨rfl, fun hc => by cases hc⟩

theorem Lowerable.extends (h : Lowerable t b s) (hext : Extends s s') (hsound : s'.Sound t.ir [] [])
    (hrooted : s'.Rooted) (hfilled : s'.filled = s.filled) (hsealed : ∀ c ∈ s.sealedBlocks, c ∈ s'.sealedBlocks)
    (htyped : t.types.Made → s'.Typed t) : Lowerable t b s' where
  sound := hsound
  rooted := hrooted
  given := h.given.extends hext
  unfilled := by
    rw [hfilled]
    exact h.unfilled
  lt := by
    rw [hext.graph.size]
    exact h.lt
  join := by
    rw [hext.graph.preds]
    exact h.join.imp (hsealed b) id
  typed := htyped

theorem Tracks.congr (h : s.Tracks b es) (hassigned : ∀ x, assigned? s'.func x es' = assigned? s.func x es)
    (hends : ∀ x w, s.EndsWith x b w → s'.EndsWith x b w) (hsites : ∀ x, b ∈ s'.sites x → b ∈ s.sites x) :
    s'.Tracks b es' where
  tracks x w hw := hends x w (h.tracks x w (by rw [← hassigned]; exact hw))
  untouched x hx hb := h.untouched x (by rw [← hassigned]; exact hx) (hsites x hb)

theorem Tracks.current {ir : Ir.Func} (h : s.Tracks b es) (hs : s.Sound ir [] []) (hv : s.EndsWith x b v) :
    s.Current b es x v := by
  rw [Current]
  split
  · next w hw => exact (h.tracks x w hw).unique hv
  · next hnone =>
    obtain ⟨w, hw, hwv⟩ := hv
    rcases hs.starts x b w hw with hsite | ⟨p, hp, hpw⟩ | ⟨hne, hall⟩
    · exact absurd hsite (h.untouched x hnone)
    · exact .inl ⟨p, hp, hpw.trans hwv⟩
    · exact .inr ⟨hne, fun q hq => ⟨(hall q hq).1, (hall q hq).2.congr hwv⟩⟩

section

variable (h : Lowering t b s es) (hext : Extends s s') (hsound : s'.Sound t.ir [] []) (hrooted : s'.Rooted)

include h hext hsound hrooted

theorem Lowering.extends (hscript : Script t s' b es')
    (hassigned : ∀ x, assigned? s'.func x es' = assigned? s.func x es)
    (hends : ∀ x w, s.EndsWith x b w → s'.EndsWith x b w)
    (hmarks : s'.filled = s.filled ∧ (∀ c ∈ s.sealedBlocks, c ∈ s'.sealedBlocks) ∧
      s'.assignments = s.assignments) (htyped : t.types.Made → s'.Typed t) : Lowering t b s' es' where
  toLowerable := h.toLowerable.extends hext hsound hrooted hmarks.1 hmarks.2.1 htyped
  toTracks := h.toTracks.congr hassigned hends fun x hx => by
    rw [sites, hmarks.2.2] at hx
    exact hx
  script := hscript

theorem Lowering.keeps (hbody : s'.func.body b = s.func.body b) (hends : ∀ x w, s.EndsWith x b w → s'.EndsWith x b w)
    (hmarks : s'.filled = s.filled ∧ (∀ c ∈ s.sealedBlocks, c ∈ s'.sealedBlocks) ∧
      s'.assignments = s.assignments) (htyped : t.types.Made → s'.Typed t) : Lowering t b s' es :=
  h.extends hext hsound hrooted (h.script.extends hext hbody) (hext.assigned? h.value_lt) hends hmarks htyped

end

theorem Rooted.asks {ir : Ir.Func} (h : s.Rooted) (hs : s.Sound ir [] []) (hask : Asks s s') : s'.Rooted :=
  h.keeps hs.shape hask.toExtends hask.body_all hask.consts_eq fun v hle hlt =>
    .inl (hask.new_phi v hle hlt).1

theorem Lowering.asks (h : Lowering t b s es) (hs' : s'.Sound t.ir [] []) (hask : Asks s s') : Lowering t b s' es :=
  h.keeps hask.toExtends hs' (h.rooted.asks h.sound hask) (hask.body_all b)
    (fun x w => hask.ends_all x b w) ⟨hask.filled_eq, hask.sealed, hask.assignments_eq⟩
    fun hmade => (h.typed hmade).asks h.sound hask

theorem Lowering.readVar (h : Lowering t b s es) (hrun : Runs (readVar t.ir x b) s v s') :
    Goes t b s es s' es ∧ s'.Current b es x v ∧ s'.Fits t.ir x v := by
  obtain ⟨h1, h2, -, h4, h5⟩ := readVar_spec t.ir x b [] [] s v s' h.sound h.lt h.join hrun
  have hlow := h.asks h1 h2
  refine ⟨⟨hlow, h2.works b, h2.nodeValues_eq, h2.control_all b, [],
    by rw [map_nil, append_nil]⟩, hlow.current h1 h5, h4⟩

theorem rooted_congr {s1 : Construction} (h : s.Rooted) (hfunc : s1.func = s.func)
    (hconsts : s1.consts = s.consts) : s1.Rooted :=
  ⟨by rw [hfunc, hconsts]; exact h.const, by rw [hfunc, hconsts]; exact h.consts,
    by rw [hconsts]; exact h.nodup, by rw [hfunc]; exact h.inputs, by rw [hfunc]; exact h.listed,
    by rw [hfunc]; exact h.first⟩

theorem Lowering.of_assign {e : Event} (h : Lowerable t b s) (htracks : s.Tracks b es)
    (hscript : Script t s b (es ++ [e]))
    (hassigns : ∀ y, e.assigns? s.func y = if y = x then some v else none) (hfits : s.Fits t.ir x v) :
    Lowering t b (s.assign x b v) (es ++ [e]) ∧ Works b s (s.assign x b v) := by
  have hext : Extends s (s.assign x b v) := extends_assign h.sound h.lt h.unfilled
  have hfunc : (s.assign x b v).func = s.func := func_assign
  have hconsts : (s.assign x b v).consts = s.consts := by rw [assign_eq]
  have hfilled : (s.assign x b v).filled = s.filled := by rw [assign_eq]
  have hsealed : (s.assign x b v).sealedBlocks = s.sealedBlocks := by rw [assign_eq]
  have hworks : Works b s (s.assign x b v) :=
    { toExtends := hext
      filled_eq := hfilled
      body_other := fun _ _ => by rw [hfunc]
      control_other := fun _ _ => by rw [hfunc]
      sites_other := fun c hc y hy =>
        (mem_sites_assign.mp hy).resolve_right fun hcb => hc hcb.1 }
  refine ⟨?_, hworks⟩
  exact
    { toLowerable := h.extends hext (sound_assign h.sound h.lt h.unfilled hfits)
        (rooted_congr h.rooted hfunc hconsts) hfilled (fun c hc => by rw [hsealed]; exact hc)
        fun hmade => (h.typed hmade).assign x b v
      script := hscript.extends hext (by rw [hfunc])
      tracks := fun y w hw => by
        rw [hfunc, assigned?_snoc, hassigns] at hw
        by_cases hy : y = x
        · subst hy
          rw [if_pos rfl] at hw
          obtain rfl := Option.some.inj hw
          exact endsWith_assign_self h.sound h.lt
        · rw [if_neg hy] at hw
          obtain ⟨u, hu, huw⟩ := htracks.tracks y w hw
          refine ⟨u, ?_, hext.resolve_congr huw⟩
          rw [def?_assign (by rw [h.sound.defs_size]; exact h.lt), if_neg fun hc => hy hc.2]
          exact hu
      untouched := fun y hy => by
        rw [hfunc, assigned?_snoc, hassigns] at hy
        rw [mem_sites_assign]
        by_cases hyx : y = x
        · rw [if_pos hyx] at hy
          exact absurd hy (by simp)
        · rw [if_neg hyx] at hy
          rintro (hb | ⟨-, hc⟩)
          · exact htracks.untouched y hy hb
          · exact hyx hc }

/-- The operands that a new value of the block may have. -/
structure Operands (t : Task) (s : Construction) (b : BlockId) (es : List Event) (op : Op) (ty : TypeId)
    (payload : Payload) (args : List ValueId) : Prop where
  listed : op.isListed = true
  leading : op.isLeading = false
  lt : ∀ a ∈ args, a < s.func.values.size
  data : ∀ a ∈ if op.takesMem then args.dropLast else args, s.Avail es a
  memory : op.takesMem → ∃ m, args.getLast? = some m ∧ s.Current b es .memory m
  accepts : t.types.Made → Accepts t s op ty payload (if op.takesMem then args.dropLast else args)

section Operands

variable {m : ValueId} (hlisted : op.isListed) (hlead : op.isLeading = false)
  (hargs : List.Forall₂ (s.Carries t es) args tys)
  (htakes : t.types.Made → op.Takes t.ir t.types s.func.locals.size ty payload tys)

include hargs htakes

theorem accepts_of_carries (hmade : t.types.Made) : Accepts t s op ty payload args :=
  ⟨tys, hargs.imp fun _ _ hv => hv.2 hmade, htakes hmade⟩

include hlisted hlead

theorem Operands.of_carries (hmem : op.takesMem = false) : s.Operands t b es op ty payload args := by
  refine ⟨hlisted, hlead, fun a ha => (avail_of_carries hargs a ha).1, ?_,
    fun h => absurd h (by rw [hmem]; exact Bool.false_ne_true), ?_⟩ <;>
  rw [hmem]
  · exact avail_of_carries hargs
  · exact accepts_of_carries hargs htakes

theorem Operands.of_memory (hmem : op.takesMem) (hm : m < s.func.values.size)
    (hcur : s.Current b es .memory m) : s.Operands t b es op ty payload (args ++ [m]) := by
  refine ⟨hlisted, hlead, fun a ha => ?_, ?_, fun _ => ⟨m, getLast?_concat .., hcur⟩, ?_⟩
  · rcases mem_append.mp ha with ha | ha
    · exact (avail_of_carries hargs a ha).1
    · rw [mem_singleton.mp ha]
      exact hm
  · rw [hmem, dropLast_concat]
    exact avail_of_carries hargs
  · rw [hmem, dropLast_concat]
    exact accepts_of_carries hargs htakes

end Operands

theorem runs_append : Runs (Task.append b op ty args payload) s v s' ↔ v = s.func.values.size ∧
      s' = { s with func := (s.func.appendValue b op ty args payload).2 } := by
  refine runs_modifyGet.trans ⟨fun h => ?_, ?_⟩
  · obtain ⟨rfl, rfl⟩ := Prod.mk.inj h
    exact ⟨rfl, rfl⟩
  · rintro ⟨rfl, rfl⟩
    rfl

section Append

variable (h : Lowering t b s es) (hops : s.Operands t b es op ty payload args)

theorem Operands.op_ne_phi (hops : s.Operands t b es op ty payload args) : op ≠ .phi := by
  rintro rfl
  exact absurd hops.leading (by decide)

include h hops

theorem Lowering.works_append : Works b s { s with func := (s.func.appendValue b op ty args payload).2 } := by
  exact
    { toExtends := extends_grow h.sound (h.sound.shape.grows_appendValue ty payload hops.op_ne_phi)
      filled_eq := rfl
      body_other := fun c hc =>
        h.sound.shape.body_appendValue_other ty payload hops.op_ne_phi (Ne.symm hc)
      control_other := fun c _ => control_appendValue s.func b c op ty args payload
      sites_other := fun _ _ _ hx => hx }

theorem Lowering.sound_append : Sound t.ir [] [] { s with func := (s.func.appendValue b op ty args payload).2 } :=
  sound_grow h.sound (h.sound.shape.grows_appendValue ty payload hops.op_ne_phi) (h.works_append hops).toExtends
    (h.sound.shape.appendValue ty payload hops.op_ne_phi h.lt hops.lt
      fun hl => absurd hl (by rw [hops.leading]; exact Bool.false_ne_true))

theorem Lowering.rooted_append : Rooted { s with func := (s.func.appendValue b op ty args payload).2 } := by
  have hnew := value_appendValue_new s.func b op ty args payload
  refine h.rooted.extends (fun c => if b = c then [s.func.values.size] else []) []
    h.sound.shape (h.works_append hops).toExtends (fun c => ?_) (fun c v hv => ?_)
    (fun v hle hlt => .inr ?_) (append_nil _).symm h.rooted.nodup
    fun _ _ hc => absurd hc not_mem_nil
  · by_cases hc : b = c
    · subst hc
      rw [if_pos rfl]
      exact h.sound.shape.body_appendValue ty payload hops.op_ne_phi h.lt
    · rw [if_neg hc, append_nil]
      exact h.sound.shape.body_appendValue_other ty payload hops.op_ne_phi hc
  · split at hv
    · rw [mem_singleton.mp hv, hnew]
      exact ⟨hops.listed, hops.leading⟩
    · cases hv
  · have hlt := hlt.trans_eq (values_size_newValue ..)
    rw [(Nat.le_of_lt_succ hlt).antisymm hle, hnew]
    refine ⟨hops.leading, fun hop => absurd hops.listed ?_⟩
    rw [show op = .const from hop]
    decide

theorem Lowering.typed_append (hmade : t.types.Made) :
    Typed t { s with func := (s.func.appendValue b op ty args payload).2 } :=
  (h.typed hmade).extends h.sound (h.works_append hops).toExtends rfl fun _ =>
    (hops.accepts hmade).newValue hops.leading rfl rfl rfl

theorem Lowering.script_append : Script t { s with func := (s.func.appendValue b op ty args payload).2 } b
      (es ++ [.value s.func.values.size]) := by
  have hext := h.works_append hops
  have hnew := value_appendValue_new s.func b op ty args payload
  have hargs : (s.func.appendValue b op ty args payload).2.args s.func.values.size = args :=
    args_newValue_new b op ty args payload
  refine h.script.snoc hext.toExtends (h.sound.shape.body_appendValue ty payload hops.op_ne_phi h.lt) ?_
    (fun v hv => absurd hv (by simp [Event.result?])) (fun n v hn => absurd hn (by simp [Event.node?]))
  refine .value _ ?_ ?_ ?_ ?_
  · exact size_lt_newValue ..
  · rw [hnew]
    exact hops.op_ne_phi
  · intro a ha
    rw [dataArgs, hargs, hnew] at ha
    rw [if_neg fun hc => hops.op_ne_phi hc.1] at ha
    exact hext.avail (hops.data a ha)
  · intro htakes
    rw [hnew] at htakes
    obtain ⟨m, hm, hcur⟩ := hops.memory htakes
    refine ⟨m, ?_, hext.current h.value_lt hcur⟩
    rw [memArg?, hargs, hnew]
    exact (if_pos htakes).trans hm

omit hops in
theorem Lowering.append (hrun : Runs (Task.append b op ty args payload) s v s')
    (hops : s.Operands t b es op ty payload args) (hmakes : op.makesMem = false) :
    ∃ es', Goes t b s es s' es' ∧ s'.Avail es' v ∧ (s'.func.value v).ty = ty := by
  obtain ⟨rfl, rfl⟩ := runs_append.mp hrun
  have hext := h.works_append hops
  have hnew := value_appendValue_new s.func b op ty args payload
  have hassigned : ∀ x, assigned? (s.func.appendValue b op ty args payload).2 x
      (es ++ [.value s.func.values.size]) = assigned? s.func x es := by
    intro x
    rw [assigned?_snoc, hext.assigned? h.value_lt]
    cases x with
    | memory =>
      rw [Event.assigns?, hnew]
      dsimp only
      rw [hmakes]
      rfl
    | slot l => rfl
  refine ⟨es ++ [.value s.func.values.size], ⟨h.extends hext.toExtends (h.sound_append hops)
    (h.rooted_append hops) (h.script_append hops) hassigned (fun _ _ he => he)
    ⟨rfl, fun _ hc => hc, rfl⟩ (h.typed_append hops), hext, rfl,
    control_appendValue s.func b b op ty args payload, [s.func.values.size], rfl⟩,
    ⟨size_lt_newValue .., .inr (.inl (mem_append_right _ mem_cons_self))⟩, congrArg Value.ty hnew⟩

theorem Lowering.effect_append (hmakes : op.makesMem) (v : ValueId) (hv : v = s.func.values.size)
    (hs' : s' = assign { s with func := (s.func.appendValue b op ty args payload).2 } .memory b v) :
    ∃ es', Goes t b s es s' es' ∧ s'.Avail es' v ∧ (s'.func.value v).ty = ty ∧ s'.Current b es' .memory v := by
  subst hv
  have hext := h.works_append hops
  have hnew := value_appendValue_new s.func b op ty args payload
  have hassigns : ∀ x, (Event.value s.func.values.size).assigns? (s.func.appendValue b op ty args payload).2 x =
        if x = .memory then some s.func.values.size else none := by
    intro x
    cases x with
    | memory =>
      rw [Event.assigns?, hnew]
      rw [hmakes]
      rfl
    | slot l => rfl
  obtain ⟨hlow, hext'⟩ := Lowering.of_assign
    (h.toLowerable.extends hext.toExtends (h.sound_append hops) (h.rooted_append hops) rfl (fun _ hc => hc)
      (h.typed_append hops))
    (h.toTracks.congr (hext.assigned? h.value_lt) (fun _ _ he => he) fun _ hx => hx)
    (h.script_append hops) hassigns ⟨size_lt_newValue .., fun hne => absurd rfl hne⟩
  have hnodes : s'.nodeValues = s.nodeValues := by
    rw [hs', nodeValues_assign]
  have hfunc : s'.func = (s.func.appendValue b op ty args payload).2 := by
    rw [hs', func_assign]
  rw [← hs'] at hlow hext'
  refine ⟨es ++ [.value s.func.values.size], ⟨hlow, hext.trans hext', hnodes, ?_,
    [s.func.values.size], rfl⟩, ⟨by rw [hfunc]; exact size_lt_newValue ..,
      .inr (.inl (mem_append_right _ mem_cons_self))⟩, ?_, ?_⟩
  · rw [hfunc]
    exact control_appendValue s.func b b op ty args payload
  · rw [hfunc]
    exact congrArg Value.ty hnew
  · rw [Current, hfunc, assigned?_snoc, hassigns]
    rfl

end Append

end Construction

end SsaCodegen
