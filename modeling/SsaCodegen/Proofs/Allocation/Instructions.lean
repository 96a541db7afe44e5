import SsaCodegen.Proofs.Allocation.Operands

/-! Register allocation for one instruction: its operands are brought to where it can read them, and it
becomes a step of the block at hand. -/

namespace SsaCodegen

open List Func Registers Option Outline

namespace Func

variable {f : Func} {v : ValueId}

theorem foldl_setArg (u copy : ValueId) : ∀ (operands : List ValueId) (k : Nat) (f : Func),
    f.Spans → v < f.values.size → k + operands.length ≤ (f.args v).length →
    ∃ pool, (operands.zipIdx k).foldl (fun f operand =>
        if operand.1 = u then f.setArg v operand.2 copy else f) f = { f with operands := pool } ∧
      ({ f with operands := pool } : Func).Spans ∧
      (∀ w, w ≠ v → ({ f with operands := pool } : Func).args w = f.args w) ∧
      (({ f with operands := pool } : Func).args v).length = (f.args v).length ∧
      ∀ i, (({ f with operands := pool } : Func).args v)[i]? =
        if k ≤ i ∧ operands[i - k]? = some u then some copy else (f.args v)[i]?
  | [], k, f, hspans, _, _ => ⟨f.operands, rfl, hspans, fun _ _ => rfl, rfl, fun i => by simp⟩
  | a :: operands, k, f, hspans, hv, hlen => by
    rw [length_cons] at hlen
    rw [zipIdx_cons, foldl_cons]
    by_cases ha : a = u
    · rw [if_pos ha]
      have hk : k < (f.args v).length := by omega
      have hself := hspans.args_setArg_self hv hk copy
      obtain ⟨pool, hfold, hspans', hother, hsize, hargs⟩ := foldl_setArg u copy operands (k + 1)
        (f.setArg v k copy) (hspans.setArg v k copy) hv (by rw [hself, length_set]; omega)
      refine ⟨pool, hfold, hspans', fun w hw => ?_, ?_, fun i => ?_⟩
      · exact (hother w hw).trans (hspans.args_setArg_other hv hk copy hw)
      · exact hsize.trans (by rw [hself, length_set])
      · refine (hargs i).trans ?_
        rw [hself, getElem?_set]
        rcases lt_trichotomy i k with hlt | heq | hgt
        · rw [if_neg (by omega), if_neg (by omega), if_neg (by omega)]
        · subst heq
          rw [if_neg (by omega), if_pos rfl, if_pos hk, if_pos]
          rw [Nat.sub_self, ha]
          exact ⟨le_rfl, rfl⟩
        · have hsub : i - k = i - (k + 1) + 1 := by omega
          rw [if_neg hgt.ne, hsub]
          refine if_congr (and_congr_left fun _ => ?_) rfl rfl
          omega
    · rw [if_neg ha]
      obtain ⟨pool, hfold, hspans', hother, hsize, hargs⟩ := foldl_setArg u copy operands (k + 1) f
        hspans hv (by omega)
      refine ⟨pool, hfold, hspans', hother, hsize, fun i => (hargs i).trans ?_⟩
      rcases lt_trichotomy i k with hlt | heq | hgt
      · rw [if_neg (by omega), if_neg (by omega)]
      · subst heq
        rw [if_neg (by omega), if_neg]
        rw [Nat.sub_self, getElem?_cons_zero, some_inj]
        exact fun h => ha h.2
      · have hsub : i - k = i - (k + 1) + 1 := by omega
        rw [hsub]
        refine if_congr (and_congr_left fun _ => ?_) rfl rfl
        omega

end Func

namespace Setting

variable {c : Setting} {allowed : RegSet} {f : Func} {vis : List BlockId} {P Q : Claims}
  {s s' s'' : Allocator} {b : BlockId} {u v w a : ValueId} {r : Reg} {done post : List ValueId}
  {busy : Option ValueId} {l : ValueLoc}

/-- The block `b` is at hand, and of its values those in `done` have been dealt with. -/
structure Ready (c : Setting) (allowed : RegSet) (f : Func) (vis : List BlockId) (b : BlockId)
    (done : List ValueId) (busy : Option ValueId) (s : Allocator) : Prop where
  consistent : s.outline.Consistent c allowed f vis s.regs.occupant?
  regs : RegsFit s.outline f vis s.regs
  untouched : s.outline.Untouched f vis busy
  current : s.current = some b
  mem : b ∈ vis
  out : s.out.filter (· < f.values.size) = done
  allocatable : s.regs.allocatable = allowed

/-- The value is dealt with next: it follows in the block, or the block returns with it. -/
inductive Pending (f : Func) (b : BlockId) (done : List ValueId) (v : ValueId) : Prop
  | next {post : List ValueId} (h : (f.block b).values = done ++ v :: post)
  | ret (hkind : (f.block b).kind = .ret) (hcontrol : (f.block b).control = some v)

namespace Pending

theorem lt (h : Pending f b done v) (hf : f.SsaForm) : v < f.values.size := by
  cases h with
  | next h => exact (hf.placed b v (by rw [h]; simp)).1
  | ret hkind hcontrol => exact (hf.ret_control hkind hcontrol).1

theorem not_returned (h : Pending f b done v) (hf : f.SsaForm) {d : BlockId} (hd : d ≠ b)
    (hkind : (f.block d).kind = .ret) : (f.block d).control ≠ some v := by
  intro hcontrol
  cases h with
  | next h => exact (hf.ret_control hkind hcontrol).2.2.1 b (by rw [h]; simp)
  | ret hkind' hcontrol' =>
    exact hd ((hf.ret_block hkind hcontrol).symm.trans (hf.ret_block hkind' hcontrol'))

end Pending

namespace Ready

section

variable (h : Ready c allowed f vis b done busy s)

include h

theorem mem_out (hv : v ∈ done) : v ∈ s.out := by
  rw [← h.out] at hv
  exact (mem_filter.mp hv).1

section

variable (hf : f.SsaForm)

include hf

theorem unplaced (hv : Pending f b done v) : ∀ d ∈ vis, v ∉ s.outline.valuesOf d := by
  intro d hd hmem
  have hlisted := (h.consistent.visited d hd).listed v hmem (hv.lt hf)
  cases hv with
  | ret hkind hcontrol => exact (hf.ret_control hkind hcontrol).2.2.1 d hlisted
  | next hvals =>
    have hv := mem_iff_append.mpr ⟨_, _, hvals⟩
    obtain rfl : b = d := (hf.placed b v hv).2.symm.trans (hf.placed d v hlisted).2
    rw [valuesOf_current h.current] at hmem
    refine not_mem_of_split (hf.nodup b) hvals ?_
    rw [← h.out]
    exact mem_filter.mpr ⟨hmem, decide_eq_true (hf.placed b v hv).1⟩

theorem placed_of_mem {d : BlockId}
    (hd : d ∈ vis) (hne : d ≠ b) (hv : v ∈ (f.block d).values) : Placed f vis s v := by
  refine ⟨(hf.placed d v hv).1, d, hd, ?_⟩
  have hcur : s.outline.current ≠ some d := by
    rw [show s.outline.current = some b from h.current]
    exact fun heq => hne (some.inj heq).symm
  rw [← (h.consistent.closed d hd hcur).all] at hv
  exact (mem_filter.mp hv).1

theorem placed_of_before
    (hdom : ∀ d, d ≠ b → f.Dominates d b → d ∈ vis) (hu : f.Before u b done) : Placed f vis s u := by
  rcases hu with hu | ⟨d, hne, hu, hd⟩
  · have hlt : u < f.values.size := by
      rw [← h.out] at hu
      exact of_decide_eq_true (mem_filter.mp hu).2
    refine ⟨hlt, b, h.mem, ?_⟩
    rw [valuesOf_current h.current]
    exact h.mem_out hu
  · exact h.placed_of_mem hf (hdom d hne hd) hne hu

theorem onward (hon : s.outline.Onward s'.outline f) (hcons : s'.outline.Consistent c allowed f vis s'.regs.occupant?)
    (hregs : RegsFit s'.outline f vis s'.regs) (hal : s'.regs.allocatable = s.regs.allocatable) :
    Ready c allowed f vis b done busy s' where
  consistent := hcons
  regs := hregs
  untouched := hon.untouched h.consistent.size_le hf h.untouched
  current := hon.current.trans h.current
  mem := h.mem
  out := by
    have hout := hon.originals b
    rw [valuesOf_current (hon.current.trans h.current), valuesOf_current h.current] at hout
    exact hout.trans h.out
  allocatable := hal.trans h.allocatable

theorem args_eq (hv : Pending f b done v) (hbusy : some v ≠ busy) : s.func.args v = f.args v := by
  cases hv with
  | ret hkind hcontrol =>
    exact h.untouched.rets b v (.inr h.current) hkind hcontrol hbusy
  | next hvals =>
    refine h.untouched.args v (Pending.lt (.next hvals) hf) hbusy (fun d hk hc => ?_)
      (.inr (h.unplaced hf (.next hvals)))
    exact (hf.ret_control hk hc).2.2.1 b (by rw [hvals]; simp)

theorem dataArgs_eq (hv : Pending f b done v) (hbusy : some v ≠ busy) : s.func.dataArgs v = f.dataArgs v := by
  have hkin : f.Kin s.func v := h.consistent.kin v (hv.lt hf)
  rw [dataArgs, dataArgs, Value.isMemory, Value.isMemory, h.args_eq hf hv hbusy, hkin.op, hkin.ty]

theorem fresh (hv : Pending f b done v) : ∀ r o, s.regs.occupant? r = some o → o.value ≠ v := by
  intro r o ho heq
  obtain ⟨-, d, hd, hmem⟩ := h.regs.founded.placed r o ho
  exact h.unplaced hf hv d hd (heq ▸ hmem)

end

end

theorem withOperands (h : Ready c allowed f vis b done (some v) s) (hf : f.SsaForm)
    (hv : Pending f b done v) (pool : OperandPool) (hout : s'.outline = s.outline.withOperands pool)
    (hregs : s'.regs = s.regs) (hspans : (s.outline.withOperands pool).func.Spans)
    (hother : ∀ w, w ≠ v → (s.outline.withOperands pool).func.args w = s.func.args w) :
    Ready c allowed f vis b done (some v) s' where
  consistent := by
    rw [hout, hregs]
    refine h.consistent.withOperands hspans hother
      (fun d hd hmem => absurd hmem (h.unplaced hf hv d hd)) fun d hd hcur hkind => ?_
    exact hv.not_returned hf (fun heq => hcur (heq ▸ h.current)) hkind
  regs := by
    rw [hout, hregs]
    exact ⟨⟨h.regs.founded.whole, h.regs.founded.placed⟩, h.regs.locks⟩
  untouched := by
    rw [hout]
    exact h.untouched.withOperands hother
  current := (congrArg Outline.current hout).trans h.current
  mem := h.mem
  out := (congrArg (fun t => t.out.filter (· < f.values.size)) hout).trans h.out
  allocatable := hregs ▸ h.allocatable

theorem withRegs (h : Ready c allowed f vis b done busy s) (hout : s'.outline = s.outline)
    (hregs : RegsFit s.outline f vis s'.regs) (hwithin : Claims.Within s'.regs.occupant? s.regs.occupant?)
    (hal : s'.regs.allocatable = s.regs.allocatable) : Ready c allowed f vis b done busy s' where
  consistent := hout.symm ▸ h.consistent.weaken hwithin
  regs := hout.symm ▸ hregs
  untouched := hout.symm ▸ h.untouched
  current := (congrArg Outline.current hout).trans h.current
  mem := h.mem
  out := (congrArg (fun t => t.out.filter (· < f.values.size)) hout).trans h.out
  allocatable := hal.trans h.allocatable

theorem advance (h : Ready c allowed f vis b done (some v) s) (hf : f.SsaForm)
    (hv : v ∈ (f.block b).values) (hinner : (f.value v).op.isLeading = false)
    (hout : s'.out = s.out ++ [v]) (hblocks : s'.func.blocks = s.func.blocks) (hcur : s'.current = s.current)
    (hloc : ∀ w, w ≠ v → (s'.func.value w).loc = (s.func.value w).loc)
    (hargs : ∀ w, s'.func.args w = s.func.args w)
    (hcons : s'.outline.Consistent c allowed f vis s'.regs.occupant?)
    (hregs : RegsFit s'.outline f vis s'.regs) (hal : s'.regs.allocatable = s.regs.allocatable) :
    Ready c allowed f vis b (done ++ [v]) none s' := by
  have hlt := (hf.placed b v hv).1
  have hcur' := hcur.trans h.current
  have hvals : s'.outline.valuesOf b = s.outline.valuesOf b ++ [v] := by
    rw [valuesOf_current hcur', valuesOf_current h.current]
    exact hout
  have hmembers : ∀ d, ∀ w ∈ s.outline.valuesOf d, w ∈ s'.outline.valuesOf d := by
    intro d w hw
    by_cases hd : d = b
    · rw [hd] at hw ⊢
      rw [hvals]
      exact mem_append_left _ hw
    · rw [valuesOf_other fun heq => hd (some.inj (heq.symm.trans h.current))] at hw
      rw [valuesOf_other fun heq => hd (some.inj (heq.symm.trans hcur'))]
      change w ∈ (s'.func.block d).values
      rw [block, hblocks]
      exact hw
  have hself := mem_iff_append.mpr ⟨_, _, hvals⟩
  refine ⟨hcons, hregs, ⟨?_, ?_, ?_⟩, hcur', h.mem, ?_, hal.trans h.allocatable⟩
  · intro w hw hnot
    have hne : w ≠ v := fun heq => hnot b h.mem (heq ▸ hself)
    exact (hloc w hne).trans (h.untouched.loc w hw fun d hd hmem => hnot d hd (hmembers d w hmem))
  · intro w hw _ hret hcase
    refine (hargs w).trans ?_
    by_cases hne : w = v
    · subst hne
      exact Bool.noConfusion (hinner.symm.trans (hcase.resolve_right fun hnot => hnot b h.mem hself))
    · refine h.untouched.args w hw (fun heq => hne (some.inj heq)) hret (hcase.imp_right ?_)
      exact fun hnot d hd hmem => hnot d hd (hmembers d w hmem)
  · intro d w hd hk hw _
    refine (hargs w).trans (h.untouched.rets d w ?_ hk hw ?_)
    · exact hd.imp_right fun hd => hcur.symm.trans hd
    · rintro heq
      exact (hf.ret_control hk hw).2.2.1 b (some.inj heq ▸ hv)
  · rw [hout, filter_append, h.out, filter_cons_of_pos (by simpa using hlt), filter_nil]

end Ready

theorem runs_rename {operands : List ValueId} (h : Runs (rename v operands u a) s ⟨⟩ s')
    (hspans : s.func.Spans) (hv : v < s.func.values.size) (hlen : operands.length ≤ (s.func.args v).length) :
    ∃ pool, s'.outline = s.outline.withOperands pool ∧ s'.regs = s.regs ∧ (s.outline.withOperands pool).func.Spans ∧
      (∀ w, w ≠ v → (s.outline.withOperands pool).func.args w = s.func.args w) ∧
      (s'.func.args v).length = (s.func.args v).length ∧ ∀ k : Nat, (s'.func.args v)[k]? =
        if operands[k]? = some u then some a else (s.func.args v)[k]? := by
  have hfinal := runs_modify.mp h
  obtain ⟨pool, hfold, hspans', hother, hsize, hargs⟩ :=
    foldl_setArg u a operands 0 s.func hspans hv (by omega)
  have hfunc : s'.func = { s.func with operands := pool } := by
    rw [hfinal]
    exact hfold
  refine ⟨pool, ?_, by rw [hfinal], hspans', hother, by rw [hfunc, hsize], fun k => ?_⟩
  · rw [Allocator.outline, hfunc, hfinal]
    rfl
  · rw [hfunc, hargs k]
    exact if_congr (by simp) rfl rfl

theorem mem_distinctOperands {g : Func} (operands : List ValueId) :
    u ∈ distinctOperands g operands ↔ u ∈ operands ∧ (g.value u).hasResult := by
  have hstep : ∀ (seen : List ValueId) x,
      u ∈ (if (g.value x).hasResult && !seen.contains x then seen ++ [x] else seen) ↔
        u ∈ seen ∨ u = x ∧ (g.value u).hasResult := by
    intro seen x
    split
    · next h =>
      have hx := (Bool.and_eq_true_iff.mp h).1
      rw [mem_append, mem_singleton]
      exact or_congr_right ⟨fun hu => ⟨hu, hu ▸ hx⟩, And.left⟩
    · next h =>
      refine ⟨.inl, fun hu => hu.elim id ?_⟩
      rintro ⟨rfl, hres⟩
      by_contra hnew
      exact h (by simp [hres, hnew])
  have hfold : ∀ (operands seen : List ValueId), u ∈ operands.foldl (fun seen u =>
      if (g.value u).hasResult && !seen.contains u then seen ++ [u] else seen) seen ↔
      u ∈ seen ∨ u ∈ operands ∧ (g.value u).hasResult := by
    intro operands
    induction operands with
    | nil => simp
    | cons x operands ih =>
      intro seen
      rw [foldl_cons, ih, hstep, mem_cons, or_and_right]
      exact or_assoc
  rw [distinctOperands, hfold]
  simp

/-- Of the operands of `v`, those in `pre` are in registers, and these are locked. -/
structure Gathering (c : Setting) (allowed : RegSet) (f : Func) (vis : List BlockId) (b : BlockId)
    (done : List ValueId) (v : ValueId) (pre : List ValueId) (s : Allocator) : Prop
    extends Ready c allowed f vis b done (some v) s where
  length : (s.func.args v).length = (f.args v).length
  held : ∀ k a, (f.args v)[k]? = some a → k < (f.dataArgs v).length → a ∈ pre →
    ∃ a', (s.func.args v)[k]? = some a' ∧ (s.outline.draft f).Held s.regs.occupant? a a' ∧
      ∀ r ∈ s.func.regsOf a', s.regs.isLocked r = true
  rest : ∀ k a, (f.args v)[k]? = some a → (k < (f.dataArgs v).length → a ∉ pre) → (s.func.args v)[k]? = some a

/-- What is locked stays while another value is brought into registers. -/
theorem InRegs.held_stays (h : InRegs c allowed f vis s u a s') {x x' : ValueId}
    (hheld : (s.outline.draft f).Held s.regs.occupant? x x')
    (hlock : ∀ r ∈ s.func.regsOf x', s.regs.isLocked r) : (s'.outline.draft f).Held s'.regs.occupant? x x' ∧
      ∀ r ∈ s'.func.regsOf x', s'.regs.isLocked r := by
  have hregs : s'.func.regsOf x' = s.func.regsOf x' := h.onward.extends_draft.regsOf hheld.1
  have hstay : ∀ p r, (s.func.regsOf x')[p]? = some r →
      s'.regs.occupant? r = some ⟨x, x', p⟩ ∧ s'.regs.isLocked r := fun p r hr =>
    h.stay r _ (hlock r (mem_of_getElem? hr)) (hheld.2 p r hr)
  refine ⟨?_, fun r hr => ?_⟩
  · change Claims.Hold _ x x' (s'.func.regsOf x')
    rw [hregs]
    exact ⟨hheld.1, fun p r hr => (hstay p r hr).1⟩
  · rw [hregs] at hr
    obtain ⟨p, hp⟩ := mem_iff_getElem?.mp hr
    exact (hstay p r hp).2

namespace Gathering

variable {pre : List ValueId}

section

variable (h : Gathering c allowed f vis b done v pre s)

include h

theorem useInReg (hf : f.SsaForm)
    (hv : v < f.values.size) (hu : Placed f vis s u) (hav : f.AtEnd u b) (hrun : Runs (c.useInReg u) s a s') :
    Gathering c allowed f vis b done v pre s' ∧ (s'.outline.draft f).Held s'.regs.occupant? u a ∧
      ∀ r ∈ s'.func.regsOf a, s'.regs.isLocked r := by
  have hspec := useInReg_spec hf hrun h.consistent h.regs h.current h.mem hu hav h.allocatable
  have hargs : s'.func.args v = s.func.args v :=
    (hspec.onward.agrees v (hv.trans_le h.consistent.size_le)).args
  refine ⟨⟨h.toReady.onward hf hspec.onward hspec.consistent hspec.regs hspec.allocatable, ?_, ?_, ?_⟩,
    hspec.held, hspec.locked⟩
  · rw [hargs]
    exact h.length
  · intro k x hx hk hmem
    obtain ⟨x', hx', hheld, hlock⟩ := h.held k x hx hk hmem
    exact ⟨x', hargs ▸ hx', hspec.held_stays hheld hlock⟩
  · rw [hargs]
    exact h.rest

theorem step (hf : f.SsaForm)
    (hvals : (f.block b).values = done ++ v :: post) (hu : Placed f vis s u) (hav : f.AtEnd u b)
    (hrun : Runs (do let copy ← c.useInReg u if copy ≠ u then rename v (f.dataArgs v) u copy) s ⟨⟩ s') :
    Gathering c allowed f vis b done v (pre ++ [u]) s' := by
  obtain ⟨a, t, huse, hren⟩ := runs_bind.mp hrun
  have hmem := mem_iff_append.mpr ⟨_, _, hvals⟩
  have hv := (hf.placed b v hmem).1
  obtain ⟨hg, hheld, hlock⟩ := h.useInReg hf hv hu hav huse
  by_cases ha : a = u
  · -- the value is in its own registers, and nothing is to be renamed
    rw [if_neg (by simpa using ha)] at hren
    obtain ⟨-, rfl⟩ := runs_pure.mp hren
    rw [ha] at hheld hlock
    refine ⟨hg.toReady, hg.length, ?_, ?_⟩
    · intro k x hx hk hx'
      by_cases hpre : x ∈ pre
      · exact hg.held k x hx hk hpre
      · obtain rfl : x = u := by simpa [hpre] using hx'
        exact ⟨x, hg.rest k x hx fun _ => hpre, hheld, hlock⟩
    · intro k x hx hnot
      exact hg.rest k x hx fun hk hpre => hnot hk (mem_append_left _ hpre)
  · rw [if_pos ha] at hren
    obtain ⟨pool, hout, hregs, hspans, hother, hsize, hargs⟩ := runs_rename hren hg.consistent.spans
      (hv.trans_le hg.consistent.size_le)
      (by rw [hg.length]; exact (f.dataArgs_front v).length_le)
    have hregsOf : ∀ x, s'.func.regsOf x = t.func.regsOf x := by
      intro x
      change s'.outline.func.regsOf x = _
      rw [hout]
      rfl
    have hstay : ∀ x x', (t.outline.draft f).Held t.regs.occupant? x x' →
        (∀ r ∈ t.func.regsOf x', t.regs.isLocked r) →
        (s'.outline.draft f).Held s'.regs.occupant? x x' ∧ ∀ r ∈ s'.func.regsOf x', s'.regs.isLocked r := by
      intro x x' hx hl
      rw [hout, hregs, hregsOf]
      exact ⟨hx, hl⟩
    refine ⟨hg.toReady.withOperands hf (.next hvals) pool hout hregs hspans hother, ?_, ?_, ?_⟩
    · exact hsize.trans hg.length
    · intro k x hx hk hx'
      have hdata := (getElem?_dataArgs hk).trans hx
      by_cases hxu : x = u
      · subst hxu
        refine ⟨a, ?_, hstay x a hheld hlock⟩
        rw [hargs, if_pos hdata]
      · have hpre : x ∈ pre := by simpa [hxu] using hx'
        obtain ⟨x', hx', hheld', hlock'⟩ := hg.held k x hx hk hpre
        refine ⟨x', ?_, hstay x x' hheld' hlock'⟩
        rw [hargs, if_neg, hx']
        rw [hdata, some_inj]
        exact hxu
    · intro k x hx hnot
      rw [hargs, if_neg]
      · exact hg.rest k x hx fun hk hpre => hnot hk (mem_append_left _ hpre)
      · intro hk
        have hlt := (List.getElem?_eq_some_iff.mp hk).1
        rw [getElem?_dataArgs hlt, hx, some_inj] at hk
        exact hnot hlt (by rw [hk]; simp)

theorem reads (hall : ∀ u ∈ f.dataArgs v, (f.value u).hasResult → u ∈ pre) :
    (s.outline.draft f).Renames v ((s.outline.draft f).Held s.regs.occupant?) := by
  refine ⟨h.length, fun k a a' ha ha' => ?_⟩
  change (s.func.args v)[k]? = some a' at ha'
  by_cases hin : k < (f.dataArgs v).length ∧ a ∈ pre
  · obtain ⟨x, hx, hheld, -⟩ := h.held k a ha hin.1 hin.2
    rw [hx, some_inj] at ha'
    exact .inl (ha' ▸ hheld)
  · have hrest := h.rest k a ha fun hk hmem => hin ⟨hk, hmem⟩
    rw [hrest, some_inj] at ha'
    refine .inr ⟨ha'.symm, fun hk => ?_⟩
    by_contra hres
    refine hin ⟨hk, hall a ?_ ((Bool.eq_false_or_eq_true _).resolve_right hres)⟩
    exact mem_of_getElem? ((getElem?_dataArgs hk).trans ha)

end

end Gathering

theorem Ready.release (h : Ready c allowed f vis b done busy s) (x : ValueId) :
    Ready c allowed f vis b done busy (s.release x) :=
  h.withRegs rfl (h.regs.release x) (s.regs.release_within x) (s.regs.allocatable_release x)

theorem runs_releaseDead (h : Runs (c.releaseDead u) s ⟨⟩ s') : s' = s ∨ s' = s.release u := by
  have hfinal := runs_modify.mp h
  split at hfinal
  · exact .inl hfinal
  · exact .inr hfinal

theorem Ready.releaseDead (h : Ready c allowed f vis b done busy s) (hrun : Runs (c.releaseDead u) s ⟨⟩ s') :
    Ready c allowed f vis b done busy s' ∧ s'.outline = s.outline ∧
      Claims.Within s'.regs.occupant? s.regs.occupant? := by
  rcases runs_releaseDead hrun with rfl | rfl
  · exact ⟨h, rfl, .refl _⟩
  · exact ⟨h.release u, rfl, s.regs.release_within u⟩

theorem Ready.unlockAll (h : Ready c allowed f vis b done busy s) :
    Ready c allowed f vis b done busy { s with regs := s.regs.unlockAll } := by
  refine h.withRegs rfl ⟨?_, ?_⟩ ?_ rfl
  · exact h.regs.founded
  · intro r r' o o' hlock
    rw [isLocked_unlockAll] at hlock
    cases hlock
  · exact .refl _

theorem Ready.emitAt (h : Ready c allowed f vis b done (some v) s) (hf : f.SsaForm)
    (hvals : (f.block b).values = done ++ v :: post) (hinner : (f.value v).op.isLeading = false)
    (hP : s.outline.Consistent c allowed f vis P)
    (htidy : Tidy c allowed (s.func.setLoc v (some l)) s.spillSize)
    (hstep : ((s.outline.setLoc v l s.spillSize).draft f).Step b s.out P v Q)
    (hout : s'.outline = (s.outline.setLoc v l s.spillSize).emit v) (hQ : Claims.Within s'.regs.occupant? Q)
    (hregs : RegsFit s'.outline f vis s'.regs) (hal : s'.regs.allocatable = s.regs.allocatable) :
    Ready c allowed f vis b (done ++ [v]) none s' := by
  have hmem := mem_iff_append.mpr ⟨_, _, hvals⟩
  obtain ⟨hlt, hblock⟩ := hf.placed b v hmem
  have hun := h.unplaced hf (.next hvals)
  have hfunc : s'.func = s.func.setLoc v (some l) := congrArg func hout
  have hcons : s'.outline.Consistent c allowed f vis Q := by
    rw [hout]
    refine (hP.setLoc (h.untouched.loc v hlt hun) hun htidy).emit h.current h.mem ?_ ?_ ?_
      (fun _ => hmem) (.refl P) hstep
    · have hnot := hun b h.mem
      rwa [valuesOf_current h.current] at hnot
    · exact (s.func.values_size_setLoc v _).symm ▸ hlt.trans_le hP.size_le
    · exact ((s.func.kin_setLoc v v _).block.trans (hP.kin v hlt).block).trans hblock
  refine h.advance hf hmem hinner (congrArg Outline.out hout) ?_ (congrArg Outline.current hout) ?_ ?_
    (hcons.weaken hQ) hregs hal
  · rw [hfunc]
    rfl
  · intro w hw
    rw [hfunc, value_setLoc_other hw.symm]
  · intro w
    rw [hfunc]
    exact s.func.args_setLoc v w (some l)

theorem settled_setRegs {t : Outline} (limit : Nat) (hv : v < t.func.values.size) (hreg : l.isReg) :
    ((t.setLoc v l limit).draft f).Settled v := by
  have hloc := congrArg Value.loc (value_setLoc_self hv (some l))
  refine ⟨fun _ => hloc.trans_ne (some_ne_none l), fun k hk => .inl ?_⟩
  exact some.inj (hloc.symm.trans hk) ▸ hreg

section

variable (h : Ready c allowed f vis b done (some v) s) (hf : f.SsaForm)
  (hvals : (f.block b).values = done ++ v :: post) (hinner : (f.value v).op.isLeading = false)
  (hP : s.outline.Consistent c allowed f vis P)

include h hf hvals hinner hP

/-- A value of the block is added at its end in registers that were free. Here `regs` are the registers
before, and `B` is what is known of them. -/
theorem Ready.emitHeld {B : Claims} {regs : Registers} (hreg : l.isReg) (hnodup : l.regs.Nodup)
    (htidy : Tidy c allowed (s.func.setLoc v (some l)) s.spillSize)
    (hstep : ((s.outline.setLoc v l s.spillSize).draft f).Step b s.out P v (B.put v v l.regs))
    (hB : Claims.Within regs.occupant? B) (hfit : RegsFit s.outline f vis regs)
    (hfree : ∀ r ∈ l.regs, regs.occupant? r = none)
    (hfresh : ∀ r o, regs.occupant? r = some o → o.value ≠ v) (hal : regs.allocatable = s.regs.allocatable)
    (hout : s'.outline = (s.outline.setLoc v l s.spillSize).emit v)
    (hregs : s'.regs = l.regs.zipIdx.foldl (fun x (r, part) => x.assign r ⟨v, v, part⟩ true) regs) :
    Ready c allowed f vis b (done ++ [v]) none s' := by
  have hlt := Pending.lt (.next hvals) hf
  have hnone := h.untouched.loc v hlt (h.unplaced hf (.next hvals))
  have hregsOf : s'.outline.func.regsOf v = l.regs := by
    rw [hout]
    exact regsOf_of_loc (congrArg Value.loc (value_setLoc_self (hlt.trans_le hP.size_le) (some l)))
  have hocc : s'.regs.occupant? = Claims.put regs.occupant? v v l.regs := by
    rw [hregs]
    exact occupant?_hold regs v v true hnodup
  have hkept : RegsFit s'.outline f vis regs := by
    rw [hout]
    exact hfit.emit_setLoc hP.spans h.current hnone
  refine h.emitAt hf hvals hinner hP htidy hstep hout ?_ ?_ ?_
  · rw [hocc]
    exact Claims.put_mono hB
  · refine regsFit_hold hkept hnodup (ValueLoc.isReg_iff.mp hreg) hregsOf hfree ⟨hlt, b, h.mem, ?_⟩
      hfresh hocc (.inl fun r => ?_)
    · rw [hout, valuesOf_emit h.current]
      exact mem_append_right _ mem_cons_self
    · rw [hregs]
      exact (hold_keeps v v true l.regs 0 regs).2 r
  · rw [hregs, ← hal]
    exact (hold_keeps v v true l.regs 0 regs).1

theorem Ready.emitPlain (hstep : (s.outline.draft f).Step b s.out P v Q)
    (hout : s'.outline = s.outline.emit v) (hQ : Claims.Within s'.regs.occupant? Q)
    (hregs : RegsFit s.outline f vis s'.regs) (hal : s'.regs.allocatable = s.regs.allocatable) :
    Ready c allowed f vis b (done ++ [v]) none s' := by
  have hmem := mem_iff_append.mpr ⟨_, _, hvals⟩
  obtain ⟨hlt, hblock⟩ := hf.placed b v hmem
  have hfunc : s'.func = s.func := congrArg func hout
  have hcons : s'.outline.Consistent c allowed f vis Q := by
    rw [hout]
    refine hP.emit h.current h.mem ?_ (hlt.trans_le hP.size_le)
      ((hP.kin v hlt).block.trans hblock) (fun _ => hmem) (.refl P) hstep
    have hnot := h.unplaced hf (.next hvals) b h.mem
    rwa [valuesOf_current h.current] at hnot
  have hfit : RegsFit s'.outline f vis s'.regs := by
    have hr : s.outline.Relists (s.outline.emit v) f b := relists_emit hP.spans h.current v
    rw [hout]
    exact hregs.extend hr.extends_draft fun d _ => hr.members_all d
  exact h.advance hf hmem hinner (congrArg Outline.out hout) (by rw [hfunc])
    (congrArg Outline.current hout) (fun w _ => by rw [hfunc]) (fun w => by rw [hfunc])
    (hcons.weaken hQ) hfit hal

end

/-- A value that is at hand gets registers and is added to the block. Here `P` is what the registers held
when it read its operands. -/
theorem define_spec (hf : f.SsaForm) (h : Runs (c.define v) s ⟨⟩ s')
    (hready : Ready c allowed f vis b done (some v) s)
    (hvals : (f.block b).values = done ++ v :: post) (hP : s.outline.Consistent c allowed f vis P)
    (hwithin : Claims.Within s.regs.occupant? P)
    (hreads : (s.outline.draft f).Renames v ((s.outline.draft f).Held P))
    (hfresh : ∀ r o, P r = some o → o.value ≠ v) (hinner : (f.value v).op.isLeading = false)
    (hcall : (f.value v).op ≠ .call) : Ready c allowed f vis b (done ++ [v]) none s' := by
  obtain ⟨words, s0, hparts, h0⟩ := runs_bind.mp h
  obtain ⟨rs, s1, htake, h1⟩ := runs_bind.mp h0
  obtain ⟨_, s2, hmod, hrelease⟩ := runs_bind.mp h1
  obtain ⟨rfl, hwords, hpos⟩ := runs_parts hparts
  have hlt := Pending.lt (.next hvals) hf
  obtain ⟨hcleared, hlen, hnodup, hrs⟩ := takeRegs_spec hf htake hP hready.regs
  have hwithin1 := hcleared.shrinks.within.trans hwithin
  have hready1 := hready.onward hf hcleared.onward
    (hcleared.consistent.weaken hwithin1) hcleared.regs hcleared.shrinks.allocatable
  have hagrees := hcleared.onward.agrees v (hlt.trans_le hready.consistent.size_le)
  have hnone := hready1.untouched.loc v hlt (hready1.unplaced hf (.next hvals))
  have hsize := hlt.trans_le hready1.consistent.size_le
  obtain ⟨l, hl⟩ := ValueLoc.exists_ofRegs? (show rs.length ≠ 0 by rw [hlen]; exact hpos)
    (by rw [hlen, hwords]; exact c.types.parts_le_two _)
  have hfinal := runs_modify.mp hmod
  rw [hl] at hfinal
  obtain ⟨rfl, hlreg⟩ := ValueLoc.regs_of_ofRegs? hl
  let t := s1.outline.setLoc v l s1.spillSize
  have htidy : Tidy c allowed t.func s1.spillSize := by
    refine tidy_setRegs hcleared.consistent.tidy hsize ?_ hlreg hnodup fun r hr => ?_
    · rw [hlen, hwords]
      exact congrArg c.types.parts hagrees.ty.symm
    · rw [← hready.allocatable]
      exact (hrs r hr).2.1
  have hstep : (t.draft f).Step b s1.out P v (P.put v v l.regs) := by
    have hself : t.func.value v = { s1.func.value v with loc := some l } := value_setLoc_self hsize (some l)
    rw [show l.regs = t.func.regsOf v from (regsOf_of_loc (by rw [hself])).symm]
    refine .compute hlt ((congrArg Value.op hself).trans (hready1.consistent.kin v hlt).op) hinner hcall
      ?_ (settled_setRegs _ hsize hlreg) hfresh
    refine hreads.extend rfl ((s1.func.args_setLoc v v _).trans hagrees.args) fun x x' hx => ?_
    exact (hx.extend hcleared.onward.extends_draft).extend (extends_setLoc _ hnone)
  have hready2 : Ready c allowed f vis b (done ++ [v]) none s2 := by
    refine hready1.emitHeld hf hvals hinner hcleared.consistent hlreg hnodup htidy hstep hwithin1
      hcleared.regs (fun r hr => (hrs r hr).1) (fun r o ho => hfresh r o (hwithin1 r o ho)) rfl ?_ ?_
    · rw [hfinal]
      rfl
    · rw [hfinal]
      rfl
  exact (hready2.releaseDead hrelease).1

theorem Ready.lockOperands (h : Ready c allowed f vis b done busy s) : ∀ us : List ValueId,
    Ready c allowed f vis b done busy (us.foldl (fun s u => s.lockAll (s.regs.regsOf u)) s) := by
  intro us
  induction us generalizing s with
  | nil => exact h
  | cons u us ih =>
    obtain ⟨hal, hocc⟩ := lockAll_keeps (s.regs.regsOf u) s.regs
    exact ih (h.withRegs rfl (regsFit_lockAll h.regs u) (hocc ▸ .refl _) hal)

/-- Any value but a call: its operands are gathered in registers, and it gets registers for its result. -/
theorem allocateValue_spec (hf : f.SsaForm) (h : Runs (c.allocateValue v) s ⟨⟩ s')
    (hready : Ready c allowed f vis b done none s) (hvals : (f.block b).values = done ++ v :: post)
    (hdom : ∀ d, d ≠ b → f.Dominates d b → d ∈ vis) (hinner : (f.value v).op.isLeading = false)
    (hcall : (f.value v).op ≠ .call) : Ready c allowed f vis b (done ++ [v]) none s' := by
  rw [allocateValue, runs_get_bind] at h
  obtain ⟨_, s1, hlock, h1⟩ := runs_bind.mp h
  obtain ⟨_, s2, hgather, h2⟩ := runs_bind.mp h1
  obtain ⟨_, s3, hrelease, h3⟩ := runs_bind.mp h2
  have hlt := (hf.placed b v (by rw [hvals]; simp)).1
  rw [hready.dataArgs_eq hf (.next hvals) nofun] at hlock hgather hrelease
  rw [show (s.func.value v).hasResult = (f.value v).hasResult from
    hready.consistent.hasResult hlt] at h3
  generalize hus : distinctOperands s.func (f.dataArgs v) = us at hlock hgather hrelease
  have hbefore : ∀ u ∈ f.dataArgs v, f.Before u b done := by
    intro u hu
    refine hf.reads b done v post hvals ?_ u ((f.dataArgs_front v).subset hu)
    intro hphi
    rw [hphi] at hinner
    cases hinner
  have hplaced : ∀ {t : Allocator}, Ready c allowed f vis b done (some v) t →
      ∀ u ∈ f.dataArgs v, Placed f vis t u := fun ht u hu =>
    ht.placed_of_before hf hdom (hbefore u hu)
  have hdone : ∀ w ∈ done, w ∈ (f.block b).values := by
    intro w hw
    rw [hvals]
    exact mem_append_left _ hw
  -- the operands are brought into registers one after the other
  have hready1 : Ready c allowed f vis b done none s1 := by
    rw [runs_modify.mp hlock]
    exact hready.lockOperands us
  have hready1' : Ready c allowed f vis b done (some v) s1 :=
    { hready1 with untouched := hready1.untouched.start }
  have hstart : Gathering c allowed f vis b done v [] s1 := by
    have hargs1 := hready1.args_eq hf (.next hvals) nofun
    exact ⟨hready1', by rw [hargs1], nofun, fun k a ha _ => by rw [hargs1, ha]⟩
  have hgathered : Gathering c allowed f vis b done v us s2 := by
    refine runs_forM_invariant (Gathering c allowed f vis b done v) ?_ hstart hgather
    intro pre u rest hsplit t t' ht hrun
    have hu := mem_iff_append.mpr ⟨_, _, hsplit⟩
    rw [← hus, mem_distinctOperands] at hu
    exact ht.step hf hvals (hplaced ht.toReady u hu.1) ((hbefore u hu.1).atEnd hdone) hrun
  have hreads := hgathered.reads fun u hu hres => by
    rw [← hus, mem_distinctOperands]
    exact ⟨hu, (hready.consistent.hasResult (hplaced hready1' u hu).1).trans hres⟩
  -- some of them may be forgotten again, before the result gets its registers
  obtain ⟨hready3, hout, hwithin⟩ : Ready c allowed f vis b done (some v) s3 ∧
      s3.outline = s2.outline ∧ Claims.Within s3.regs.occupant? s2.regs.occupant? := by
    refine runs_forM_invariant (fun _ t => Ready c allowed f vis b done (some v) t ∧
      t.outline = s2.outline ∧ Claims.Within t.regs.occupant? s2.regs.occupant?) ?_
      ⟨hgathered.toReady, rfl, .refl _⟩ hrelease
    rintro _ u _ _ t t' ⟨ht, hout, hwithin⟩ hrun
    obtain ⟨ht', hout', hwithin'⟩ := ht.releaseDead hrun
    exact ⟨ht', hout'.trans hout, hwithin'.trans hwithin⟩
  have hP := hout ▸ hgathered.consistent
  rw [← hout] at hreads
  have hfresh := hgathered.toReady.fresh hf (.next hvals)
  split at h3
  · obtain ⟨_, s4, hdefine, hunlock⟩ := runs_bind.mp h3
    rw [runs_modify.mp hunlock]
    exact (define_spec hf hdefine hready3 hvals hP hwithin hreads hfresh hinner hcall).unlockAll
  · rename_i hres
    obtain ⟨_, s4, hemit, hunlock⟩ := runs_bind.mp h3
    rw [runs_modify.mp hunlock]
    have hnone := hready3.untouched.loc v hlt (hready3.unplaced hf (.next hvals))
    have hstep : (s3.outline.draft f).Step b s3.out s2.regs.occupant? v _ :=
      .compute hlt (hP.kin v hlt).op hinner hcall hreads
        ⟨fun hyes => absurd hyes hres, fun l hl => absurd (hnone.symm.trans hl) nofun⟩ hfresh
    rw [show (s3.outline.draft f).func.regsOf v = [] from regsOf_of_none hnone] at hstep
    obtain rfl := runs_modify.mp hemit
    have hready4 : Ready c allowed f vis b (done ++ [v]) none (s3.emit v) :=
      hready3.emitPlain hf hvals hinner hP hstep rfl hwithin hready3.regs rfl
    exact hready4.unlockAll

end Setting

end SsaCodegen
