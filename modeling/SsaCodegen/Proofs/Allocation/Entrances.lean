import SsaCodegen.Proofs.Allocation.Boundaries
import SsaCodegen.Proofs.Allocation.Calls
import SsaCodegen.Proofs.Allocation.Prepared

/-! The start of a block. Its leading values get their places one by one, and no two share a register. -/

namespace SsaCodegen

open List Func Registers Claims Option Outline Signature Value ValueLoc

variable {r : Reg} {g : Func} {v w : ValueId} {vs : List ValueId} {l : ValueLoc} {x : Option ValueLoc}

theorem regsOf_setLoc_other (h : w ≠ v) : (g.setLoc v x).regsOf w = g.regsOf w :=
  Draft.regsOf_eq_of_loc (congrArg loc (value_setLoc_other h.symm x))

theorem regsOf_setLoc_self (h : v < g.values.size) : (g.setLoc v (some l)).regsOf v = l.regs :=
  regsOf_of_loc (congrArg loc (value_setLoc_self h (some l)))

/-- The registers hold values in `vs`, each as it defines itself, and no two of these share one. -/
structure Fresh (g : Func) (vs : List ValueId) (regs : Registers) : Prop where
  own : ∀ r o, regs.occupant? r = some o → o.copy = o.value ∧ o.value ∈ vs ∧ (g.regsOf o.value)[o.part]? = some r ∧
    Claims.Hold regs.occupant? o.value o.value (g.regsOf o.value)
  unlocked : ∀ r, regs.isLocked r = false
  apart : ∀ v ∈ vs, ∀ w ∈ vs, v ≠ w → ∀ r ∈ g.regsOf v, r ∉ g.regsOf w

namespace Fresh

variable {g' : Func} {regs regs' : Registers}

theorem clear (g : Func) (regs : Registers) : Fresh g [] regs.clear where
  own r o ho := by
    rw [occupant?_clear] at ho
    cases ho
  unlocked := regs.isLocked_clear
  apart := nofun

section

variable (h : Fresh g vs regs)

include h

theorem congr (hregs : ∀ v ∈ vs, g'.regsOf v = g.regsOf v) (halike : regs.Alike regs') : Fresh g' vs regs' where
  own r o ho := by
    rw [halike.occupant?] at ho ⊢
    obtain ⟨hcopy, hmem, hpart, hheld⟩ := h.own r o ho
    rw [hregs _ hmem]
    exact ⟨hcopy, hmem, hpart, hheld⟩
  unlocked r := (halike.isLocked r).trans (h.unlocked r)
  apart v hv w hw := by
    rw [hregs v hv, hregs w hw]
    exact h.apart v hv w hw

theorem release (x : ValueId) : Fresh g vs (regs.release x) where
  own r o ho := by
    obtain ⟨ho, hne⟩ := occupant?_release_eq_some.mp ho
    obtain ⟨hcopy, hmem, hpart, hheld⟩ := h.own r o ho
    refine ⟨hcopy, hmem, hpart, hheld.1, fun p q hq => ?_⟩
    exact occupant?_release_eq_some.mpr ⟨hheld.2 p q hq, hne⟩
  unlocked r := by
    by_contra hlock
    rw [Bool.not_eq_false] at hlock
    exact absurd (isLocked_release hlock) (by rw [h.unlocked]; exact nofun)
  apart := h.apart

theorem skip (hv : g.regsOf v = []) : Fresh g (vs ++ [v]) regs where
  own r o ho := by
    obtain ⟨hcopy, hmem, hrest⟩ := h.own r o ho
    exact ⟨hcopy, mem_append_left _ hmem, hrest⟩
  unlocked := h.unlocked
  apart x hx w hw hne := by
    rw [mem_append, mem_singleton] at hx hw
    rcases hx with hx | rfl
    · rcases hw with hw | rfl
      · exact h.apart x hx w hw hne
      · rw [hv]
        exact fun _ _ => not_mem_nil
    · rw [hv]
      nofun

theorem setLoc (hv : v ∉ vs) (x : Option ValueLoc) : Fresh (g.setLoc v x) vs regs :=
  h.congr (fun _ hw => regsOf_setLoc_other fun heq => hv (heq ▸ hw)) (.refl _)

theorem hold (hv : v ∉ vs) (hsize : v < g.values.size) (hnodup : l.regs.Nodup)
    (hreg : l.isReg) (hapart : ∀ w ∈ vs, ∀ r ∈ l.regs, r ∉ g.regsOf w) :
    Fresh (g.setLoc v (some l)) (vs ++ [v])
      (l.regs.zipIdx.foldl (fun x (r, part) => x.assign r ⟨v, v, part⟩ true) regs) := by
  have hself := regsOf_setLoc_self (l := l) hsize
  have hother : ∀ w ∈ vs, (g.setLoc v (some l)).regsOf w = g.regsOf w := fun w hw =>
    regsOf_setLoc_other fun heq => hv (heq ▸ hw)
  refine ⟨fun r o ho => ?_, fun r => ((hold_keeps v v true l.regs 0 regs).2 r).trans (h.unlocked r),
    fun x hx w hw hne => ?_⟩
  · rw [occupant?_hold regs v v true hnodup] at ho ⊢
    rcases put_eq_some ho with ⟨p, hp, rfl⟩ | ⟨hnot, ho⟩
    · rw [hself]
      exact ⟨rfl, mem_append_right _ mem_cons_self, hp, hold_put hnodup (isReg_iff.mp hreg)⟩
    · obtain ⟨hcopy, hmem, hpart, hheld⟩ := h.own r o ho
      rw [hother _ hmem]
      refine ⟨hcopy, mem_append_left _ hmem, hpart, hheld.put (fun q hq hin => ?_) v v⟩
      exact hapart _ hmem q hin hq
  · rw [mem_append, mem_singleton] at hx hw
    rcases hx with hx | rfl
    · rw [hother x hx]
      rcases hw with hw | rfl
      · rw [hother w hw]
        exact h.apart x hx w hw hne
      · rw [hself]
        exact fun r hr hin => hapart x hx r hin hr
    · rcases hw with hw | rfl
      · rw [hself, hother w hw]
        exact hapart w hw
      · exact absurd rfl hne

end

end Fresh

def startClaims (g : Func) (vs : List ValueId) : Claims := fun r =>
  vs.findSome? fun v => ((g.regsOf v).idxOf? r).map fun p => ⟨v, v, p⟩

theorem mem_of_startClaims {o : Occupant} (h : startClaims g vs r = some o) : o.copy = o.value ∧ o.value ∈ vs := by
  obtain ⟨v, hv, ho⟩ := exists_of_findSome?_eq_some h
  obtain ⟨p, -, rfl⟩ := map_eq_some_iff.mp ho
  exact ⟨rfl, hv⟩

theorem startClaims_of_getElem? {p : Nat}
    (hapart : ∀ v ∈ vs, ∀ w ∈ vs, v ≠ w → ∀ r ∈ g.regsOf v, r ∉ g.regsOf w) (hnodup : (g.regsOf v).Nodup)
    (hv : v ∈ vs) (hp : (g.regsOf v)[p]? = some r) : startClaims g vs r = some ⟨v, v, p⟩ := by
  cases ho : startClaims g vs r with
  | none =>
    have hnone := findSome?_eq_none_iff.mp ho v hv
    rw [(idxOf?_eq_some_iff hnodup).mpr hp] at hnone
    cases hnone
  | some o =>
    obtain ⟨w, hw, ho⟩ := exists_of_findSome?_eq_some ho
    obtain ⟨q, hq, rfl⟩ := map_eq_some_iff.mp ho
    have hmem : r ∈ g.regsOf w := by
      obtain ⟨hlt, rfl, -⟩ := List.idxOf?_eq_some_iff.mp hq
      exact getElem_mem hlt
    by_cases hvw : v = w
    · subst hvw
      have hq := (idxOf?_eq_some_iff hnodup).mpr hp ▸ hq
      rw [some.inj hq]
    · exact absurd hmem (hapart v hv w hw hvw r (mem_of_getElem? hp))

namespace Setting

variable {c : Setting} {allowed : RegSet} {f : Func} {vis : List BlockId} {P : Claims}
  {s s' : Allocator} {b : BlockId} {u a : ValueId} {pre post rest : List ValueId}

/-- The block `b` is being entered, and the values `pre` that lead it have their places. -/
structure Entering (c : Setting) (allowed : RegSet) (f : Func) (vis : List BlockId) (b : BlockId)
    (pre : List ValueId) (s : Allocator) : Prop where
  consistent : s.outline.Consistent c allowed f vis empty
  untouched : (s.outline.turnTo (some b) pre).Untouched f (vis ++ [b]) none
  current : s.current = some b
  out : s.out = []
  new : b ∉ vis
  located : ∀ v ∈ pre, (f.value v).hasResult → (s.func.value v).loc ≠ none
  allocatable : s.regs.allocatable = allowed

namespace Entering

theorem not_current (h : Entering c allowed f vis b pre s) : ∀ d ∈ vis, s.outline.current ≠ some d := by
  intro d hd heq
  exact h.new (some.inj (h.current.symm.trans heq) ▸ hd)

theorem valuesOf_self (b : BlockId) (pre : List ValueId) (t : Outline) :
    (t.turnTo (some b) pre).valuesOf b = pre := valuesOf_current rfl

section

variable (h : Entering c allowed f vis b pre s)

include h

theorem valuesOf_visited {d : BlockId} (hd : d ∈ vis) :
    (s.outline.turnTo (some b) pre).valuesOf d = s.outline.valuesOf d := by
  refine valuesOf_turnTo pre (h.not_current d hd) fun heq => ?_
  exact h.new (some.inj heq ▸ hd)

section

variable (hf : f.SsaForm) (hv : v ∈ (f.block b).values)

include hf hv

theorem unplaced : ∀ d ∈ vis, v ∉ s.outline.valuesOf d := by
  intro d hd hmem
  obtain ⟨hlt, hblock⟩ := hf.placed b v hv
  have hlisted := (h.consistent.visited d hd).listed v hmem hlt
  exact h.new (hblock.symm.trans (hf.placed d v hlisted).2 ▸ hd)

theorem loc_eq_none (hnot : v ∉ pre) : (s.func.value v).loc = none := by
  refine h.untouched.loc v (hf.placed b v hv).1 fun d hd => ?_
  rcases mem_append.mp hd with hd | hd
  · rw [h.valuesOf_visited hd]
    exact h.unplaced hf hv d hd
  · rw [mem_singleton.mp hd, valuesOf_self]
    exact hnot

theorem home_eq_none (hnot : v ∉ pre) : s.homes.lookup v = none := by
  by_contra hsome
  obtain ⟨k, hk⟩ := ne_none_iff_exists'.mp hsome
  obtain ⟨-, ⟨-, l, hl, -⟩ | ⟨-, -, -, -, -, hvis, -⟩⟩ := h.consistent.homes v k hk
  · rw [show (s.outline.func.value v).loc = none from h.loc_eq_none hf hv hnot] at hl
    cases hl
  · exact h.new ((hf.placed b v hv).2 ▸ hvis)

end

end

theorem mono_untouched {t : Outline} {pre' : List ValueId}
    (h : (t.turnTo (some b) pre).Untouched f (vis ++ [b]) none) (hsub : ∀ v ∈ pre, v ∈ pre') :
    (t.turnTo (some b) pre').Untouched f (vis ++ [b]) none := by
  have hmem : ∀ d v, v ∈ (t.turnTo (some b) pre).valuesOf d → v ∈ (t.turnTo (some b) pre').valuesOf d := by
    intro d v hv
    by_cases hd : d = b
    · rw [hd, valuesOf_self] at hv ⊢
      exact hsub v hv
    · have hne : some b ≠ some d := fun heq => hd (some.inj heq).symm
      rw [valuesOf_other hne] at hv
      rw [valuesOf_other hne]
      exact hv
  refine ⟨fun v hv hnot => h.loc v hv fun d hd hin => hnot d hd (hmem d v hin), ?_, h.rets⟩
  intro v hv hbusy hret hcase
  refine h.args v hv hbusy hret (hcase.imp_right fun hnot d hd hin => hnot d hd (hmem d v hin))

section

variable (h : Entering c allowed f vis b pre s)

include h

theorem skip (hv : (f.value v).hasResult = false) : Entering c allowed f vis b (pre ++ [v]) s where
  __ := h
  untouched := mono_untouched h.untouched fun _ => mem_append_left _
  located w hw hres := by
    rcases mem_append.mp hw with hw | hw
    · exact h.located w hw hres
    · rw [mem_singleton.mp hw, hv] at hres
      cases hres

theorem place {limit : Nat} (hf : f.SsaForm) (hv : v ∈ (f.block b).values) (hnot : v ∉ pre)
    (htidy : Tidy c allowed (s.func.setLoc v (some l)) limit) (hout : s'.outline = s.outline.setLoc v l limit)
    (hal : s'.regs.allocatable = s.regs.allocatable) : Entering c allowed f vis b (pre ++ [v]) s' := by
  have hlt := (hf.placed b v hv).1
  have hfunc : s'.func = s.func.setLoc v (some l) := congrArg func hout
  have hother : ∀ w, w ≠ v → s'.func.value w = s.func.value w := fun w hw => by
    rw [hfunc, value_setLoc_other hw.symm]
  have hsize : v < s.func.values.size := hlt.trans_le h.consistent.size_le
  have hself : (s'.func.value v).loc ≠ none := by
    rw [hfunc, value_setLoc_self hsize]
    exact some_ne_none l
  refine ⟨?_, ⟨?_, ?_, ?_⟩, (congrArg Outline.current hout).trans h.current,
    (congrArg Outline.out hout).trans h.out, h.new, ?_, hal.trans h.allocatable⟩
  · rw [hout]
    exact h.consistent.setLoc (h.loc_eq_none hf hv hnot) (h.unplaced hf hv) htidy
  · intro w hw hun
    have hne : w ≠ v := by
      rintro rfl
      refine hun b (mem_append_right _ mem_cons_self) ?_
      rw [valuesOf_self]
      exact mem_append_right _ mem_cons_self
    change (s'.func.value w).loc = none
    rw [hother w hne]
    rw [hout] at hun
    exact (mono_untouched h.untouched fun _ => mem_append_left _).loc w hw hun
  · intro w hw hbusy hret hcase
    rw [hout] at hcase ⊢
    refine (s.func.args_setLoc v w _).trans ?_
    exact (mono_untouched h.untouched fun _ => mem_append_left _).args w hw hbusy hret hcase
  · intro d w hd hk hw hbusy
    rw [hout]
    exact (s.func.args_setLoc v w _).trans (h.untouched.rets d w hd hk hw hbusy)
  · intro w hw hres
    rcases mem_append.mp hw with hw | hw
    · by_cases hne : w = v
      · rw [hne]
        exact hself
      · rw [hother w hne]
        exact h.located w hw hres
    · rw [mem_singleton.mp hw]
      exact hself

theorem placeHome {limit : Nat} (hf : f.SsaForm) (hv : v ∈ (f.block b).values) (hnot : v ∉ pre)
    (htidy : Tidy c allowed (s.func.setLoc v (some l)) limit) (hreg : l.isReg = false)
    (hout : s'.outline = (s.outline.setLoc v l limit).setHome v v)
    (hal : s'.regs.allocatable = s.regs.allocatable) : Entering c allowed f vis b (pre ++ [v]) s' := by
  have hlt := (hf.placed b v hv).1
  let t : Allocator := { s' with homes := s.homes }
  have ht : Entering c allowed f vis b (pre ++ [v]) t := by
    refine h.place hf hv hnot htidy ?_ hal
    change { s'.outline with homes := s.homes } = _
    rw [hout]
    rfl
  have hout' : s'.outline = t.outline.setHome v v := by
    rw [Allocator.outline]
    congr 1
    change s'.outline.homes = _
    rw [hout]
    rfl
  have hself : (t.func.value v).loc = some l := by
    change (s'.outline.func.value v).loc = some l
    rw [hout]
    exact congrArg loc (value_setLoc_self (hlt.trans_le h.consistent.size_le) (some l))
  refine ⟨?_, ⟨ht.untouched.loc, ht.untouched.args, ht.untouched.rets⟩, ht.current, ht.out, ht.new,
    ht.located, ht.allocatable⟩
  rw [hout']
  exact ht.consistent.setHome hlt (h.home_eq_none hf hv hnot) hself hreg

theorem onward (hf : f.SsaForm)
    (hon : s.outline.Onward s'.outline f) (hcons : s'.outline.Consistent c allowed f vis empty)
    (hal : s'.regs.allocatable = s.regs.allocatable) (hpre : ∀ v ∈ pre, v < f.values.size)
    (helsewhere : s'.outline.valuesOf b = s.outline.valuesOf b) : Entering c allowed f vis b pre s' where
  consistent := hcons
  untouched := by
    have hold := h.untouched
    have hcur := h.current
    have hcur' := hon.current.trans hcur
    rw [← hcur] at hold
    have hnew := (hon.turnTo pre).untouched h.consistent.size_le hf hold
    rwa [hcur'] at hnew
  current := hon.current.trans h.current
  out := by
    rw [valuesOf_current (t := s.outline) h.current, valuesOf_current (hon.current.trans h.current)] at helsewhere
    exact helsewhere.trans h.out
  new := h.new
  located v hv hres := by
    have hagrees := hon.agrees v ((hpre v hv).trans_le h.consistent.size_le)
    exact hagrees.loc.trans_ne (h.located v hv hres)
  allocatable := hal.trans h.allocatable

end

end Entering

theorem runs_arrival (h : Runs (c.arrival? v) s x s') :
    s' = s ∧ ((x = none ∧ (s.func.value v).op ≠ .arg ∧ (s.func.value v).op ≠ .resultPtr) ∨
      ∃ l, x = some l ∧ (((s.func.value v).op = .arg ∧ ∃ k : Int, (s.func.value v).payload = .int k ∧
        c.signature.paramLocation? (if k < 0 then k + 0x10000000000000000 else k).toNat = some l) ∨
        (s.func.value v).op = .resultPtr ∧ l = .reg Reg.x8)) := by
  rw [arrival?, runs_get_bind] at h
  split at h
  · rename_i hop
    obtain ⟨k, t, hint, hrest⟩ := runs_bind.mp h
    obtain ⟨rfl, hk⟩ := runs_intPayload hint
    dsimp only at hrest
    split at hrest
    · rename_i l hl
      obtain ⟨rfl, rfl⟩ := runs_pure.mp hrest
      exact ⟨rfl, .inr ⟨l, rfl, .inl ⟨hop, k, hk, hl⟩⟩⟩
    · exact (runs_reject.mp hrest).elim
  · rename_i hop
    obtain ⟨rfl, rfl⟩ := runs_pure.mp h
    exact ⟨rfl, .inr ⟨_, rfl, .inr ⟨hop, rfl⟩⟩⟩
  · rename_i harg hptr
    obtain ⟨rfl, rfl⟩ := runs_pure.mp h
    exact ⟨rfl, .inl ⟨rfl, harg, hptr⟩⟩

/-- What the caller does not pass needs no place at the entry. -/
theorem hasResult_of_not_passed (hf : f.Prepared c.types) (hb : b = f.entry) (hv : v ∈ f.leading b)
    (harg : (f.value v).op ≠ .arg) (hptr : (f.value v).op ≠ .resultPtr) : (f.value v).hasResult = false := by
  have hop := isLeading_of_mem_leading hv
  cases hop' : (f.value v).op with
  | phi =>
    have hpreds := (hf.ssa.phi_args b v (mem_values_of_mem_leading hv) hop').2
    rw [hb, hf.ssa.flow.entry_preds] at hpreds
    exact absurd hpreds (by decide)
  | initMem =>
    rw [hasResult, hf.memory v hop']
    rfl
  | arg => exact absurd hop' harg
  | resultPtr => exact absurd hop' hptr
  | _ =>
    rw [hop'] at hop
    cases hop

theorem delivers_of_arrival (hf : f.Prepared c.types) (hv : v ∈ (f.block b).values)
    (h : ((f.value v).op = .arg ∧ ∃ k : Int, (f.value v).payload = .int k ∧
      c.signature.paramLocation? (if k < 0 then k + 0x10000000000000000 else k).toNat = some l) ∨
      (f.value v).op = .resultPtr ∧ l = .reg Reg.x8) : c.signature.Delivers (f.value v) l := by
  refine h.imp ?_ id
  rintro ⟨hop, k, hk, hloc⟩
  obtain ⟨i, -, hi, -⟩ := hf.params b v hv hop
  obtain rfl : k = i := Payload.int.inj (hk.symm.trans hi)
  exact ⟨hop, i, hi, hloc⟩

section

variable (hf : f.Prepared c.types) (hsig : of c.types f = .ok c.signature) (hv : v ∈ (f.block b).values)

include hf hsig hv

theorem delivers_fits (hl : c.signature.Delivers (f.value v) l) :
    l.regs.Nodup ∧ (l.regs ≠ [] → l.regs.length = c.types.parts (f.value v).ty) ∧
      c.types.parts (f.value v).ty ≠ 0 ∧ (l.isReg ∨ ∃ o, l = .stack (.incoming o)) := by
  rcases hl with ⟨hop, i, hi, hloc⟩ | ⟨hop, rfl⟩
  · obtain ⟨hnodup, -, hplace, ty, hty, hsized, hwidth⟩ := location_of_param hsig hloc
    obtain ⟨j, ty', hj, hty', heq⟩ := hf.params b v hv hop
    obtain rfl : i = j := Int.ofNat_inj.mp (Payload.int.inj (hi.symm.trans hj))
    rw [hty, some_inj] at hty'
    rw [heq, ← hty']
    exact ⟨hnodup, hwidth, hsized, hplace⟩
  · have hone := hf.resultPtr b v hv hop
    exact ⟨nodup_singleton _, fun _ => hone.symm, hone ▸ Nat.one_ne_zero, .inl rfl⟩

/-- The caller passes different values in different registers. -/
theorem delivers_apart {l' : ValueLoc}
    (hw : w ∈ (f.block b).values) (hne : v ≠ w) (hl : c.signature.Delivers (f.value v) l)
    (hl' : c.signature.Delivers (f.value w) l') : ∀ r ∈ l.regs, r ∉ l'.regs := by
  intro r hr hr'
  rcases hl with ⟨hop, i, hi, hloc⟩ | ⟨hop, rfl⟩
  · rcases hl' with ⟨hop', j, hj, hloc'⟩ | ⟨hop', rfl⟩
    · rcases lt_trichotomy i j with hij | rfl | hij
      · exact (locations_apart hsig hloc hloc' hij).1 r hr hr'
      · exact hne (hf.params_inj b v hv w hw hop hop' (hi.trans hj.symm))
      · exact (locations_apart hsig hloc' hloc hij).1 r hr' hr
    · have hlow := (location_of_param hsig hloc).2.1 r hr
      rw [mem_singleton.mp hr'] at hlow
      exact absurd hlow (by decide)
  · rcases hl' with ⟨hop', j, hj, hloc'⟩ | ⟨hop', rfl⟩
    · have hlow := (location_of_param hsig hloc').2.1 r hr'
      rw [mem_singleton.mp hr] at hlow
      exact absurd hlow (by decide)
    · exact hne (hf.resultPtr_inj b v hv w hw hop hop')

end

/-- The first parameters are where the caller puts them. -/
structure Receiving (c : Setting) (allowed : RegSet) (f : Func) (vis : List BlockId) (b : BlockId)
    (pre : List ValueId) (s : Allocator) : Prop extends Entering c allowed f vis b pre s where
  fresh : Fresh s.func pre s.regs
  delivered : ∀ v ∈ pre, ∀ l, (s.func.value v).loc = some l → c.signature.Delivers (f.value v) l

namespace Receiving

theorem skip (h : Receiving c allowed f vis b pre s) (hf : f.SsaForm) (hv : v ∈ (f.block b).values)
    (hnot : v ∉ pre) (hres : (f.value v).hasResult = false) : Receiving c allowed f vis b (pre ++ [v]) s where
  toEntering := h.toEntering.skip hres
  fresh := h.fresh.skip (regsOf_of_none (h.loc_eq_none hf hv hnot))
  delivered w hw l hl := by
    rcases mem_append.mp hw with hw | hw
    · exact h.delivered w hw l hl
    · rw [mem_singleton.mp hw, h.loc_eq_none hf hv hnot] at hl
      cases hl

section

variable (h : Receiving c allowed f vis b pre s) (hf : f.Prepared c.types)
  (hsig : of c.types f = .ok c.signature) (hsub : ∀ w ∈ pre, w ∈ (f.block b).values)
  (hv : v ∈ (f.block b).values) (hnot : v ∉ pre) (hl : c.signature.Delivers (f.value v) l)

include h hf hsig hsub hv hnot hl

theorem apart : ∀ w ∈ pre, ∀ r ∈ l.regs, r ∉ s.func.regsOf w := by
  intro w hw r hr hin
  have hne : v ≠ w := by
    rintro rfl
    exact hnot hw
  obtain ⟨l', hl', -⟩ := exists_loc_of_regsOf (ne_nil_of_mem hin)
  rw [regsOf_of_loc hl'] at hin
  exact delivers_apart hf hsig hv (hsub w hw) hne hl (h.delivered w hw l' hl') r hr hin

theorem receive
    (hrun : Runs (do
      modify fun s => s.setLoc v (some l)
      if l.isReg then
        modify fun s => let s := s.hold v v l.regs true
          if s.isLiveFrom c.live v 0 then s else s.release v
      else modify fun s => s.setHome v v : Alloc Unit) s ⟨⟩ s') :
    Receiving c allowed f vis b (pre ++ [v]) s' := by
  obtain ⟨_, s1, hset, hrest⟩ := runs_bind.mp hrun
  obtain rfl := runs_modify.mp hset
  have hlt := (hf.ssa.placed b v hv).1
  have hsize : v < s.func.values.size := hlt.trans_le h.consistent.size_le
  have hkin : f.Kin s.func v := h.consistent.kin v hlt
  obtain ⟨hnodup, hwidth, hsized, hplace⟩ := delivers_fits hf hsig hv hl
  have hne : ∀ w ∈ pre, w ≠ v := by
    rintro w hw rfl
    exact hnot hw
  have htidy : Tidy c allowed (s.func.setLoc v (some l)) s.spillSize := by
    refine h.consistent.tidy.setLoc le_rfl hsize hnodup ?_ ?_ ?_ (.inl ?_) ?_
    · intro hregs _
      exact (hwidth hregs).trans (congrArg c.types.parts hkin.ty.symm)
    · rw [show (s.outline.func.value v).ty = (f.value v).ty from hkin.ty]
      exact fun _ => hsized
    · rintro k rfl
      rcases hplace with hreg | ⟨o, ho⟩
      · cases hreg
      · cases ho
    · change c.signature.Delivers (s.func.value v) l
      rw [Signature.Delivers, hkin.op, hkin.payload]
      exact hl
    · rintro o rfl
      rcases hplace with hreg | ⟨o', ho⟩
      · cases hreg
      · cases ho
  have hdelivered : ∀ w ∈ pre ++ [v], ∀ l', ((s.func.setLoc v (some l)).value w).loc = some l' →
      c.signature.Delivers (f.value w) l' := by
    intro w hw l' hl'
    rcases mem_append.mp hw with hw | hw
    · rw [value_setLoc_other (hne w hw).symm] at hl'
      exact h.delivered w hw l' hl'
    · rw [mem_singleton.mp hw, value_setLoc_self hsize] at hl'
      rw [mem_singleton.mp hw, ← some.inj hl']
      exact hl
  split at hrest
  · rename_i hreg
    have hfinal := runs_modify.mp hrest
    have hheld := h.fresh.hold hnot hsize hnodup hreg (h.apart hf hsig hsub hv hnot hl)
    have hal := (hold_keeps v v true l.regs 0 s.regs).1
    dsimp only at hfinal
    split at hfinal
    · subst hfinal
      exact ⟨h.toEntering.place hf.ssa hv hnot htidy rfl hal, hheld, hdelivered⟩
    · subst hfinal
      exact ⟨h.toEntering.place hf.ssa hv hnot htidy rfl ((allocatable_release _ v).trans hal), hheld.release v,
        hdelivered⟩
  · rename_i hreg
    obtain rfl := runs_modify.mp hrest
    have hnil : l.regs = [] := by
      by_contra hregs
      exact hreg (isReg_iff.mpr hregs)
    refine ⟨h.toEntering.placeHome hf.ssa hv hnot htidy (by simpa using hreg) rfl rfl,
      (h.fresh.setLoc hnot _).skip ((regsOf_setLoc_self hsize).trans hnil), hdelivered⟩

end

end Receiving

/-- A loop over the values of a block that passes over the ones that do not lead it. -/
theorem runs_forM_leading {step : ValueId → Alloc PUnit} (I : List ValueId → Allocator → Prop) (hf : f.SsaForm)
    (hvals : (f.block b).values = f.leading b ++ rest)
    (hlead : ∀ pre v t t', v ∈ f.leading b → v ∉ pre → (∀ w ∈ pre, w ∈ (f.block b).values) → I pre t →
      Runs (step v) t ⟨⟩ t' → I (pre ++ [v]) t')
    (hpass : ∀ v t t', v ∈ rest → I (f.leading b) t → Runs (step v) t ⟨⟩ t' → t' = t)
    (h : I [] s) (hrun : Runs ((f.block b).values.forM step) s ⟨⟩ s') : I (f.leading b) s' := by
  rw [hvals] at hrun
  obtain ⟨t, hfirst, hlast⟩ := runs_forM_append.mp hrun
  have ht : I (f.leading b) t := by
    refine runs_forM_invariant I (fun pre v post hsplit t t' => ?_) h hfirst
    refine hlead pre v t t' (mem_iff_append.mpr ⟨_, _, hsplit⟩)
      (not_mem_of_split ((hf.nodup b).sublist (takeWhile_sublist _)) hsplit) fun w hw => ?_
    refine mem_values_of_mem_leading ?_
    rw [hsplit]
    exact mem_append_left _ hw
  have hid : s' = t := by
    refine runs_forM_invariant (fun _ x => x = t) ?_ rfl hlast
    rintro pre v post hsplit x x' rfl hstep
    exact hpass v x x' (mem_iff_append.mpr ⟨_, _, hsplit⟩) ht hstep
  exact hid ▸ ht

/-- The first phis are in place, and no register that they have got has been freed. -/
structure Placing (c : Setting) (allowed : RegSet) (f : Func) (vis : List BlockId) (b : BlockId)
    (pre : List ValueId) (s : Allocator) : Prop extends Entering c allowed f vis b pre s where
  fresh : Fresh s.func pre s.regs
  held : ∀ v ∈ pre, s.func.regsOf v ≠ [] → Claims.Hold s.regs.occupant? v v (s.func.regsOf v)

namespace Placing

section

variable (h : Placing c allowed f vis b pre s)

include h

theorem skip (hf : f.SsaForm) (hv : v ∈ (f.block b).values)
    (hnot : v ∉ pre) (hres : (f.value v).hasResult = false) : Placing c allowed f vis b (pre ++ [v]) s := by
  have hnil := regsOf_of_none (h.loc_eq_none hf hv hnot)
  refine ⟨h.toEntering.skip hres, h.fresh.skip hnil, fun w hw hne => ?_⟩
  rcases mem_append.mp hw with hw | hw
  · exact h.held w hw hne
  · exact absurd (mem_singleton.mp hw ▸ hnil) hne

theorem not_mem_regsOf {r : Reg} (hw : w ∈ pre) (hfree : s.regs.occupant? r = none) : r ∉ s.func.regsOf w := by
  intro hr
  obtain ⟨p, hp⟩ := mem_iff_getElem?.mp hr
  rw [(h.held w hw (ne_nil_of_mem hr)).2 p r hp] at hfree
  cases hfree

theorem placePhi (hf : f.SsaForm)
    (hv : v ∈ (f.block b).values) (hnot : v ∉ pre) (hrun : Runs (c.placePhi v) s ⟨⟩ s') :
    Placing c allowed f vis b (pre ++ [v]) s' := by
  obtain ⟨words, s1, hparts, hmod⟩ := runs_bind.mp hrun
  obtain ⟨rfl, hwords, hpos⟩ := runs_parts hparts
  have hlt := (hf.placed b v hv).1
  have hsize : v < s1.func.values.size := hlt.trans_le h.consistent.size_le
  have hfinal := runs_modify.mp hmod
  have hne : ∀ w ∈ pre, w ≠ v := by
    rintro w hw rfl
    exact hnot hw
  dsimp only at hfinal
  generalize hfree : (s1.regs.allocatable.toList.filter fun r => !s1.regs.inUse r).take words = free
    at hfinal
  have hmem : ∀ r ∈ free, allowed.contains r ∧ s1.regs.occupant? r = none := by
    intro r hr
    rw [← hfree] at hr
    obtain ⟨hr, huse⟩ := mem_filter.mp (mem_of_mem_take hr)
    rw [h.allocatable] at hr
    exact ⟨RegSet.mem_toList.mp hr, inUse_eq_false_iff.mp (by simpa using huse)⟩
  have hnodup : free.Nodup := by
    rw [← hfree]
    exact ((s1.regs.allocatable.toList_nodup).filter _).sublist (take_sublist _ _)
  split at hfinal
  · rename_i hlen
    obtain ⟨l, hl⟩ := exists_ofRegs? (show free.length ≠ 0 by rw [hlen]; exact hpos)
      (by rw [hlen, hwords]; exact c.types.parts_le_two _)
    rw [hl] at hfinal
    obtain ⟨rfl, hreg⟩ := regs_of_ofRegs? hl
    subst hfinal
    have htidy := tidy_setRegs h.consistent.tidy hsize (hlen.trans hwords) hreg hnodup fun r hr => (hmem r hr).1
    have hapart : ∀ w ∈ pre, ∀ r ∈ l.regs, r ∉ s1.func.regsOf w := fun w hw r hr =>
      h.not_mem_regsOf hw (hmem r hr).2
    refine ⟨h.toEntering.place hf hv hnot htidy rfl
      (hold_keeps v v true l.regs 0 s1.regs).1, h.fresh.hold hnot hsize hnodup hreg hapart, fun w hw hw' => ?_⟩
    have hocc : ((s1.hold v v l.regs true).setLoc v (some l)).regs.occupant? =
        put s1.regs.occupant? v v l.regs := occupant?_hold s1.regs v v true hnodup
    rw [hocc]
    change ¬(s1.func.setLoc v (some l)).regsOf w = [] at hw'
    change Claims.Hold _ w w ((s1.func.setLoc v (some l)).regsOf w)
    rcases mem_append.mp hw with hw | hw
    · rw [regsOf_setLoc_other (hne w hw)] at hw' ⊢
      exact (h.held w hw hw').put (fun r hr hin => hapart w hw r hin hr) v v
    · rw [mem_singleton.mp hw, regsOf_setLoc_self hsize]
      exact hold_put hnodup (isReg_iff.mp hreg)
  · subst hfinal
    have htidy := tidy_spillSlot h.consistent.tidy hsize (hwords ▸ hpos)
    rw [← show words = c.types.parts (s1.outline.func.value v).ty from hwords] at htidy
    have hnil : (s1.func.setLoc v (some (.stack (.spill s1.spillSize)))).regsOf v = [] :=
      regsOf_setLoc_self hsize
    refine ⟨h.toEntering.placeHome hf hv hnot htidy rfl rfl rfl, (h.fresh.setLoc hnot _).skip hnil,
      fun w hw hw' => ?_⟩
    change ¬(s1.func.setLoc v (some (.stack (.spill s1.spillSize)))).regsOf w = [] at hw'
    change Claims.Hold s1.regs.occupant? w w ((s1.func.setLoc v (some (.stack (.spill s1.spillSize)))).regsOf w)
    rcases mem_append.mp hw with hw | hw
    · rw [regsOf_setLoc_other (hne w hw)] at hw' ⊢
      exact h.held w hw hw'
    · exact absurd (mem_singleton.mp hw ▸ hnil) hw'

end

end Placing

theorem homes_spec {vs : List ValueId} (hf : f.SsaForm) (h : Entering c allowed f vis b pre s)
    (hfresh : Fresh s.func pre s.regs) (hpre : ∀ v ∈ pre, v < f.values.size)
    (hvs : ∀ v ∈ vs, ∃ d ∈ vis, v ∈ (f.block d).values)
    (hrun : Runs (vs.forM fun v => do let _ ← c.home v) s ⟨⟩ s') :
    Entering c allowed f vis b pre s' ∧ Fresh s'.func pre s'.regs := by
  refine runs_forM_invariant (fun _ t => Entering c allowed f vis b pre t ∧ Fresh t.func pre t.regs) ?_
    ⟨h, hfresh⟩ hrun
  rintro _ v _ hsplit t t' ⟨ht, hfresh⟩ hstep
  obtain ⟨a, hhome, -⟩ := runs_bind_pure.mp hstep
  obtain ⟨d, hd, hv⟩ := hvs v (mem_iff_append.mpr ⟨_, _, hsplit⟩)
  have hplaced : Placed f vis t v := by
    refine ⟨(hf.placed d v hv).1, d, hd, ?_⟩
    rw [← (ht.consistent.closed d hd (ht.not_current d hd)).all] at hv
    exact (mem_filter.mp hv).1
  have hspec := home_spec hf hhome ht.consistent hplaced
  refine ⟨ht.onward hf hspec.onward hspec.consistent hspec.alike.allocatable hpre (hspec.elsewhere b ht.new), ?_⟩
  refine hfresh.congr (fun w hw => Draft.regsOf_eq_of_loc ?_) hspec.alike
  exact (hspec.onward.agrees w ((hpre w hw).trans_le ht.consistent.size_le)).loc

section

variable (hf : f.Prepared c.types) (hvals : (f.block b).values = f.leading b ++ rest)
  (hrest : ∀ v ∈ rest, (f.value v).op.isLeading = false)

include hf hvals hrest

theorem enterFunction_spec (hsig : of c.types f = .ok c.signature) (hb : b = f.entry)
    (h : Receiving c allowed f vis b [] s) (hrun : Runs (c.enterFunction (f.block b).values) s ⟨⟩ s') :
    Receiving c allowed f vis b (f.leading b) s' := by
  have hsame : ∀ {t : Allocator} {pre : List ValueId}, Receiving c allowed f vis b pre t →
      ∀ v ∈ (f.block b).values, (t.func.value v).op = (f.value v).op ∧
        (t.func.value v).payload = (f.value v).payload := by
    intro t pre ht v hv
    have hkin := ht.consistent.kin v (hf.ssa.placed b v hv).1
    exact ⟨hkin.op, hkin.payload⟩
  refine runs_forM_leading (Receiving c allowed f vis b) hf.ssa hvals ?_ ?_ h hrun
  · intro pre v t t' hlead hnot hsub ht hstep
    have hv := mem_values_of_mem_leading hlead
    obtain ⟨x, t1, harrival, hstep⟩ := runs_bind.mp hstep
    obtain ⟨rfl, hcases⟩ := runs_arrival harrival
    rw [(hsame ht v hv).1, (hsame ht v hv).2] at hcases
    rcases hcases with ⟨rfl, harg, hptr⟩ | ⟨l, rfl, hl⟩
    · obtain ⟨-, rfl⟩ := runs_pure.mp hstep
      exact ht.skip hf.ssa hv hnot (hasResult_of_not_passed hf hb hlead harg hptr)
    · exact ht.receive hf hsig hsub hv hnot (delivers_of_arrival hf hv hl) hstep
  · intro v t t' hv ht hstep
    have hinner := hrest v hv
    obtain ⟨y, t1, harrival, hstep⟩ := runs_bind.mp hstep
    obtain ⟨rfl, hcases⟩ := runs_arrival harrival
    rw [(hsame ht v (by rw [hvals]; exact mem_append_right _ hv)).1] at hcases
    rcases hcases with ⟨rfl, -⟩ | ⟨l, rfl, ⟨hop, -⟩ | ⟨hop, -⟩⟩
    · exact (runs_pure.mp hstep).2
    · rw [hop] at hinner
      cases hinner
    · rw [hop] at hinner
      cases hinner

theorem joinPaths_spec (hb : b ≠ f.entry) (hlive : ∀ v ∈ (c.live.liveIn b).toList, ∃ d ∈ vis, v ∈ (f.block d).values)
    (h : Placing c allowed f vis b [] s) (hrun : Runs (c.joinPaths b (f.block b).values) s ⟨⟩ s') :
    Entering c allowed f vis b (f.leading b) s' ∧ Fresh s'.func (f.leading b) s'.regs := by
  have hsame : ∀ {t : Allocator} {pre : List ValueId}, Placing c allowed f vis b pre t →
      ∀ v ∈ (f.block b).values, ((t.func.value v).op = .phi ∧ (t.func.value v).hasResult ↔
        (f.value v).op = .phi ∧ (f.value v).hasResult) := by
    intro t pre ht v hv
    have hkin : f.Kin t.func v := ht.consistent.kin v (hf.ssa.placed b v hv).1
    rw [hasResult, hasResult, hkin.op, hkin.ty]
  obtain ⟨_, s1, hphis, h1⟩ := runs_bind.mp hrun
  obtain ⟨_, s2, hrelease, hhomes⟩ := runs_bind.mp h1
  have ht : Placing c allowed f vis b (f.leading b) s1 := by
    refine runs_forM_leading (Placing c allowed f vis b) hf.ssa hvals ?_ ?_ h hphis
    · intro pre v x x' hlead hnot _ hx hstep
      have hv := mem_values_of_mem_leading hlead
      have hphi : (f.value v).op = .phi := by
        by_contra hne
        exact hb (hf.inputs b v hlead hne)
      rw [runs_get_bind] at hstep
      dsimp only at hstep
      split at hstep
      · exact hx.placePhi hf.ssa hv hnot hstep
      · rename_i hno
        obtain ⟨-, rfl⟩ := runs_pure.mp hstep
        refine hx.skip hf.ssa hv hnot ?_
        by_contra hres
        exact hno ((hsame hx v hv).mpr ⟨hphi, by simpa using hres⟩)
    · intro v x x' hv hx hstep
      rw [runs_get_bind] at hstep
      dsimp only at hstep
      split at hstep
      · rename_i hyes
        have hop := ((hsame hx v (by rw [hvals]; exact mem_append_right _ hv)).mp hyes).1
        have hinner := hrest v hv
        rw [hop] at hinner
        cases hinner
      · exact (runs_pure.mp hstep).2
  -- phis that are not needed leave their registers, and the others stay
  have hreleased : ∀ (vs : List ValueId) (x : Allocator), Entering c allowed f vis b (f.leading b) x →
      Fresh x.func (f.leading b) x.regs → ∀ y, y = vs.foldl (fun s v =>
        if s.func.isPhi v && !s.isLiveFrom c.live v 0 then s.release v else s) x →
      Entering c allowed f vis b (f.leading b) y ∧ Fresh y.func (f.leading b) y.regs := by
    intro vs
    induction vs with
    | nil =>
      rintro x hx hfresh _ rfl
      exact ⟨hx, hfresh⟩
    | cons v vs ih =>
      intro x hx hfresh y hy
      rw [foldl_cons] at hy
      split at hy
      · refine ih (x.release v) ?_ (hfresh.release v) y hy
        exact ⟨hx.consistent, hx.untouched, hx.current, hx.out, hx.new, hx.located,
          (x.regs.allocatable_release v).trans hx.allocatable⟩
      · exact ih x hx hfresh y hy
  obtain ⟨hentering, hfresh⟩ := hreleased _ s1 ht.toEntering ht.fresh s2 (runs_modify.mp hrelease)
  refine homes_spec hf.ssa hentering hfresh (fun v hv => ?_) hlive hhomes
  exact (hf.ssa.placed b v (mem_values_of_mem_leading hv)).1

end

/-- All leading values are in place, and the registers hold no more than what a block may start with. -/
structure Entered (c : Setting) (allowed : RegSet) (f : Func) (vis : List BlockId) (b : BlockId)
    (s : Allocator) : Prop extends Entering c allowed f vis b (f.leading b) s where
  start : ∃ S, s.outline.StartsWith f b S ∧ Claims.Within s.regs.occupant? S
  regs : RegsFit (s.outline.turnTo (some b) (f.leading b)) f (vis ++ [b]) s.regs

theorem entered_of_fresh (hf : f.SsaForm) (h : Entering c allowed f vis b (f.leading b) s)
    (hfresh : Fresh s.func (f.leading b) s.regs) : Entered c allowed f vis b s := by
  have hclaim : ∀ {v : ValueId} {p : Nat} {r : Reg}, v ∈ f.leading b →
      (s.func.regsOf v)[p]? = some r → startClaims s.func (f.leading b) r = some ⟨v, v, p⟩ :=
    fun {v p r} hv hp => startClaims_of_getElem? hfresh.apart (h.consistent.tidy.nodup v) hv hp
  refine ⟨h, ⟨startClaims s.func (f.leading b), ⟨?_, h.located, .inl ?_⟩, ?_⟩, ⟨⟨?_, ?_⟩, ?_⟩⟩
  · exact fun v hv hne => ⟨hne, fun p r hp => hclaim hv hp⟩
  · exact fun r o ho => mem_of_startClaims ho
  · intro r o ho
    obtain ⟨hcopy, hmem, hpart, -⟩ := hfresh.own r o ho
    rw [hclaim hmem hpart]
    cases o
    cases hcopy
    rfl
  · intro r o ho
    obtain ⟨hcopy, hmem, hpart, hheld⟩ := hfresh.own r o ho
    rw [hcopy]
    exact ⟨hpart, hheld⟩
  · intro r o ho
    obtain ⟨-, hmem, -⟩ := hfresh.own r o ho
    refine ⟨(hf.placed b _ (mem_values_of_mem_leading hmem)).1, b, mem_append_right _ mem_cons_self, ?_⟩
    rw [Entering.valuesOf_self]
    exact hmem
  · intro r r' o o' hlock
    rw [hfresh.unlocked] at hlock
    cases hlock

end Setting

end SsaCodegen
