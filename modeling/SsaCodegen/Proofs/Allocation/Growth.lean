import SsaCodegen.Proofs.Allocation.Outline
import SsaCodegen.Proofs.Checks

/-! How the state of an allocation changes. Nothing touches what stands in visited blocks, but that a store is
put right after the value that it stores. -/

namespace SsaCodegen.Outline

open List Allocator Func

variable {c : Setting} {allowed : RegSet} {f g : Func} {vis : List BlockId} {P Q S : Claims}
  {t t' : Outline} {b b' : BlockId} {u v w h : ValueId} {front back : List ValueId}

/-- The blocks stay as they are, and so do the values that stand in those that have been visited. -/
structure Grows (t t' : Outline) (f : Func) (vis : List BlockId) : Prop where
  blocks : t'.func.blocks = t.func.blocks
  entry : t'.func.entry = t.func.entry
  current : t'.current = t.current
  out : t'.out = t.out
  endStates : t'.endStates = t.endStates
  spans : t'.func.Spans
  size_le : t.func.values.size ≤ t'.func.values.size
  kin : ∀ v, v < t.func.values.size → t.func.Kin t'.func v
  loc : ∀ v l, (t.func.value v).loc = some l → (t'.func.value v).loc = some l
  loc_fixed : ∀ b ∈ vis, ∀ v ∈ t.valuesOf b, (t'.func.value v).loc = (t.func.value v).loc
  args_fixed : ∀ b ∈ vis, ∀ v ∈ t.valuesOf b, (t.func.value v).op.isLeading = false → t'.func.args v = t.func.args v
  args_ret : ∀ b ∈ vis, t.current ≠ some b → (f.block b).kind = .ret →
    ∀ v, (f.block b).control = some v → t'.func.args v = t.func.args v
  home : ∀ u h, t.homes.lookup u = some h → t'.homes.lookup u = some h
  locals : t'.func.locals = t.func.locals

namespace Grows

section

variable (hg : t.Grows t' f vis)

include hg

theorem block (b : BlockId) : t'.func.block b = t.func.block b := by
  rw [Func.block, Func.block, hg.blocks]

theorem valuesOf (b : BlockId) : t'.valuesOf b = t.valuesOf b := by
  rw [Outline.valuesOf, Outline.valuesOf, hg.current, hg.out, hg.block]

theorem atEnd (b : BlockId) : t'.atEnd b = t.atEnd b := by
  unfold Outline.atEnd
  rw [hg.endStates]

theorem stop (P : Claims) (b : BlockId) : t'.stop P b = t.stop P b := by
  rw [Outline.stop, Outline.stop, hg.current, hg.atEnd]

theorem extends_draft (hlt : ∀ b ∈ vis, ∀ v ∈ t.valuesOf b, v < t.func.values.size) : (t.draft f).Extends (t'.draft f)
      fun v => ∃ b ∈ vis, v ∈ t.valuesOf b ∧ (t.func.value v).op.isLeading = false where
  source := rfl
  agrees := by
    rintro v ⟨b, hb, hv, hop⟩
    exact ⟨hg.kin v (hlt b hb v hv), hg.loc_fixed b hb v hv, hg.args_fixed b hb v hv hop⟩
  loc := hg.loc
  home := hg.home

end

end Grows

theorem Founded.extend {fixed : ValueId → Prop} (hP : t.Founded f vis P) (hd : (t.draft f).Extends (t'.draft f) fixed)
    (hvals : ∀ b ∈ vis, ∀ v ∈ t.valuesOf b, v ∈ t'.valuesOf b) : t'.Founded f vis P where
  whole r o ho := by
    obtain ⟨hreg, hheld⟩ := hP.whole r o ho
    refine ⟨?_, hheld.extend hd⟩
    have hregs : t'.func.regsOf o.copy = t.func.regsOf o.copy := hd.regsOf hheld.1
    rw [hregs]
    exact hreg
  placed r o ho := by
    obtain ⟨hlt, b, hb, hv⟩ := hP.placed r o ho
    exact ⟨hlt, b, hb, hvals b hb _ hv⟩

theorem leading_subset (hvis : t.Visited f b P) : ∀ v ∈ f.leading b, v ∈ t.valuesOf b := by
  obtain ⟨S, rest, hvals, -⟩ := hvis.route
  intro v hv
  rw [hvals]
  exact mem_append_left rest hv

theorem StartsWith.extend {fixed : ValueId → Prop} (hS : t.StartsWith f b S)
    (hd : (t.draft f).Extends (t'.draft f) fixed)
    (hloc : ∀ v ∈ f.leading b, (t'.func.value v).loc = (t.func.value v).loc)
    (hend : ∀ p, t.endStates.getD p none ≠ none → t'.endStates.getD p none = t.endStates.getD p none) :
    t'.StartsWith f b S where
  held v hv hregs := by
    rw [Draft.regsOf_eq_of_loc (hloc v hv)] at hregs
    exact (hS.held v hv hregs).extend hd
  located v hv hres := by
    rw [hloc v hv]
    exact hS.located v hv hres
  source := by
    refine hS.source.imp id ?_
    rintro ⟨p, hp, hdone, hwithin, hnot⟩
    refine ⟨p, hp, ?_, ?_, hnot⟩
    · rw [hend p hdone]
      exact hdone
    · intro r o ho
      unfold Outline.atEnd
      rw [hend p hdone]
      exact hwithin r o ho

theorem Visited.grow (hvis : t.Visited f b P) (hg : t.Grows t' f vis) (hb : b ∈ vis)
    (hd : (t.draft f).Extends (t'.draft f)
      fun v => ∃ b ∈ vis, v ∈ t.valuesOf b ∧ (t.func.value v).op.isLeading = false) : t'.Visited f b P where
  nodup := by
    rw [hg.valuesOf]
    exact hvis.nodup
  placed v hv := by
    rw [hg.valuesOf] at hv
    obtain ⟨hlt, hblock⟩ := hvis.placed v hv
    exact ⟨hlt.trans_le hg.size_le, (hg.kin v hlt).block.trans hblock⟩
  listed v hv := by
    rw [hg.valuesOf] at hv
    exact hvis.listed v hv
  route := by
    obtain ⟨S, rest, hvals, hstart, hsteps⟩ := hvis.route
    refine ⟨S, rest, (hg.valuesOf b).trans hvals, ?_, ?_⟩
    · refine hstart.extend hd (fun v hv => ?_) fun p _ => by rw [hg.endStates]
      exact hg.loc_fixed b hb v (leading_subset hvis v hv)
    · refine hsteps.extend hd fun w hw => ⟨b, hb, ?_, hsteps.not_leading w hw⟩
      rw [hvals]
      exact mem_append_right _ hw

theorem Closed.grow (hclosed : t.Closed f vis b) (hg : t.Grows t' f vis) (hb : b ∈ vis)
    (hcur : t.current ≠ some b) {fixed : ValueId → Prop}
    (hd : (t.draft f).Extends (t'.draft f) fixed) : t'.Closed f vis b where
  all := by
    rw [hg.valuesOf]
    exact hclosed.all
  branch hk := by
    obtain ⟨u, c, hu, hc, hheld⟩ := hclosed.branch hk
    refine ⟨u, c, hu, ?_, ?_⟩
    · rw [hg.block]
      exact hc
    · rw [hg.atEnd]
      exact hheld.extend hd
  plain hk := by
    rw [hg.block]
    exact hclosed.plain hk
  ret v hk hv := by
    refine (hclosed.ret v hk hv).extend rfl (hg.args_ret b hb hcur hk v hv) fun a a' ha => ?_
    rw [hg.valuesOf, hg.atEnd]
    exact ha.extend hd
  founded := by
    rw [hg.atEnd]
    exact hclosed.founded.extend hd fun b _ v hv => (hg.valuesOf b).symm ▸ hv

theorem HomeFits.grow (hfits : t.HomeFits f vis v h) (hg : t.Grows t' f vis)
    (hlt : ∀ b ∈ vis, ∀ v ∈ t.valuesOf b, v < t.func.values.size) : t'.HomeFits f vis v h := by
  obtain ⟨hv, hself | ⟨hnew, hop, hargs, hty, ⟨slot, hslot⟩, hvis, hmem⟩⟩ := hfits
  · obtain ⟨rfl, l, hl, hreg⟩ := hself
    exact ⟨hv, .inl ⟨rfl, l, hg.loc h l hl, hreg⟩⟩
  · have hkin := hg.kin h (hlt _ hvis h hmem)
    refine ⟨hv, .inr ⟨hnew, hkin.op.trans hop, ?_, hkin.ty.trans hty, ⟨slot, hg.loc h _ hslot⟩,
      hvis, (hg.valuesOf _).symm ▸ hmem⟩⟩
    exact (hg.args_fixed _ hvis h hmem (by rw [hop]; rfl)).trans hargs

theorem Consistent.grow (ht : Consistent c allowed f vis P t) (hg : t.Grows t' f vis)
    (htidy : Tidy c allowed t'.func t'.spillSize)
    (hhomes : ∀ v h, t'.homes.lookup v = some h → t.homes.lookup v ≠ some h →
      t'.HomeFits f vis v h) : Consistent c allowed f vis P t' where
  graph := by
    refine ht.graph.trans ⟨hg.entry, by rw [hg.blocks], ?_, ?_, ?_⟩ <;>
      exact fun b => by rw [hg.block]
  spans := hg.spans
  size_le := ht.size_le.trans hg.size_le
  kin v hv := by
    have hold := ht.kin v hv
    have hnew := hg.kin v (hv.trans_le ht.size_le)
    exact ⟨hnew.op.trans hold.op, hnew.ty.trans hold.ty, hnew.payload.trans hold.payload, hnew.block.trans hold.block⟩
  tidy := htidy
  homes v h hh := by
    by_cases hold : t.homes.lookup v = some h
    · exact (ht.homes v h hold).grow hg fun b hb v hv => ht.lt hb hv
    · exact hhomes v h hh hold
  todo b hb := by
    rw [hg.current] at hb
    rw [hg.block]
    exact ht.todo b hb
  ends := by
    rw [hg.endStates]
    exact ht.ends
  ended b hb := by
    rw [hg.endStates] at hb
    rw [hg.current]
    exact ht.ended b hb
  keys := by
    rw [hg.endStates]
    exact ht.keys
  visited b hb := by
    rw [hg.stop]
    exact (ht.visited b hb).grow hg hb (hg.extends_draft fun b hb v hv => ht.lt hb hv)
  closed b hb hcur := by
    rw [hg.current] at hcur
    exact (ht.closed b hb hcur).grow hg hb hcur (hg.extends_draft fun b hb v hv => ht.lt hb hv)
  locals := hg.locals.trans ht.locals

/-- Only the list of values of block `b` changes, and homes are added. -/
structure Relists (t t' : Outline) (f : Func) (b : BlockId) : Prop where
  value : ∀ v, t'.func.value v = t.func.value v
  args : ∀ v, t'.func.args v = t.func.args v
  size : t'.func.values.size = t.func.values.size
  spans : t'.func.Spans
  graph : t.func.SameGraph t'.func
  control : ∀ b, (t'.func.block b).control = (t.func.block b).control
  current : t'.current = t.current
  endStates : t'.endStates = t.endStates
  spillSize : t'.spillSize = t.spillSize
  block : ∀ b', b' ≠ b ∨ t.current = some b' → t'.func.block b' = t.func.block b'
  out : t.current ≠ some b → t'.out = t.out
  members : ∀ v ∈ t.valuesOf b, v ∈ t'.valuesOf b
  originals : t.current ≠ some b →
    (t'.valuesOf b).filter (· < f.values.size) = (t.valuesOf b).filter (· < f.values.size)
  home : ∀ u h, t.homes.lookup u = some h → t'.homes.lookup u = some h
  locals : t'.func.locals = t.func.locals

namespace Relists

section

variable (hr : t.Relists t' f b)

include hr

theorem extends_draft : (t.draft f).Extends (t'.draft f) fun _ => True where
  source := rfl
  agrees v _ := by
    have hv : (t'.draft f).func.value v = (t.draft f).func.value v := hr.value v
    refine ⟨⟨?_, ?_, ?_, ?_⟩, ?_, hr.args v⟩ <;> rw [hv]
  loc v l hl := by
    have hv : (t'.draft f).func.value v = (t.draft f).func.value v := hr.value v
    rw [hv]
    exact hl
  home := hr.home

theorem atEnd (b' : BlockId) : t'.atEnd b' = t.atEnd b' := by
  unfold Outline.atEnd
  rw [hr.endStates]

theorem valuesOf_other {b' : BlockId} (hne : b' ≠ b) : t'.valuesOf b' = t.valuesOf b' := by
  rw [Outline.valuesOf, Outline.valuesOf, hr.current, hr.block b' (.inl hne)]
  by_cases hcur : t.current = some b'
  · rw [if_pos hcur, if_pos hcur, hr.out]
    rw [hcur]
    exact fun h => hne (Option.some.inj h)
  · rw [if_neg hcur, if_neg hcur]

theorem members_all (b' : BlockId) : ∀ v ∈ t.valuesOf b', v ∈ t'.valuesOf b' := by
  by_cases hne : b' = b
  · rw [hne]
    exact hr.members
  · rw [hr.valuesOf_other hne]
    exact fun _ => id

end

end Relists

theorem StartsWith.relist (hS : t.StartsWith f b S) (hr : t.Relists t' f b') : t'.StartsWith f b S :=
  hS.extend (hr.extends_draft) (fun v _ => by rw [hr.value]) fun p _ => by rw [hr.endStates]

theorem Visited.relist (hvis : t.Visited f b P) (hr : t.Relists t' f b') (hne : b ≠ b') : t'.Visited f b P where
  nodup := by
    rw [hr.valuesOf_other hne]
    exact hvis.nodup
  placed v hv := by
    rw [hr.valuesOf_other hne] at hv
    rw [hr.value, hr.size]
    exact hvis.placed v hv
  listed v hv := by
    rw [hr.valuesOf_other hne] at hv
    exact hvis.listed v hv
  route := by
    obtain ⟨S, rest, hvals, hstart, hsteps⟩ := hvis.route
    exact ⟨S, rest, (hr.valuesOf_other hne).trans hvals, hstart.relist hr,
      hsteps.extend (hr.extends_draft) fun _ _ => trivial⟩

theorem Closed.relist (hclosed : t.Closed f vis b) (hr : t.Relists t' f b') (hcur : t.current ≠ some b) :
    t'.Closed f vis b where
  all := by
    by_cases hne : b = b'
    · subst hne
      rw [hr.originals hcur]
      exact hclosed.all
    · rw [hr.valuesOf_other hne]
      exact hclosed.all
  branch hk := by
    obtain ⟨u, c, hu, hc, hheld⟩ := hclosed.branch hk
    rw [hr.control, hr.atEnd]
    exact ⟨u, c, hu, hc, hheld.extend (hr.extends_draft)⟩
  plain hk := by
    rw [hr.control]
    exact hclosed.plain hk
  ret v hk hv := by
    refine (hclosed.ret v hk hv).extend rfl (hr.args v) fun a a' ha => ?_
    rw [hr.atEnd]
    exact (ha.extend (hr.extends_draft)).mono (hr.members_all b) (.refl _)
  founded := by
    rw [hr.atEnd]
    exact hclosed.founded.extend (hr.extends_draft) fun b _ => hr.members_all b

theorem HomeFits.relist (hfits : t.HomeFits f vis v h) (hr : t.Relists t' f b) : t'.HomeFits f vis v h := by
  rw [HomeFits, hr.value, hr.value, hr.args]
  obtain ⟨hv, hfits⟩ := hfits
  refine ⟨hv, hfits.imp_right ?_⟩
  rintro ⟨hnew, hop, hargs, hty, hslot, hvis, hmem⟩
  exact ⟨hnew, hop, hargs, hty, hslot, hvis, hr.members_all _ h hmem⟩

/-- A change to one list keeps everything in order if it keeps that block in order. -/
theorem Consistent.relist (ht : Consistent c allowed f vis P t) (hr : t.Relists t' f b) (hb : b ∈ vis)
    (hP : t.current = some b ∨ Q = P) (hvisited : t'.Visited f b (t'.stop Q b))
    (hhomes : ∀ v h, t'.homes.lookup v = some h → t.homes.lookup v ≠ some h →
      t'.HomeFits f vis v h) : Consistent c allowed f vis Q t' where
  graph := ht.graph.trans hr.graph
  spans := hr.spans
  size_le := by
    rw [hr.size]
    exact ht.size_le
  kin v hv := by
    obtain ⟨hop, hty, hpayload, hblock⟩ := ht.kin v hv
    refine ⟨?_, ?_, ?_, ?_⟩ <;> rw [hr.value] <;> assumption
  tidy := by
    obtain ⟨nodup, width, sized, const, origin, bound, apart⟩ := ht.tidy
    have hregs : ∀ v, t'.func.regsOf v = t.func.regsOf v := fun v => by
      rw [regsOf, regsOf, hr.value]
    constructor <;> simp only [hregs, hr.value, hr.spillSize] <;> assumption
  homes v h hh := by
    by_cases hold : t.homes.lookup v = some h
    · exact (ht.homes v h hold).relist hr
    · exact hhomes v h hh hold
  todo b' hb' := by
    rw [hr.current] at hb'
    rw [hr.block b' (hb'.imp_left ?_)]
    · exact ht.todo b' hb'
    · rintro hnot rfl
      exact hnot hb
  ends := by
    rw [hr.endStates]
    exact ht.ends
  ended b' hb' := by
    rw [hr.endStates] at hb'
    rw [hr.current]
    exact ht.ended b' hb'
  keys := by
    rw [hr.endStates]
    exact ht.keys
  visited b' hb' := by
    by_cases hne : b' = b
    · rw [hne]
      exact hvisited
    · have hstop : t'.stop Q b' = t.stop P b' := by
        rw [Outline.stop, Outline.stop, hr.current, hr.atEnd]
        rcases hP with hcur | rfl
        · rw [if_neg, if_neg] <;>
            exact fun hc => hne (Option.some.inj (hc.symm.trans hcur))
        · rfl
      rw [hstop]
      exact (ht.visited b' hb').relist hr hne
  closed b' hb' hcur := by
    rw [hr.current] at hcur
    exact (ht.closed b' hb' hcur).relist hr hcur
  locals := hr.locals.trans ht.locals

def emit (t : Outline) (w : ValueId) : Outline := { t with out := t.out ++ [w] }

theorem valuesOf_emit (hcur : t.current = some b) (w : ValueId) : (t.emit w).valuesOf b = t.valuesOf b ++ [w] := by
  rw [valuesOf_current hcur]
  exact valuesOf_current hcur

theorem relists_emit (hspans : t.func.Spans) (hcur : t.current = some b) (w : ValueId) :
    t.Relists (t.emit w) f b where
  value _ := rfl
  args _ := rfl
  size := rfl
  spans := hspans
  graph := .refl _
  control _ := rfl
  current := rfl
  endStates := rfl
  spillSize := rfl
  block _ _ := rfl
  out hne := absurd hcur hne
  members _ hv := (valuesOf_emit hcur w).symm ▸ mem_append_left _ hv
  originals hne := absurd hcur hne
  home _ _ := id
  locals := rfl

/-- A value is listed next: it is a step from the claims before it to those after it. -/
theorem Consistent.emit {P' : Claims} (ht : Consistent c allowed f vis P t) (hcur : t.current = some b)
    (hb : b ∈ vis) (hnot : w ∉ t.out) (hlt : w < t.func.values.size)
    (hblock : (t.func.value w).block = b) (hlisted : w < f.values.size → w ∈ (f.block b).values)
    (hP : P'.Within P) (hstep : (t.draft f).Step b t.out P' w Q) :
    Consistent c allowed f vis Q (t.emit w) := by
  have hvals := valuesOf_emit hcur w
  have hold := ht.visited b hb
  rw [stop_current hcur] at hold
  have hr : t.Relists (t.emit w) f b := relists_emit ht.spans hcur w
  refine ht.relist hr hb (.inl hcur) ?_ fun v h hh hne => absurd hh hne
  rw [stop_current (t := t.emit w) hcur]
  refine ⟨?_, ?_, ?_, ?_⟩
  · rw [hvals, valuesOf_current hcur, nodup_append]
    have hnodup := hold.nodup
    rw [valuesOf_current hcur] at hnodup
    refine ⟨hnodup, nodup_singleton w, ?_⟩
    intro x hx y hy hxy
    rw [hxy, mem_singleton.mp hy] at hx
    exact hnot hx
  · intro v hv
    rw [hvals, mem_append, mem_singleton] at hv
    rcases hv with hv | rfl
    · exact hold.placed v hv
    · exact ⟨hlt, hblock⟩
  · intro v hv
    rw [hvals, mem_append, mem_singleton] at hv
    rcases hv with hv | rfl
    · exact hold.listed v hv
    · exact hlisted
  · obtain ⟨S, rest, hrest, hstart, hsteps⟩ := hold.route
    refine ⟨S, rest ++ [w], ?_, hstart.relist hr, ?_⟩
    · rw [hvals, hrest, append_assoc]
    · have hout := (valuesOf_current hcur).symm.trans hrest
      refine (hsteps.snoc hP ?_).extend (hr.extends_draft) fun _ _ => trivial
      rwa [hout] at hstep

theorem placeAfter_leading (hv : (g.value v).op.isLeading) (hfront : ∀ u ∈ front, (g.value u).op.isLeading)
    (hback : ∀ u ∈ back, (g.value u).op.isLeading = false) :
    placeAfter g v h (front ++ back) = front ++ h :: back := by
  have htake : ((front ++ back).takeWhile fun u => (g.value u).op.isLeading) = front := by
    rw [takeWhile_append_of_pos hfront]
    cases back with
    | nil => rw [takeWhile_nil, append_nil]
    | cons u back =>
      rw [takeWhile_cons_of_neg, append_nil]
      rw [hback u mem_cons_self]
      exact Bool.false_ne_true
  rw [placeAfter, if_pos hv, htake]
  exact insertIdx_append_length h front back

theorem placeAfter_inner (hv : (g.value v).op.isLeading = false) (hnot : v ∉ front) :
    placeAfter g v h (front ++ v :: back) = front ++ v :: h :: back := by
  have hidx : (front ++ v :: back).idxOf? v = some front.length := by
    refine List.idxOf?_eq_some_iff.mpr ⟨by simp, by simp, fun j hj heq => hnot ?_⟩
    rw [getElem_append_left hj] at heq
    exact heq ▸ getElem_mem hj
  rw [placeAfter, if_neg (by rw [hv]; exact Bool.false_ne_true), hidx]
  have hsplit : front ++ v :: back = (front ++ [v]) ++ back := by simp
  have hins := insertIdx_append_length h (front ++ [v]) back
  rw [length_append, length_singleton] at hins
  simp only [hsplit]
  rw [hins]
  simp

/-- The store `h` is put after `v` in block `b` and becomes its home. -/
def withStore (t : Outline) (b : BlockId) (v h : ValueId) : Outline :=
  if t.current = some b then
    { t with out := placeAfter t.func v h t.out, homes := (v, h) :: t.homes }
  else
    { t with
      func := t.func.modifyBlock b fun k => { k with values := placeAfter t.func v h k.values }
      homes := (v, h) :: t.homes }

theorem valuesOf_withStore (hv : v ∈ t.valuesOf b) :
    (t.withStore b v h).valuesOf b = placeAfter t.func v h (t.valuesOf b) := by
  by_cases hcur : t.current = some b
  · rw [withStore, if_pos hcur, valuesOf_current hcur]
    exact valuesOf_current hcur
  · rw [valuesOf_other hcur] at hv ⊢
    rw [withStore, if_neg hcur, Outline.valuesOf, if_neg hcur, block_modifyBlock_self _ _ (lt_of_mem_values hv)]

theorem relists_withStore (hspans : t.func.Spans) (hnone : t.homes.lookup v = none)
    (hnew : f.values.size ≤ h) (hsplit : t.valuesOf b = front ++ back)
    (hplace : (t.withStore b v h).valuesOf b = front ++ h :: back) : t.Relists (t.withStore b v h) f b := by
  have hmembers : ∀ u ∈ t.valuesOf b, u ∈ (t.withStore b v h).valuesOf b := by
    intro u hu
    rw [hsplit, mem_append] at hu
    rw [hplace, mem_append]
    exact hu.imp_right (mem_cons_of_mem h)
  have horiginals : ((t.withStore b v h).valuesOf b).filter (· < f.values.size) =
      (t.valuesOf b).filter (· < f.values.size) := by
    rw [hplace, hsplit, filter_append, filter_append, filter_cons_of_neg (by simpa using hnew)]
  have hhome : ∀ u k, t.homes.lookup u = some k → ((v, h) :: t.homes).lookup u = some k := by
    intro u k hk
    rw [lookup_cons]
    split
    · rename_i heq
      rw [beq_iff_eq.mp heq, hnone] at hk
      cases hk
    · exact hk
  -- the list is in `out` for the block at hand, and in the function for any other
  by_cases hcur : t.current = some b
  · rw [withStore, if_pos hcur] at hmembers horiginals ⊢
    exact
      { value := fun _ => rfl
        args := fun _ => rfl
        size := rfl
        spans := hspans
        graph := .refl _
        control := fun _ => rfl
        current := rfl
        endStates := rfl
        spillSize := rfl
        block := fun _ _ => rfl
        out := fun hne => absurd hcur hne
        members := hmembers
        originals := fun _ => horiginals
        home := hhome
        locals := rfl }
  · rw [withStore, if_neg hcur] at hmembers horiginals ⊢
    refine
      { value := fun _ => rfl
        args := fun _ => rfl
        size := rfl
        spans := hspans.modifyBlock b _
        graph := .modifyBlock _ b _ (fun _ => rfl) (fun _ => rfl) fun _ => rfl
        control := fun b' => ?_
        current := rfl
        endStates := rfl
        spillSize := rfl
        block := fun b' hb' => block_modifyBlock_other _ _ ?_
        out := fun _ => rfl
        members := hmembers
        originals := fun _ => horiginals
        home := hhome
        locals := rfl }
    · rw [block_modifyBlock]
      split <;> rfl
    · rintro rfl
      exact hb'.elim (fun hne => hne rfl) hcur

theorem homes_withStore (t : Outline) (b : BlockId) (v h : ValueId) :
    (t.withStore b v h).homes = (v, h) :: t.homes := by
  rw [withStore]
  split <;> rfl

theorem stop_withStore (t : Outline) (b b' : BlockId) (v h : ValueId) (P : Claims) :
    (t.withStore b v h).stop P b' = t.stop P b' := by
  rw [withStore]
  split <;> rfl

/-- Where a store goes: after the leading values, or right after the value. -/
theorem Consistent.store_place (hf : f.SsaForm) (ht : Consistent c allowed f vis P t) (hb : b ∈ vis)
    (hv : v ∈ t.valuesOf b) (h : ValueId) {rest : List ValueId} (hvals : t.valuesOf b = f.leading b ++ rest)
    (hrest : ∀ u ∈ rest, (t.func.value u).op.isLeading = false) : ∃ front back, t.valuesOf b = front ++ back ∧
      (t.withStore b v h).valuesOf b = front ++ h :: back ∧
      (v ∈ f.leading b ∧ front = f.leading b ∧ back = rest ∨
        ∃ ws, front = f.leading b ++ (ws ++ [v]) ∧ rest = ws ++ v :: back) := by
  rw [valuesOf_withStore hv]
  by_cases hvlead : v ∈ f.leading b
  · have hlead : ∀ u ∈ f.leading b, (t.func.value u).op.isLeading := by
      intro u hu
      rw [(ht.kin u (hf.placed b u (mem_values_of_mem_leading hu)).1).op]
      exact isLeading_of_mem_leading hu
    refine ⟨f.leading b, rest, hvals, ?_, .inl ⟨hvlead, rfl, rfl⟩⟩
    rw [hvals]
    exact placeAfter_leading (hlead v hvlead) hlead hrest
  · have hmem := hv
    rw [hvals, mem_append] at hmem
    obtain ⟨ws, post, hsplit⟩ := append_of_mem (hmem.resolve_left hvlead)
    have hfirst := not_mem_of_split (ht.visited b hb).nodup (by
      rw [hvals, hsplit, append_assoc])
    refine ⟨f.leading b ++ (ws ++ [v]), post, ?_, ?_, .inr ⟨ws, rfl, hsplit⟩⟩
    · rw [hvals, hsplit]
      simp
    · rw [hvals, hsplit, ← append_assoc, placeAfter_inner ?_ hfirst]
      · simp
      · exact hrest v (by rw [hsplit]; simp)

theorem Consistent.withStore {slot : StackSlot} (hf : f.SsaForm) (ht : Consistent c allowed f vis P t)
    (hb : b ∈ vis) (hv : v ∈ t.valuesOf b) (hlt : v < f.values.size) (hregs : t.func.regsOf v ≠ [])
    (hnone : t.homes.lookup v = none) (hnew : f.values.size ≤ h) (hh : h < t.func.values.size)
    (hblock : (t.func.value h).block = b) (hnot : h ∉ t.valuesOf b)
    (hop : (t.func.value h).op = .storeReg) (hargs : t.func.args h = [v])
    (hty : (t.func.value h).ty = (f.value v).ty) (hloc : (t.func.value h).loc = some (.stack slot)) :
    Consistent c allowed f vis P (t.withStore b v h) ∧ t.Relists (t.withStore b v h) f b ∧
      (∀ u ∈ (t.withStore b v h).valuesOf b, u ∈ t.valuesOf b ∨ u = h) ∧
      ((t.withStore b v h).valuesOf b).filter (· < f.values.size) = (t.valuesOf b).filter (· < f.values.size) := by
  have hold := ht.visited b hb
  obtain ⟨S, rest, hvals, hstart, hsteps⟩ := hold.route
  obtain ⟨front, back, hsplit, hplace, hshape⟩ := ht.store_place hf hb hv h hvals hsteps.not_leading
  have hr := relists_withStore ht.spans hnone hnew hsplit hplace
  have hstore : ((t.withStore b v h).draft f).home? v = some h := by
    change (t.withStore b v h).homes.lookup v = some h
    rw [homes_withStore, lookup_cons_self]
  have hmem := mem_iff_append.mpr ⟨_, _, hplace⟩
  have hsteps' := hsteps.extend hr.extends_draft fun _ _ => trivial
  have hregs' : ((t.withStore b v h).draft f).func.regsOf v = t.func.regsOf v :=
    Draft.regsOf_eq_of_loc (by rw [← hr.value v]; rfl)
  have hop' := (congrArg Value.op (hr.value h)).trans hop
  have hargs' := (hr.args h).trans hargs
  have hloc' := (congrArg Value.loc (hr.value h)).trans hloc
  have hmembers : ∀ u ∈ (t.withStore b v h).valuesOf b, u ∈ t.valuesOf b ∨ u = h := by
    intro u hu
    rw [hplace, mem_append, mem_cons, or_left_comm, ← mem_append, ← hsplit] at hu
    exact hu.symm
  refine ⟨ht.relist hr hb (.inr rfl) ⟨?_, ?_, ?_, ?_⟩ ?_, hr, hmembers, ?_⟩
  · rw [hplace]
    refine nodup_middle.mpr (nodup_cons.mpr ⟨?_, ?_⟩)
    · rwa [← hsplit]
    · rw [← hsplit]
      exact hold.nodup
  · intro u hu
    rw [hplace, mem_append, mem_cons, or_left_comm, ← mem_append, ← hsplit] at hu
    rw [hr.value, hr.size]
    rcases hu with rfl | hu
    · exact ⟨hh, hblock⟩
    · exact hold.placed u hu
  · intro u hu hsmall
    rw [hplace, mem_append, mem_cons, or_left_comm, ← mem_append, ← hsplit] at hu
    rcases hu with rfl | hu
    · exact absurd hsmall (not_lt.mpr hnew)
    · exact hold.listed u hu hsmall
  · rw [stop_withStore]
    rcases hshape with ⟨hvlead, hfront, hback⟩ | ⟨ws, hfront, hrest⟩
    · refine ⟨S, h :: rest, ?_, hstart.relist hr, ?_⟩
      · rw [hplace, hfront, hback]
      · exact hsteps'.cons_store ((hstart.held v hvlead hregs).extend hr.extends_draft) hvlead hnew
          hop' hargs' hstore hloc'
    · refine ⟨S, ws ++ v :: h :: back, ?_, hstart.relist hr, ?_⟩
      · rw [hplace, hfront]
        simp
      · rw [hrest] at hsteps'
        refine hsteps'.insert_store hlt ?_ ?_ hnew hop' hargs' hstore hloc'
        · rw [hregs']
          exact hregs
        · rw [hregs']
          exact ht.tidy.nodup v
  · intro u k hk hne
    rw [homes_withStore, lookup_cons] at hk
    split at hk
    · rename_i heq
      rw [Option.some_inj] at hk
      subst hk
      have huv := beq_iff_eq.mp heq
      subst huv
      have hfb : (f.value u).block = b := by
        rw [← (ht.kin u hlt).block]
        exact (hold.placed u hv).2
      refine ⟨hlt, .inr ⟨hnew, hop', hargs', ?_, ⟨slot, hloc'⟩, hfb ▸ hb, hfb ▸ hmem⟩⟩
      rw [hr.value]
      exact hty
    · exact absurd hk hne
  · rw [hplace, hsplit, filter_append, filter_append, filter_cons_of_neg (by simpa using hnew)]

end SsaCodegen.Outline
