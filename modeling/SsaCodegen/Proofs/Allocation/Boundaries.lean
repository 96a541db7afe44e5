import SsaCodegen.Proofs.Allocation.Changes

/-! Where blocks start and end. -/

namespace SsaCodegen.Outline

open List

variable {c : Setting} {allowed : RegSet} {f : Func} {vis : List BlockId} {P Q S : Claims}
  {t t' : Outline} {b : BlockId} {u v w h : ValueId} {control : Option ValueId}
  {current : Option BlockId} {out : List ValueId}

def turnTo (t : Outline) (current : Option BlockId) (out : List ValueId) : Outline :=
  { t with current, out }

theorem valuesOf_turnTo (out : List ValueId) (hold : t.current ≠ some b) (hnew : current ≠ some b) :
    (t.turnTo current out).valuesOf b = t.valuesOf b := by
  rw [valuesOf_other hold]
  exact valuesOf_other hnew

theorem Visited.turnTo (h : t.Visited f b P) (hold : t.current ≠ some b) (hnew : current ≠ some b) :
    (t.turnTo current out).Visited f b P := by
  have hvals := valuesOf_turnTo out hold hnew
  obtain ⟨S, rest, hroute, hstart, hsteps⟩ := h.route
  refine ⟨hvals ▸ h.nodup, hvals ▸ h.placed, hvals ▸ h.listed, S, rest, hvals.trans hroute, ?_, hsteps⟩
  exact ⟨hstart.held, hstart.located, hstart.source⟩

theorem Consistent.turnTo (ht : Consistent c allowed f vis P t) (hold : ∀ d ∈ vis, t.current ≠ some d)
    (hnew : ∀ d ∈ vis, current ≠ some d) : Consistent c allowed f vis Q (t.turnTo current out) where
  graph := ht.graph
  spans := ht.spans
  size_le := ht.size_le
  kin := ht.kin
  tidy := ht.tidy
  homes v h hh := by
    obtain ⟨hv, hself | ⟨hle, hop, hargs, hty, hslot, hvis, hmem⟩⟩ := ht.homes v h hh
    · exact ⟨hv, .inl hself⟩
    · refine ⟨hv, .inr ⟨hle, hop, hargs, hty, hslot, hvis, ?_⟩⟩
      rw [valuesOf_turnTo out (hold _ hvis) (hnew _ hvis)]
      exact hmem
  todo d hd := by
    refine ht.todo d (.inl (hd.elim id fun hcur hvis => hnew d hvis hcur))
  ends := ht.ends
  ended d hd := ⟨(ht.ended d hd).1, hnew d (ht.ended d hd).1⟩
  keys := ht.keys
  visited d hd := by
    have h := ht.visited d hd
    rw [stop_other (hold d hd)] at h
    rw [stop_other (hnew d hd)]
    exact h.turnTo (hold d hd) (hnew d hd)
  closed d hd _ := by
    have h := ht.closed d hd (hold d hd)
    have hvals := valuesOf_turnTo out (hold d hd) (hnew d hd)
    refine ⟨hvals ▸ h.all, h.branch, h.plain, hvals ▸ h.ret, h.founded.whole, fun r o ho => ?_⟩
    obtain ⟨hlt, e, he, hmem⟩ := h.founded.placed r o ho
    exact ⟨hlt, e, he, by rw [valuesOf_turnTo out (hold e he) (hnew e he)]; exact hmem⟩
  locals := ht.locals

theorem Onward.turnTo (h : t.Onward t' f) (out : List ValueId) :
    (t.turnTo t.current out).Onward (t'.turnTo t'.current out) f := by
  have hvals : ∀ d, ((t.turnTo t.current out).valuesOf d = out ∧ (t'.turnTo t'.current out).valuesOf d = out) ∨
      ((t.turnTo t.current out).valuesOf d = t.valuesOf d ∧
        (t'.turnTo t'.current out).valuesOf d = t'.valuesOf d) := by
    intro d
    by_cases hcur : t.current = some d
    · exact .inl ⟨valuesOf_current hcur, valuesOf_current (h.current.trans hcur)⟩
    · have hcur' : t'.current ≠ some d := fun heq => hcur (h.current.symm.trans heq)
      exact .inr ⟨valuesOf_turnTo out hcur hcur, valuesOf_turnTo out hcur' hcur'⟩
  refine ⟨h.size_le, h.agrees, h.home, h.current, h.endStates, ?_, ?_, ?_⟩
  · intro d v hv
    rcases hvals d with ⟨h1, h2⟩ | ⟨h1, h2⟩
    · rwa [h1, ← h2] at hv
    · rw [h1] at hv
      rw [h2]
      exact h.members d v hv
  · intro d v hv
    rcases hvals d with ⟨h1, h2⟩ | ⟨h1, h2⟩
    · rw [h2] at hv
      rw [h1]
      exact .inl hv
    · rw [h2] at hv
      rw [h1]
      exact h.added d v hv
  · intro d
    rcases hvals d with ⟨h1, h2⟩ | ⟨h1, h2⟩
    · rw [h1, h2]
    · rw [h1, h2]
      exact h.originals d

theorem Founded.mono {vis' : List BlockId} (h : t.Founded f vis P) (hvis : ∀ d ∈ vis, d ∈ vis') :
    t.Founded f vis' P := by
  refine ⟨h.whole, fun r o ho => ?_⟩
  obtain ⟨hlt, d, hd, hmem⟩ := h.placed r o ho
  exact ⟨hlt, d, hvis d hd, hmem⟩

theorem Consistent.enter (hf : f.SsaForm) (ht : Consistent c allowed f vis Q t)
    (hcur : t.current = some b) (hb : b ∉ vis) (hout : t.out = f.leading b)
    (hstart : t.StartsWith f b S) (hP : P.Within S) : Consistent c allowed f (vis ++ [b]) P t := by
  have hold : ∀ d ∈ vis, t.current ≠ some d := by
    rintro d hd heq
    rw [hcur, Option.some_inj] at heq
    exact hb (heq ▸ hd)
  have hsub : ∀ d ∈ vis, d ∈ vis ++ [b] := fun d => mem_append_left _
  refine ⟨ht.graph, ht.spans, ht.size_le, ht.kin, ht.tidy, ?_, ?_, ht.ends, ?_, ht.keys, ?_, ?_, ht.locals⟩
  · intro v h hh
    obtain ⟨hv, hself | ⟨hle, hop, hargs, hty, hslot, hvis, hmem⟩⟩ := ht.homes v h hh
    · exact ⟨hv, .inl hself⟩
    · exact ⟨hv, .inr ⟨hle, hop, hargs, hty, hslot, hsub _ hvis, hmem⟩⟩
  · intro d hd
    refine ht.todo d (hd.imp_left fun hnot hmem => hnot (hsub d hmem))
  · exact fun d hd => ⟨hsub d (ht.ended d hd).1, (ht.ended d hd).2⟩
  · intro d hd
    rcases mem_append.mp hd with hd | hd
    · have h := ht.visited d hd
      rw [stop_other (hold d hd)] at h ⊢
      exact h
    · obtain rfl := mem_singleton.mp hd
      rw [stop_current hcur]
      have hvals := (valuesOf_current hcur).trans hout
      refine ⟨?_, ?_, ?_, S, [], ?_, hstart, hP⟩
      · rw [hvals]
        exact (hf.nodup d).sublist (takeWhile_sublist _)
      · intro v hv
        rw [hvals] at hv
        obtain ⟨hlt, hblock⟩ := hf.placed d v (Func.mem_values_of_mem_leading hv)
        exact ⟨hlt.trans_le ht.size_le, (ht.kin v hlt).block.trans hblock⟩
      · intro v hv _
        rw [hvals] at hv
        exact Func.mem_values_of_mem_leading hv
      · rw [hvals, append_nil]
  · intro d hd hne
    rcases mem_append.mp hd with hd | hd
    · have h := ht.closed d hd hne
      exact ⟨h.all, h.branch, h.plain, h.ret, h.founded.mono hsub⟩
    · exact absurd hcur (mem_singleton.mp hd ▸ hne)

/-- The block at hand is done, with `P` in its registers. -/
structure Finishes (t t' : Outline) (b : BlockId) (control : Option ValueId) (P : Claims) : Prop where
  values : t'.func.values = t.func.values
  operands : t'.func.operands = t.func.operands
  graph : t.func.SameGraph t'.func
  block : ∀ d, d ≠ b → t'.func.block d = t.func.block d
  values_self : (t'.func.block b).values = t.out
  control_self : (t'.func.block b).control = control
  homes : t'.homes = t.homes
  spillSize : t'.spillSize = t.spillSize
  locals : t'.func.locals = t.func.locals
  current : t'.current = none
  ends : t'.endStates.size = t.endStates.size
  endStates : ∀ d, d ≠ b → t'.endStates.getD d none = t.endStates.getD d none
  atEnd_self : t'.atEnd b = P
  keys_self : ∀ state, t'.endStates.getD b none = some state → (state.map Prod.fst).Nodup

namespace Finishes

theorem value (h : t.Finishes t' b control P) (v : ValueId) : t'.func.value v = t.func.value v := by
  rw [Func.value, Func.value, h.values]

theorem args (h : t.Finishes t' b control P) (v : ValueId) : t'.func.args v = t.func.args v := by
  rw [Func.args, Func.args, h.value, h.operands]

theorem valuesOf (h : t.Finishes t' b control P) (hcur : t.current = some b) (d : BlockId) :
    t'.valuesOf d = t.valuesOf d := by
  rw [valuesOf_other (by rw [h.current]; exact nofun)]
  by_cases hd : d = b
  · rw [hd, h.values_self, valuesOf_current hcur]
  · rw [h.block d hd, valuesOf_other]
    exact fun heq => hd (Option.some.inj (heq.symm.trans hcur))

theorem atEnd (h : t.Finishes t' b control P) {d : BlockId} (hd : d ≠ b) : t'.atEnd d = t.atEnd d := by
  unfold Outline.atEnd
  rw [h.endStates d hd]

theorem extends_draft (h : t.Finishes t' b control P) : (t.draft f).Extends (t'.draft f) fun _ => True where
  source := rfl
  agrees v _ := by
    have hv : (t'.draft f).func.value v = (t.draft f).func.value v := h.value v
    refine ⟨⟨?_, ?_, ?_, ?_⟩, ?_, h.args v⟩ <;> rw [hv]
  loc v l hl := by
    have hv : (t'.draft f).func.value v = (t.draft f).func.value v := h.value v
    rw [hv]
    exact hl
  home u k hk := by
    change t'.homes.lookup u = some k
    rw [h.homes]
    exact hk

end Finishes

/-- At the end of a block its values are listed, and its claims are those at its end. -/
theorem Consistent.finish (ht : Consistent c allowed f vis P t) (hfin : t.Finishes t' b control P)
    (hcur : t.current = some b) (hb : b ∈ vis)
    (hout : t.out.filter (· < f.values.size) = (f.block b).values) (hfounded : t.Founded f vis P)
    (hbranch : (f.block b).kind = .branch → ∃ u a, (f.block b).control = some u ∧
      control = some a ∧ (t.draft f).Held P u a)
    (hplain : (f.block b).kind ≠ .branch → control = (f.block b).control)
    (hret : ∀ v, (f.block b).kind = .ret → (f.block b).control = some v →
      (t.draft f).Renames v ((t.draft f).AtHand b t.out P)) : Consistent c allowed f vis Q t' := by
  have hvals := hfin.valuesOf hcur
  have hd := hfin.extends_draft (f := f)
  have hnone : ∀ d, t'.current ≠ some d := by
    rw [hfin.current]
    exact nofun
  have hended : ∀ d, t.endStates.getD d none ≠ none → d ≠ b := by
    rintro d hd rfl
    exact (ht.ended d hd).2 hcur
  refine ⟨ht.graph.trans hfin.graph, ?_, ?_, ?_, ?_, ?_, ?_, hfin.ends.trans ht.ends, ?_, ?_, ?_, ?_,
    hfin.locals.trans ht.locals⟩
  · exact ht.spans.congr (by rw [hfin.values]) (fun v => by rw [hfin.value]) (by rw [hfin.operands])
  · rw [hfin.values]
    exact ht.size_le
  · intro v hv
    obtain ⟨hop, hty, hpayload, hblock⟩ := ht.kin v hv
    refine ⟨?_, ?_, ?_, ?_⟩ <;> rw [hfin.value] <;> assumption
  · refine ht.tidy.mono hfin.spillSize.symm.le fun v l hl => ?_
    rw [hfin.value] at hl
    refine ⟨hl, ?_, ?_, ?_, ?_⟩ <;> rw [hfin.value]
  · intro v h hh
    rw [hfin.homes] at hh
    rw [HomeFits, hfin.value, hfin.value, hfin.args, hvals]
    exact ht.homes v h hh
  · intro d hd
    have hnot := hd.resolve_right (hnone d)
    rw [hfin.block d fun heq => hnot (heq ▸ hb)]
    exact ht.todo d (.inl hnot)
  · intro d hd
    refine ⟨?_, hnone d⟩
    by_cases hdb : d = b
    · exact hdb ▸ hb
    · rw [hfin.endStates d hdb] at hd
      exact (ht.ended d hd).1
  · intro d state hstate
    by_cases hdb : d = b
    · exact hfin.keys_self state (hdb ▸ hstate)
    · exact ht.keys d state (hfin.endStates d hdb ▸ hstate)
  · intro d hdvis
    have hstop : t'.stop Q d = t.stop P d := by
      rw [stop_other (hnone d)]
      by_cases hdb : d = b
      · rw [hdb, stop_current hcur, hfin.atEnd_self]
      · rw [hfin.atEnd hdb, stop_other]
        exact fun heq => hdb (Option.some.inj (heq.symm.trans hcur))
    obtain ⟨nodup, placed, listed, S, rest, hroute, hstart, hsteps⟩ := ht.visited d hdvis
    rw [hstop]
    refine ⟨?_, ?_, ?_, S, rest, (hvals d).trans hroute, ?_, hsteps.extend hd fun _ _ => trivial⟩
    · rwa [hvals]
    · intro v hv
      rw [hvals] at hv
      rw [hfin.value, hfin.values]
      exact placed v hv
    · rwa [hvals]
    · exact hstart.extend hd (fun v _ => by rw [hfin.value]) fun p hp => hfin.endStates p (hended p hp)
  · intro d hdvis _
    have hfounded' : ∀ R, t.Founded f vis R → t'.Founded f vis R := fun R hR =>
      hR.extend hd fun e _ v hv => (hvals e).symm ▸ hv
    by_cases hdb : d = b
    · subst hdb
      refine ⟨?_, ?_, ?_, ?_, ?_⟩
      · rw [hvals, valuesOf_current hcur]
        exact hout
      · intro hk
        obtain ⟨u, a, hu, ha, hheld⟩ := hbranch hk
        rw [hfin.control_self, hfin.atEnd_self]
        exact ⟨u, a, hu, ha, hheld.extend hd⟩
      · rw [hfin.control_self]
        exact hplain
      · intro v hk hv
        refine (hret v hk hv).extend rfl (hfin.args v) fun a a' ha => ?_
        rw [hvals, hfin.atEnd_self, valuesOf_current hcur]
        exact ha.extend hd
      · rw [hfin.atEnd_self]
        exact hfounded' P hfounded
    · have hclosed := ht.closed d hdvis fun heq => hdb (Option.some.inj (heq.symm.trans hcur))
      refine ⟨?_, ?_, ?_, ?_, ?_⟩
      · rw [hvals]
        exact hclosed.all
      · intro hk
        obtain ⟨u, a, hu, ha, hheld⟩ := hclosed.branch hk
        rw [hfin.block d hdb, hfin.atEnd hdb]
        exact ⟨u, a, hu, ha, hheld.extend hd⟩
      · rw [hfin.block d hdb]
        exact hclosed.plain
      · intro v hk hv
        refine (hclosed.ret v hk hv).extend rfl (hfin.args v) fun a a' ha => ?_
        rw [hvals, hfin.atEnd hdb]
        exact ha.extend hd
      · rw [hfin.atEnd hdb]
        exact hfounded' _ hclosed.founded

theorem Untouched.finish {busy : Option ValueId} (ht : t.Untouched f vis busy) (hf : f.SsaForm)
    (hfin : t.Finishes t' b control P) (hcur : t.current = some b) (hb : b ∈ vis)
    (hbusy : ∀ v, some v = busy → (f.block b).kind = .ret ∧ (f.block b).control = some v) :
    t'.Untouched f vis none where
  loc v hv hnot := by
    rw [hfin.value]
    exact ht.loc v hv fun d hd hmem => hnot d hd ((hfin.valuesOf hcur d).symm ▸ hmem)
  args v hv _ hret hcase := by
    rw [hfin.args]
    refine ht.args v hv (fun heq => ?_) hret (hcase.imp_right fun hnot d hd hmem =>
      hnot d hd ((hfin.valuesOf hcur d).symm ▸ hmem))
    exact hret b (hbusy v heq).1 (hbusy v heq).2
  rets d v hd hk hv _ := by
    have hnot := hd.resolve_right (by rw [hfin.current]; exact nofun)
    rw [hfin.args]
    refine ht.rets d v (.inl hnot) hk hv fun heq => ?_
    obtain ⟨hk', hv'⟩ := hbusy v heq
    exact hnot ((hf.ret_block hk hv).symm.trans (hf.ret_block hk' hv') ▸ hb)

end SsaCodegen.Outline
