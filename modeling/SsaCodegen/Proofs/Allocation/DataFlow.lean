import SsaCodegen.Proofs.Allocation.Simulation

/-! Register allocation keeps data flow: the claims at the start of a block are true on every walk that comes
there. -/

namespace SsaCodegen

open List Func Contents Option Signature

namespace Setting.Resolved

variable {c : Setting} {allowed : RegSet} {f : Func} {moves : Array (List WordMove)} {t : Outline}
  {b q : BlockId} {rest : List BlockId} {pre post ws : List ValueId} {P S : Claims}
  {u v w a p x : ValueId} {tok : Token} {l : WordLoc} {k : Nat}

section Start

variable (h : Resolved c allowed f moves t) (hf : f.Prepared c.types) (hsig : of c.types f = .ok c.signature)

include h hf hsig

omit hsig in
theorem imm_not_mem_leading (hv : v ∈ f.leading b) (k : Int) : WordLoc.imm k ∉ t.func.wordLocs c.types v := by
  intro hk
  have hlt := (hf.ssa.placed b v (mem_values_of_mem_leading hv)).1
  have hop := (h.consistent.tidy.const v k (imm_mem_wordLocs.mp hk)).1
  have hlead := isLeading_of_mem_leading hv
  rw [(h.consistent.kin v hlt).op] at hop
  rw [hop] at hlead
  cases hlead

theorem leading_apart (hS : t.StartsWith f b S) (hv : v ∈ f.leading b) (hw : w ∈ f.leading b)
    (hne : v ≠ w) (hl : l ∈ t.func.wordLocs c.types v) : l ∉ t.func.wordLocs c.types w := by
  intro hl'
  have hclaim : ∀ x ∈ f.leading b, (t.draft f).Claimed S x := fun x hx hregs => ⟨x, hS.held x hx hregs⟩
  have hplaced : ∀ x ∈ f.leading b, x ∈ (t.func.block b).values := fun x hx =>
    h.mem_values hf.ssa (mem_values_of_mem_leading hx)
  obtain ⟨k, rfl⟩ := h.words_apart hf hsig (hplaced v hv) (hplaced w hw) hne
    (fun r hr hr' => hne ((hclaim v hv).unique (hclaim w hw) hr hr')) hl hl'
  exact h.imm_not_mem_leading hf hv k hl

theorem contents_inputs (hS : t.StartsWith f f.entry S) : ∀ (vs ws : List ValueId),
    f.leading f.entry = vs ++ ws → (∀ v ∈ vs, ∀ (p : Nat) l, (t.func.wordLocs c.types v)[p]? = some l →
      t.func.contentsPast c.types moves [] vs l = some (f.datum (v, 0) p)) ∧
    ∀ k, t.func.contentsPast c.types moves [] vs (.imm k) = some (.const k) := by
  intro vs
  induction vs using List.reverseRecOn with
  | nil => exact fun _ _ => ⟨nofun, fun _ => rfl⟩
  | append_singleton vs w ih =>
    intro ws hlead
    rw [append_assoc] at hlead
    obtain ⟨hwords, himm⟩ := ih ([w] ++ ws) hlead
    have hmem : ∀ x ∈ vs ++ [w], x ∈ f.leading f.entry := by
      intro x hx
      rw [hlead, ← append_assoc]
      exact mem_append_left ws hx
    have hw := hmem w (by simp)
    have hwb := mem_values_of_mem_leading hw
    have hphi := no_phi_of_preds hf.ssa (by rw [hf.ssa.flow.entry_preds]; exact Nat.zero_le 1) hwb
    obtain ⟨σ, hrun, -, hsame⟩ := h.execute_source hf hwb (.inr hphi) 0 (t.func.contentsPast c.types moves [] vs)
    have hcall : (f.value w).op ≠ .call := by
      intro hop
      have hlead := isLeading_of_mem_leading hw
      rw [hop] at hlead
      cases hlead
    rw [hsame hcall] at hrun
    have hrun := (contentsPast_snoc ..).trans hrun
    rw [hrun]
    refine ⟨fun v hv p l hl => ?_, fun k => ?_⟩
    · by_cases hvw : v = w
      · subst hvw
        exact write_of_getElem? (h.wordLocs_nodup v) hl
      · have hv' := (mem_append.mp hv).resolve_right fun hmem => hvw (mem_singleton.mp hmem)
        rw [write_of_not_mem (h.leading_apart hf hsig hS (hmem v hv) hw hvw (mem_of_getElem? hl))]
        exact hwords v hv' p l hl
    · rw [write_of_not_mem (h.imm_not_mem_leading hf hw k)]
      exact himm k

omit h hsig in
theorem filter_leading (b : BlockId) : (f.leading b).filter (· < f.values.size) = f.leading b :=
  filter_eq_self.mpr fun v hv => decide_eq_true (hf.ssa.placed b v (mem_values_of_mem_leading hv)).1

theorem mirrors_entry (hS : t.StartsWith f f.entry S) :
    Mirrors c.types moves f t [] f.entry (f.leading f.entry) S := by
  obtain ⟨hwords, himm⟩ := h.contents_inputs hf hsig hS (f.leading f.entry) [] (by simp)
  -- only inputs have tokens
  have htoken : ∀ u tok, f.tokensPast [] f.entry (f.leading f.entry) u = some tok →
      u ∈ f.leading f.entry ∧ tok = (u, 0) := by
    intro u tok htok
    rw [tokensPast, foldl_giveToken] at htok
    split at htok
    · next hu => exact ⟨hu.1, (some.inj htok).symm⟩
    · rw [mergeTokens] at htok
      split at htok
      · cases htok
      · cases htok
  refine ⟨fun u a tok hheld htok p r hr => ?_, fun u a tok hstored htok p l hl => ?_, himm⟩
  · rw [filter_leading hf] at htok
    obtain ⟨hu, rfl⟩ := htoken u tok htok
    have ha : a = u := by
      rcases hS.source with hown | ⟨q, hq, -⟩
      · exact (hown r _ (hheld.2 p r hr)).1
      · rw [hf.ssa.flow.entry_preds] at hq
        cases hq
    subst ha
    refine hwords a hu p _ ?_
    rw [wordLocs_of_regs (f := t.func) hheld.1, getElem?_map, hr]
    rfl
  · rw [filter_leading hf] at htok
    obtain ⟨hu, rfl⟩ := htoken u tok htok
    have ha := hstored.2 (mem_values_of_mem_leading hu)
    obtain rfl := h.home_self hstored.1 (hf.ssa.placed _ a (mem_values_of_mem_leading ha)).1
    exact hwords a hu p l hl

omit hf hsig in
theorem words_of_atHand (hm : Mirrors c.types moves f t rest b pre P) (hhand : (t.draft f).AtHand b pre P u a)
    (htok : f.tokensPast rest b (pre.filter (· < f.values.size)) u = some tok) :
    t.func.wordLocs c.types a ≠ [] ∧ ∀ (p : Nat) l, (t.func.wordLocs c.types a)[p]? = some l →
      t.func.contentsPast c.types moves rest pre l = some (f.datum tok p) := by
  rcases hhand with hheld | hstored
  · have hwords : t.func.wordLocs c.types a = (t.func.regsOf a).map WordLoc.reg := wordLocs_of_regs hheld.1
    rw [hwords]
    refine ⟨fun hnil => hheld.1 (map_eq_nil_iff.mp hnil), fun p l hl => ?_⟩
    rw [getElem?_map, map_eq_some_iff] at hl
    obtain ⟨r, hr, rfl⟩ := hl
    exact hm.held u a tok hheld htok p r hr
  · exact ⟨(h.words_home hstored.1).1, hm.stored u a tok hstored htok⟩

end Start

section Edge

variable (h : Resolved c allowed f moves t) (hf : f.Prepared c.types)
  (hsig : of c.types f = .ok c.signature) (hedge : b ∈ (f.block q).succs)
  (hm : Mirrors c.types moves f t rest q (t.func.block q).values (t.atEnd q))

include hf hedge

theorem phi_of_leading (hv : v ∈ f.leading b) : (f.value v).op = .phi := by
  by_contra hop
  have hentry := hf.inputs b v hv hop
  have hpred := hf.ssa.flow.edge.mp hedge
  rw [hentry, hf.ssa.flow.entry_preds] at hpred
  cases hpred

include h

theorem contents_leading (rest : List BlockId) : t.func.contentsPast c.types moves (q :: rest) (f.leading b) =
      (t.func.contentsPast c.types moves rest (t.func.block q).values).moveAll (t.func.edgeCopies c.types q b) := by
  have hphis : ∀ vs : List ValueId, (∀ v ∈ vs, v ∈ f.leading b) → ∀ σ n,
      vs.foldl (t.func.execute c.types n) σ = σ := by
    intro vs
    induction vs with
    | nil => exact fun _ _ _ => rfl
    | cons v vs ih =>
      intro hvs σ n
      obtain ⟨hv, hvs⟩ := forall_mem_cons.mp hvs
      have hlt := (hf.ssa.placed b v (mem_values_of_mem_leading hv)).1
      have hop : (t.func.value v).op = .phi := by
        rw [(h.consistent.kin v hlt).op]
        exact phi_of_leading hf hedge hv
      rw [foldl_cons, execute_of_phi hop]
      exact ih hvs σ n
  rw [contentsPast, hphis _ (fun _ hv => hv), contents_cons, h.moves_of_edge hf hedge]

omit hf hedge in
theorem tokens_end (hf : f.SsaForm) (hq : q < f.blocks.size) (rest : List BlockId) :
    f.tokensPast rest q ((t.func.block q).values.filter (· < f.values.size)) = f.tokens (q :: rest) := by
  rw [h.originals hf hq, tokens_cons]

include hsig hm

theorem home_past_copies (hu : u ∉ (f.block b).values) (hhome : t.homes.lookup u = some a)
    (htok : f.tokens (q :: rest) u = some tok) {p : Nat} (hl : (t.func.wordLocs c.types a)[p]? = some l) :
    t.func.contentsPast c.types moves (q :: rest) (f.leading b) l = some (f.datum tok p) := by
  obtain ⟨⟨d, hd⟩, -⟩ := tokens_spec htok
  have hq := lt_of_mem_succs hedge
  have hstored : (t.draft f).Stored q (t.func.block q).values u a :=
    ⟨hhome, fun hu => h.home_placed hf.ssa hhome hu⟩
  rw [h.contents_leading hf hedge, moveAll_of_not_mem]
  · refine hm.stored u a tok hstored ?_ p l hl
    rw [h.tokens_end hf.ssa hq]
    exact htok
  · obtain ⟨k, hk⟩ := mem_iff_getElem?.mp (hf.ssa.flow.edge.mp hedge)
    rintro m hmem rfl
    rw [h.edgeCopies_eq hf.ssa hk] at hmem
    obtain ⟨x, hx, hmem⟩ := mem_flatMap.mp hmem
    obtain ⟨hxb, hxop, -⟩ := mem_placedPhis hx
    have hdst := (h.dst_phiCopies hf hx k).subset (mem_map_of_mem hmem)
    have hax : a ≠ x := by
      rintro rfl
      exact hu (h.home_self hhome (hf.ssa.placed b a hxb).1 ▸ hxb)
    rcases h.home_apart hf hsig hhome hd (h.mem_values hf.ssa hxb) hax (mem_of_getElem? hl)
      with hnot | ⟨i, himm⟩
    · exact hnot hdst
    · rw [himm] at hdst
      have hlead : x ∈ f.leading b := by
        obtain ⟨hx, -⟩ := mem_filter.mp hx
        exact (mem_filter.mp hx).1
      exact h.imm_not_mem_leading hf hlead i hdst

omit hsig in
theorem source_words {src : ValueLoc} (hp : p ∈ f.placedPhis b) (hx : (f.args p)[k]? = some x)
    (hhand : (t.draft f).AtHand q (t.func.block q).values (t.atEnd q) x a)
    (hsrc : (t.func.value a).loc = some src) (htok : f.tokens (q :: rest) x = some tok) :
    ∀ i < c.types.parts (t.func.value p).ty,
      t.func.contentsPast c.types moves rest (t.func.block q).values (src.part i) = some (f.datum tok i) := by
  obtain ⟨hpb, hop, hres⟩ := mem_placedPhis hp
  have hq := lt_of_mem_succs hedge
  rw [← h.tokens_end hf.ssa hq] at htok
  have hty := h.ty_of_fed hf hq hp hx hhand
  obtain ⟨hne, hwords⟩ := h.words_of_atHand hm hhand htok
  intro i hi
  by_cases himm : ∃ k, src = .imm k
  · -- all words of a constant are the same
    obtain ⟨k, rfl⟩ := himm
    have hfirst := hwords 0 (.imm k) (by rw [wordLocs_of_loc hsrc]; rfl)
    rw [hm.imm k, some.injEq] at hfirst
    rw [datum_const hfirst.symm]
    exact hm.imm k
  · rw [← hty] at hi
    have hfit : src.regs ≠ [] → src.regs.length = c.types.parts (t.func.value a).ty := by
      rw [← regsOf_of_loc hsrc]
      exact fun hregs => h.consistent.tidy.width a hregs (Nat.ne_zero_of_lt hi)
    refine hwords i _ ?_
    rw [wordLocs_of_loc hsrc, ValueLoc.words_eq_parts hfit fun k hk => himm ⟨k, hk⟩, getElem?_map, getElem?_range hi]
    rfl

/-- What a phi reads along the edge, and that its own words are the same after the copies. -/
theorem phi_words (hp : p ∈ f.placedPhis b) (hk : (f.block b).preds[k]? = some q)
    (hx : (f.args p)[k]? = some x) (htok : f.tokens (q :: rest) x = some tok) :
    ∀ (i : Nat) l, (t.func.wordLocs c.types p)[i]? = some l →
      t.func.contentsPast c.types moves (q :: rest) (f.leading b) l = some (f.datum tok i) := by
  obtain ⟨hpb, hop, hres⟩ := mem_placedPhis hp
  obtain ⟨q', x', a, hq', hx', ha, hhand, hsrc, hdst⟩ :=
    h.fed q b p k hedge ⟨hp, hf.ssa.flow.predIndex?_eq_some.mpr hk⟩
  rw [(hf.ssa.placed b p hpb).2, hk, some.injEq] at hq'
  rw [hx, some.injEq] at hx'
  subst hq' hx'
  rw [h.valuesOf_eq] at hhand
  obtain ⟨src, hsrc⟩ := ne_none_iff_exists'.mp hsrc
  obtain ⟨dst, hdst⟩ := ne_none_iff_exists'.mp hdst
  have hwords := h.source_words hf hedge hm hp hx hhand hsrc htok
  have hlocs := h.wordLocs_phi hf hpb hop hdst
  have harg : t.func.arg p k = a := by
    rw [arg, getD_eq_getElem?_getD, ha]
    rfl
  intro i l hl
  have hi : i < c.types.parts (t.func.value p).ty := by
    have hlt := (List.getElem?_eq_some_iff.mp hl).1
    rwa [hlocs, length_map, length_range] at hlt
  have hdstEq : l = dst.part i := by
    rw [hlocs, getElem?_map, getElem?_range hi] at hl
    exact (some.inj hl).symm
  rw [h.contents_leading hf hedge, ← hwords i hi]
  by_cases hsame : src.part i = dst.part i
  · -- the word is in place, and no copy goes there
    rw [moveAll_of_not_mem, hdstEq, hsame]
    rintro m hmem rfl
    rw [h.edgeCopies_eq hf.ssa hk] at hmem
    obtain ⟨y, hy, hmem⟩ := mem_flatMap.mp hmem
    by_cases hyp : y = p
    · subst hyp
      rw [phiCopies, harg, hsrc, hdst] at hmem
      obtain ⟨hmem, hdiff⟩ := mem_filter.mp hmem
      obtain ⟨j, hj, rfl⟩ := mem_map.mp hmem
      have hij : i = j := by
        have hnodup := h.wordLocs_nodup y
        rw [hlocs] at hnodup
        exact inj_on_of_nodup_map hnodup (mem_range.mpr hi) hj hdstEq.symm
      subst hij
      exact of_decide_eq_true hdiff hsame
    · have hin := (h.dst_phiCopies hf hy k).subset (mem_map_of_mem hmem)
      exact h.phis_apart hf hsig hy hp hyp hin (mem_of_getElem? hl)
  · have hmem : (⟨src.part i, dst.part i⟩ : WordMove) ∈ t.func.edgeCopies c.types q b := by
      rw [h.edgeCopies_eq hf.ssa hk]
      refine mem_flatMap.mpr ⟨p, hp, ?_⟩
      rw [phiCopies, harg, hsrc, hdst]
      refine mem_filter.mpr ⟨mem_map.mpr ⟨i, mem_range.mpr hi, rfl⟩, ?_⟩
      exact decide_eq_true hsame
    rw [hdstEq]
    exact moveAll_of_mem (h.edgeCopies_nodup hf hsig hedge) hmem

omit hsig hm in
theorem placedPhi_of_leading (hp : p ∈ f.leading b) {l : ValueLoc} (hl : (t.func.value p).loc = some l) :
    p ∈ f.placedPhis b := by
  have hop := phi_of_leading hf hedge hp
  refine mem_filter.mpr ⟨mem_filter.mpr ⟨hp, beq_iff_eq.mpr hop⟩, ?_⟩
  exact (h.hasResult_of_loc hf (mem_values_of_mem_leading hp) hop hl).1

theorem leading_words (hp : v ∈ f.leading b) (htok : f.tokensPast (q :: rest) b (f.leading b) v = some tok) {i : Nat}
    (hl : (t.func.wordLocs c.types v)[i]? = some l) :
    t.func.contentsPast c.types moves (q :: rest) (f.leading b) l = some (f.datum tok i) := by
  have hop := phi_of_leading hf hedge hp
  have hpb := mem_values_of_mem_leading hp
  obtain ⟨k, hk⟩ := mem_iff_getElem?.mp (hf.ssa.flow.edge.mp hedge)
  have hlt : k < (f.args v).length := by
    rw [(hf.ssa.phi_args b v hpb hop).1]
    exact (List.getElem?_eq_some_iff.mp hk).1
  have hx := getElem?_eq_getElem hlt
  rw [tokensPast_of_phi hop, head?_cons, mergeTokens_of_phi hf.ssa.flow hpb hop hk hx] at htok
  have hloc : ∃ l, (t.func.value v).loc = some l := by
    cases hloc : (t.func.value v).loc with
    | none =>
      rw [wordLocs, hloc] at hl
      cases hl
    | some l => exact ⟨l, rfl⟩
  obtain ⟨loc, hloc⟩ := hloc
  exact h.phi_words hf hsig hedge hm (h.placedPhi_of_leading hf hedge hp hloc) hk hx htok i l hl

/-- Along an edge the copies bring to each phi what its operand holds. -/
theorem mirrors_edge (hS : t.StartsWith f b S) : Mirrors c.types moves f t (q :: rest) b (f.leading b) S := by
  have hq := lt_of_mem_succs hedge
  have hlead : ∀ v ∈ f.leading b, v ∈ (f.block b).values := fun v => mem_values_of_mem_leading
  refine ⟨fun u a tok hheld htok p r hr => ?_, fun u a tok hstored htok p l hl => ?_, fun k => ?_⟩
  · rw [filter_leading hf] at htok
    have hword : (t.func.wordLocs c.types a)[p]? = some (.reg r) := by
      rw [wordLocs_of_regs (f := t.func) hheld.1, getElem?_map, hr]
      rfl
    rcases hS.source with hown | ⟨q', hpreds, -, hwithin, hother⟩
    · obtain ⟨hau, hu⟩ := hown r _ (hheld.2 p r hr)
      have hau : a = u := hau
      subst hau
      exact h.leading_words hf hsig hedge hm hu htok hword
    · -- what the only predecessor left in registers
      have hu := hother r _ (hheld.2 p r hr)
      have hpred := hf.ssa.flow.edge.mp hedge
      rw [hpreds, mem_singleton] at hpred
      rw [← hpred] at hwithin
      rw [tokensPast_of_not_mem hlead hu, ← h.tokens_end hf.ssa hq] at htok
      rw [h.contents_leading hf hedge, h.edgeCopies_eq_nil hf.ssa hedge (by rw [hpreds]; exact le_refl 1)]
      exact hm.held u a tok (hheld.mono hwithin) htok p r hr
  · rw [filter_leading hf] at htok
    by_cases hu : u ∈ (f.block b).values
    · have ha := hstored.2 hu
      obtain rfl := h.home_self hstored.1 (hf.ssa.placed b a (hlead a ha)).1
      exact h.leading_words hf hsig hedge hm ha htok hl
    · rw [tokensPast_of_not_mem hlead hu] at htok
      exact h.home_past_copies hf hsig hedge hm hu hstored.1 htok hl
  · rw [h.contents_leading hf hedge, moveAll_of_not_mem]
    · exact hm.imm k
    · rintro m hmem hk
      obtain ⟨j, hj⟩ := mem_iff_getElem?.mp (hf.ssa.flow.edge.mp hedge)
      rw [h.edgeCopies_eq hf.ssa hj] at hmem
      obtain ⟨x, hx, hmem⟩ := mem_flatMap.mp hmem
      have hdst := (h.dst_phiCopies hf hx j).subset (mem_map_of_mem hmem)
      rw [hk] at hdst
      have hlead := (mem_filter.mp (mem_filter.mp hx).1).1
      exact h.imm_not_mem_leading hf hlead k hdst

end Edge

section Walk

variable (h : Resolved c allowed f moves t) (hf : f.Prepared c.types) (hsig : of c.types f = .ok c.signature)

include h hf hsig

/-- The claims along a walk: at the start of its last block, and from there on. -/
theorem mirrors_walk {bs : List BlockId} (htrail : Trail f bs) : ∀ {b : BlockId} {rest : List BlockId},
    bs = b :: rest → ∀ {S : Claims}, t.StartsWith f b S → Mirrors c.types moves f t rest b (f.leading b) S := by
  induction htrail with
  | start =>
    intro b rest hbs S hS
    obtain ⟨rfl, rfl⟩ := List.cons.inj hbs
    exact h.mirrors_entry hf hsig hS
  | @step q d past trail edge ih =>
    intro b rest hbs S hS
    obtain ⟨rfl, rfl⟩ := List.cons.inj hbs
    obtain ⟨T, ws, hpath⟩ := h.path hf.ssa (lt_of_mem_succs edge)
    have hend := h.mirrors_steps hf hsig (ih rfl hpath.start)
      (show _ = f.leading q ++ ws ++ [] by rw [append_nil]; exact hpath.values) hpath.steps
    rw [← hpath.values] at hend
    exact h.mirrors_edge hf hsig edge hend hS

theorem mirrors_end (htrail : Trail f (b :: rest)) :
    Mirrors c.types moves f t rest b (t.func.block b).values (t.atEnd b) := by
  obtain ⟨S, ws, hpath⟩ := h.path hf.ssa (htrail.lt hf.ssa.flow b mem_cons_self)
  have hend := h.mirrors_steps hf hsig (h.mirrors_walk hf hsig htrail rfl hpath.start)
    (show _ = f.leading b ++ ws ++ [] by rw [append_nil]; exact hpath.values) hpath.steps
  rwa [← hpath.values] at hend

omit hf hsig in
theorem holds_of_atHand (hm : Mirrors c.types moves f t rest b pre P)
    (hhand : (t.draft f).AtHand b pre P u a) {token : Option Token} (htok : token = some tok)
    (heq : token = f.tokensPast rest b (pre.filter (· < f.values.size)) u) :
    f.Holds t.func c.types (t.func.contentsPast c.types moves rest pre) token a := by
  obtain ⟨hne, hwords⟩ := h.words_of_atHand hm hhand (heq.symm.trans htok)
  exact ⟨tok, htok, hne, hwords⟩

omit h hf hsig in
theorem renamed_operand {d : Draft} {R : ValueId → ValueId → Prop} (hren : d.Renames v R)
    (hu : (d.source.dataArgs v)[k]? = some u) (hres : (d.source.value u).hasResult) :
    ∃ a, (d.func.args v)[k]? = some a ∧ R u a := by
  have hk := (List.getElem?_eq_some_iff.mp hu).1
  have hu' : (d.source.args v)[k]? = some u := by
    rw [List.prefix_iff_getElem?.mp (d.source.dataArgs_front v) k hk, ← hu, getElem?_eq_getElem hk]
  have hlt : k < (d.func.args v).length := by
    rw [hren.1]
    exact (List.getElem?_eq_some_iff.mp hu').1
  refine ⟨_, getElem?_eq_getElem hlt, ?_⟩
  rcases hren.2 k u _ hu' (getElem?_eq_getElem hlt) with hR | ⟨-, hnone⟩
  · exact hR
  · rw [hnone hk] at hres
    cases hres

theorem holds_operand (htrail : Trail f (b :: rest)) (hvals : (t.func.block b).values = pre ++ v :: post)
    (hv : v < f.values.size) (hop : (f.value v).op ≠ .phi) (hu : (f.dataArgs v)[k]? = some u)
    (hres : (f.value u).hasResult) : ∃ a, (t.func.args v)[k]? = some a ∧
      f.Holds t.func c.types (t.func.contentsPast c.types moves rest pre)
        (f.tokensPast rest b (pre.filter (· < f.values.size)) u) a := by
  have hb := htrail.lt hf.ssa.flow b mem_cons_self
  have hmem := (f.dataArgs_front v).subset (mem_of_getElem? hu)
  obtain ⟨tok, htok⟩ := hf.ssa.exists_tokenPast htrail (h.source_of_front hf.ssa hvals)
    (h.source_before hf.ssa hvals hv hop hmem).1
  obtain ⟨S, ws, hpath⟩ := h.path hf.ssa hb
  have hvs := hpath.values
  rw [hvals] at hvs
  -- the value is none of the inputs, which have no operands
  have hsplit : ∃ ws', pre = f.leading b ++ ws' ∧ ws = ws' ++ v :: post := by
    rcases append_eq_append_iff.mp hvs with ⟨as, hlead, htail⟩ | ⟨cs, hpre, hws⟩
    · cases as with
      | nil => exact ⟨[], by simpa using hlead.symm, by simpa using htail.symm⟩
      | cons x as =>
        obtain ⟨rfl, -⟩ := List.cons.inj htail
        have hvl : v ∈ f.leading b := by
          rw [hlead]
          simp
        rw [hf.bare_inputs b v hvl hop] at hmem
        cases hmem
    · exact ⟨cs, hpre, hws⟩
  obtain ⟨ws', rfl, rfl⟩ := hsplit
  obtain ⟨M, P, P', hfirst, hP, hstep, -⟩ := hpath.steps.at_mem
  have hm := (h.mirrors_steps hf hsig (h.mirrors_walk hf hsig htrail rfl hpath.start) hvals hfirst).weaken hP
  have hhand : ∃ a, (t.func.args v)[k]? = some a ∧ (t.draft f).AtHand b (f.leading b ++ ws') P u a := by
    cases hstep with
    | compute lt op inner other reads =>
      obtain ⟨a, ha, hheld⟩ := renamed_operand reads hu hres
      exact ⟨a, ha, .inl hheld⟩
    | call lt op isCall reads => exact renamed_operand reads hu hres
    | store new => exact absurd hv (not_lt.mpr new)
    | load new => exact absurd hv (not_lt.mpr new)
    | remake new => exact absurd hv (not_lt.mpr new)
  obtain ⟨a, ha, hhand⟩ := hhand
  exact ⟨a, ha, h.holds_of_atHand hm hhand htok rfl⟩

theorem holds_at_end (htrail : Trail f (b :: rest)) (hu : f.AtEnd u b)
    (hhand : (t.draft f).AtHand b (t.valuesOf b) (t.atEnd b) u a) :
    f.Holds t.func c.types (t.func.contentsPast c.types moves rest (t.func.block b).values)
      (f.tokens (b :: rest) u) a := by
  have hb := htrail.lt hf.ssa.flow b mem_cons_self
  obtain ⟨d, hd, hdom⟩ := hu
  obtain ⟨tok, htok⟩ := hf.ssa.exists_token htrail u d (hdom rest htrail) hd
  rw [h.valuesOf_eq] at hhand
  exact h.holds_of_atHand (h.mirrors_end hf hsig htrail) hhand htok (by rw [h.tokens_end hf.ssa hb])

end Walk

end Setting.Resolved

/-- On every walk, what a value of `f` reads in `g` is what it reads in `f`. -/
structure Func.KeepsDataFlow (types : TypeTable) (moves : Array (List WordMove)) (f g : Func) :
    Prop where
  graph : f.SameGraph g
  same : ∀ v < f.values.size, f.Kin g v
  values : ∀ b < f.blocks.size, (g.block b).values.filter (· < f.values.size) = (f.block b).values
  /-- The operands of a value that is no phi, at the place where it stands. -/
  reads : ∀ b rest, Trail f (b :: rest) → ∀ vs v ws, (g.block b).values = vs ++ v :: ws →
    v < f.values.size → (f.value v).op ≠ .phi → ∀ (k : Nat) u, (f.dataArgs v)[k]? = some u →
    (f.value u).hasResult → ∃ a, (g.args v)[k]? = some a ∧ f.Holds g types (g.contentsPast types moves rest vs)
        (f.tokensPast rest b (vs.filter (· < f.values.size)) u) a
  /-- What a branch is on. -/
  branch : ∀ b rest, Trail f (b :: rest) → (f.block b).kind = .branch → ∃ u a,
    (f.block b).control = some u ∧ (g.block b).control = some a ∧
      f.Holds g types (g.contentsPast types moves rest (g.block b).values) (f.tokens (b :: rest) u) a
  /-- What is returned. -/
  ret : ∀ b rest, Trail f (b :: rest) → (f.block b).kind = .ret → ∃ v,
    (f.block b).control = some v ∧ (g.block b).control = some v ∧
      ∀ (k : Nat) u, (f.dataArgs v)[k]? = some u → (f.value u).hasResult → ∃ a, (g.args v)[k]? = some a ∧
          f.Holds g types (g.contentsPast types moves rest (g.block b).values) (f.tokens (b :: rest) u) a
  /-- What a phi gets along the edge that is walked: its operand has it before the moves, and the phi
  has it after them. -/
  phi : ∀ b q rest, Trail f (b :: q :: rest) → ∀ p ∈ (f.block b).values, (f.value p).op = .phi →
    (f.value p).hasResult → ∀ (k : Nat) u, (f.block b).preds[k]? = some q →
    (f.args p)[k]? = some u → ∃ a, (g.args p)[k]? = some a ∧
      f.Holds g types (g.contentsPast types moves rest (g.block q).values) (f.tokens (q :: rest) u) a ∧
      f.Holds g types (g.contents types moves (q :: rest)) (f.tokens (q :: rest) u) p

open Setting.Resolved in
theorem Setting.Resolved.keepsDataFlow {c : Setting} {allowed : RegSet} {f : Func}
    {moves : Array (List WordMove)} {t : Outline} (h : Resolved c allowed f moves t)
    (hf : f.Prepared c.types) (hsig : of c.types f = .ok c.signature) :
    f.KeepsDataFlow c.types moves t.func where
  graph := h.consistent.graph
  same := h.consistent.kin
  values b hb := h.originals hf.ssa hb
  reads b rest htrail vs v ws hvals hv hop k u hu hres := h.holds_operand hf hsig htrail hvals hv hop hu hres
  branch b rest htrail hk := by
    have hb := htrail.lt hf.ssa.flow b mem_cons_self
    obtain ⟨u, a, hu, ha, hheld⟩ := (h.closed hf.ssa hb).branch hk
    exact ⟨u, a, hu, ha, h.holds_at_end hf hsig htrail (hf.ssa.branch_control hk hu) (.inl hheld)⟩
  ret b rest htrail hk := by
    have hb := htrail.lt hf.ssa.flow b mem_cons_self
    obtain ⟨v, hv, -⟩ := hf.ssa.ret b hb hk
    have hplain := (h.closed hf.ssa hb).plain (by rw [hk]; exact nofun)
    refine ⟨v, hv, hplain.trans hv, fun k u hu hres => ?_⟩
    obtain ⟨a, ha, hhand⟩ := renamed_operand ((h.closed hf.ssa hb).ret v hk hv) hu hres
    have hmem := (f.dataArgs_front v).subset (mem_of_getElem? hu)
    exact ⟨a, ha, h.holds_at_end hf hsig htrail ((hf.ssa.ret_control hk hv).2.2.2 u hmem) hhand⟩
  phi b q rest htrail p hp hop hres k u hk hu := by
    obtain ⟨hprev, hedge⟩ := htrail.tail
    have hlead : p ∈ f.leading b := by
      obtain ⟨ws, hvals, hinner⟩ := hf.leading_first b
      rw [hvals] at hp
      refine (mem_append.mp hp).resolve_right fun hmem => ?_
      have hnot := hinner p hmem
      rw [hop] at hnot
      cases hnot
    have hplaced : p ∈ f.placedPhis b := mem_filter.mpr ⟨mem_filter.mpr ⟨hlead, beq_iff_eq.mpr hop⟩, hres⟩
    obtain ⟨q', u', a, hq', hu', ha, hhand, -, hdst⟩ :=
      h.fed q b p k hedge ⟨hplaced, hf.ssa.flow.predIndex?_eq_some.mpr hk⟩
    rw [(hf.ssa.placed b p hp).2, hk, some.injEq] at hq'
    rw [hu, some.injEq] at hu'
    subst hq' hu'
    have hsrc := h.holds_at_end hf hsig hprev (hf.ssa.phi_reads b p hp hop k q u hk hu) hhand
    refine ⟨a, ha, hsrc, ?_⟩
    obtain ⟨tok, htok, -, -⟩ := hsrc
    obtain ⟨dst, hdst⟩ := ne_none_iff_exists'.mp hdst
    refine ⟨tok, htok, ?_, fun i l hl => ?_⟩
    · have hparts := (h.hasResult_of_loc hf hp hop hdst).2
      rw [h.wordLocs_phi hf hp hop hdst, (h.consistent.kin p (hf.ssa.placed b p hp).1).ty]
      intro hnil
      rw [map_eq_nil_iff, range_eq_nil] at hnil
      exact hparts hnil
    · rw [contents_cons, h.moves_of_edge hf hedge, ← h.contents_leading hf hedge]
      exact h.phi_words hf hsig hedge (h.mirrors_end hf hsig hprev) hplaced hk hu htok i l hl

/-- Register allocation of what construction built keeps data flow. -/
theorem allocate_keeps_data_flow {ir : Ir.Func} {types : TypeTable} {built : Built} {n : Nat}
    {a : Allocation} {g : Func} (htypes : types.Made) (hbuilt : buildSsa ir types = .ok built)
    (hmin : 4 ≤ n)
    (h : allocate built.func.splitCriticalEdges types (RegSet.firstN n) = .ok (a, g)) :
    built.func.splitCriticalEdges.KeepsDataFlow types a.edgeMoves g := by
  have hf := prepared_of_buildSsa htypes hbuilt
  obtain ⟨c, t, rfl, hsig, -, -, rfl, hres⟩ := allocate_spec hf (RegSet.contains_firstN_of_lt_two hmin) h
  exact hres.recount.keepsDataFlow hf hsig

/-- The loop of `countdown` in four registers. -/
theorem countdown_allocation_keeps_data_flow : ∃ built a g, buildSsa countdown .builtins = .ok built ∧
    allocate built.func.splitCriticalEdges .builtins (RegSet.firstN 4) = .ok (a, g) ∧
    built.func.splitCriticalEdges.KeepsDataFlow .builtins a.edgeMoves g := by
  obtain ⟨built, a, g, hbuilt, h⟩ := exists_allocate_countdown
  exact ⟨built, a, g, hbuilt, h, allocate_keeps_data_flow .builtins hbuilt (Nat.le_refl 4) h⟩

end SsaCodegen
