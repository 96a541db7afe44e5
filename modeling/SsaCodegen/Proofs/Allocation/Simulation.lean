import SsaCodegen.Proofs.Allocation.Sound

/-! The allocated function on a walk. Where a run says that registers or memory have a value, they hold the
words that it has in the function before allocation. -/

namespace SsaCodegen

open List Func Contents

namespace Contents

variable {σ : Contents} {ls : List WordLoc} {word : Nat → Option Datum} {l : WordLoc} {p : Nat}

theorem write_of_getElem? (hls : ls.Nodup) (h : ls[p]? = some l) : σ.write ls word l = word p := by
  rw [write, (idxOf?_eq_some_iff hls).mpr h]

theorem write_of_not_mem (h : l ∉ ls) : σ.write ls word l = σ l := by
  rw [write, idxOf?_eq_none_iff.mpr h]

theorem clobber_of_ne_reg (h : ∀ r, l ≠ .reg r) : σ.clobber l = σ l := by
  cases l with
  | reg r => exact absurd rfl (h r)
  | stack slot => rfl
  | imm k => rfl

theorem moveAll_of_mem {moves : List WordMove} {m : WordMove} (hmoves : (moves.map WordMove.dst).Nodup)
    (hm : m ∈ moves) : σ.moveAll moves m.dst = σ m.src := by
  have hfind : moves.find? (fun m' => m'.dst = m.dst) = some m := by
    obtain ⟨pre, post, rfl⟩ := append_of_mem hm
    rw [List.map_append, nodup_append] at hmoves
    rw [find?_eq_some_iff_append]
    refine ⟨by simp, pre, post, rfl, fun m' hm' => ?_⟩
    have hne := hmoves.2.2 m'.dst (mem_map_of_mem hm') m.dst mem_cons_self
    simpa using hne
  rw [moveAll, hfind]

theorem moveAll_of_not_mem {moves : List WordMove} (h : ∀ m ∈ moves, m.dst ≠ l) : σ.moveAll moves l = σ l := by
  have hfind : moves.find? (fun m => m.dst = l) = none := by
    rw [find?_eq_none]
    exact fun m hm => by simpa using h m hm
  rw [moveAll, hfind]

end Contents

namespace Func

variable {f : Func} {types : TypeTable} {b q : BlockId} {rest : List BlockId} {u v w : ValueId}
  {tok : Token} {vs : List ValueId} {k : Int}

theorem execute_of_phi (hop : (f.value v).op = .phi) (n : Nat) (σ : Contents) : f.execute types n σ v = σ := by
  rw [execute, hop]

theorem execute_of_copy (hop : (f.value v).op = .storeReg ∨ (f.value v).op = .loadReg) (n : Nat)
    (σ : Contents) : f.execute types n σ v =
      σ.write (f.wordLocs types v) fun p => (f.wordLocs types (f.arg v 0))[p]?.bind σ := by
  rcases hop with hop | hop <;> rw [execute, hop]

theorem execute_of_call (hop : (f.value v).op = .call) (n : Nat) (σ : Contents) : f.execute types n σ v =
      σ.clobber.write (f.wordLocs types v) fun p => some (f.datum (v, n) p) := by
  rw [execute, hop]

theorem execute_of_other (hphi : (f.value v).op ≠ .phi) (hstore : (f.value v).op ≠ .storeReg)
    (hload : (f.value v).op ≠ .loadReg) (hcall : (f.value v).op ≠ .call) (n : Nat) (σ : Contents) :
    f.execute types n σ v = σ.write (f.wordLocs types v) fun p => some (f.datum (v, n) p) := by
  rw [execute]
  split
  · next hop => exact absurd hop hphi
  · next hop => exact absurd hop hstore
  · next hop => exact absurd hop hload
  · next hop => exact absurd hop hcall
  · rfl

theorem datum_of_const (hop : (f.value u).op = .const) (hk : (f.value u).payload = .int k) (n p : Nat) :
    f.datum (u, n) p = .const k := by
  rw [datum, hop, hk]

theorem datum_const {p : Nat} (h : f.datum tok p = .const k) (i : Nat) : f.datum tok i = .const k := by
  rw [datum] at h ⊢
  split at h
  · exact h
  · cases h

theorem contentsPast_snoc (f : Func) (types : TypeTable) (moves : Array (List WordMove))
    (rest : List BlockId) (vs : List ValueId) (v : ValueId) : f.contentsPast types moves rest (vs ++ [v]) =
      f.execute types rest.length (f.contentsPast types moves rest vs) v := by
  rw [contentsPast, foldl_append]
  rfl

theorem contents_cons (f : Func) (types : TypeTable) (moves : Array (List WordMove)) (b : BlockId)
    (rest : List BlockId) : f.contents types moves (b :: rest) =
      (f.contentsPast types moves rest (f.block b).values).moveAll (moves.getD b []) := rfl

theorem tokens_spec : ∀ {rest : List BlockId} {u : ValueId} {tok : Token}, f.tokens rest u = some tok →
    (∃ q, u ∈ (f.block q).values) ∧ ((f.value u).op ≠ .phi → tok.1 = u) := by
  intro rest
  induction rest with
  | nil => exact nofun
  | cons b rest ih =>
    intro u tok htok
    rw [tokens_cons, tokensPast, foldl_giveToken] at htok
    split at htok
    · next hu => exact ⟨⟨b, hu.1⟩, fun _ => congrArg Prod.fst (Option.some.inj htok).symm⟩
    · rw [mergeTokens] at htok
      split at htok
      · next hu => exact ⟨⟨b, hu.1⟩, fun hop => absurd hu.2 hop⟩
      · exact ih htok

theorem tokensPast_spec (hvs : ∀ v ∈ vs, v ∈ (f.block b).values) (htok : f.tokensPast rest b vs u = some tok) :
    (∃ q, u ∈ (f.block q).values) ∧ ((f.value u).op ≠ .phi → tok.1 = u) := by
  rw [tokensPast, foldl_giveToken] at htok
  split at htok
  · next hu => exact ⟨⟨b, hvs u hu.1⟩, fun _ => congrArg Prod.fst (Option.some.inj htok).symm⟩
  · rw [mergeTokens] at htok
    split at htok
    · next hu => exact ⟨⟨b, hu.1⟩, fun hop => absurd hu.2 hop⟩
    · exact tokens_spec htok

theorem tokensPast_congr {vs' : List ValueId} (h : u ∈ vs ↔ u ∈ vs') :
    f.tokensPast rest b vs u = f.tokensPast rest b vs' u := by
  rw [tokensPast, tokensPast, foldl_giveToken, foldl_giveToken]
  exact if_congr (and_congr h Iff.rfl) rfl rfl

theorem SsaForm.exists_tokenPast (hf : f.SsaForm) (htrail : Trail f (b :: rest))
    (hvs : ∀ v ∈ vs, v ∈ (f.block b).values) (hu : f.Before u b vs) :
    ∃ tok, f.tokensPast rest b vs u = some tok := by
  rcases hu with hu | ⟨d, hne, hu, hdom⟩
  · by_cases hop : (f.value u).op = .phi
    · rw [tokensPast_of_phi hop]
      have hend := hf.exists_token htrail u b mem_cons_self (hvs u hu)
      rwa [tokens_cons, tokensPast_of_phi hop] at hend
    · exact ⟨_, tokensPast_of_mem hu hop⟩
  · have hnot : u ∉ (f.block b).values := fun hmem =>
      hne ((hf.placed d u hu).2.symm.trans (hf.placed b u hmem).2)
    rw [tokensPast_of_not_mem hvs hnot]
    have hd := (mem_cons.mp (hdom rest htrail)).resolve_left hne
    cases rest with
    | nil => cases hd
    | cons q rest => exact hf.exists_token htrail.tail.1 u d hd hu

end Func

namespace Setting.Resolved

variable {c : Setting} {allowed : RegSet} {f : Func} {moves : Array (List WordMove)} {t : Outline}
  {b q : BlockId} {rest : List BlockId} {pre post ws : List ValueId} {P P' Q S : Claims}
  {u v w a : ValueId} {tok : Token} {l : WordLoc} {p : Nat}

/-- Where claims or homes tell of a value, the locations hold its words. This is said of a walk that has
come through `rest` and past the values `pre` of block `b`. -/
structure Mirrors (types : TypeTable) (moves : Array (List WordMove)) (f : Func) (t : Outline)
    (rest : List BlockId) (b : BlockId) (pre : List ValueId) (P : Claims) : Prop where
  held : ∀ u a tok, (t.draft f).Held P u a → f.tokensPast rest b (pre.filter (· < f.values.size)) u = some tok →
    ∀ (p : Nat) r, (t.func.regsOf a)[p]? = some r →
      t.func.contentsPast types moves rest pre (.reg r) = some (f.datum tok p)
  stored : ∀ u a tok, (t.draft f).Stored b pre u a →
    f.tokensPast rest b (pre.filter (· < f.values.size)) u = some tok →
    ∀ (p : Nat) l, (t.func.wordLocs types a)[p]? = some l →
      t.func.contentsPast types moves rest pre l = some (f.datum tok p)
  imm : ∀ k, t.func.contentsPast types moves rest pre (.imm k) = some (.const k)

theorem Mirrors.weaken (h : Mirrors c.types moves f t rest b pre P) (hQ : Q.Within P) :
    Mirrors c.types moves f t rest b pre Q :=
  { h with held := fun u a tok hheld => h.held u a tok (hheld.mono hQ) }

section

variable (h : Resolved c allowed f moves t)

include h

theorem words_home (hhome : t.homes.lookup u = some a) :
    t.func.wordLocs c.types a ≠ [] ∧ ∀ r, .reg r ∉ t.func.wordLocs c.types a := by
  have hregs := h.regsOf_home hhome
  refine ⟨?_, fun r hr => ?_⟩
  · have hloc : ∃ l, (t.func.value a).loc = some l ∧ l.isReg = false := by
      obtain ⟨-, ⟨rfl, hloc⟩ | ⟨-, -, -, -, ⟨slot, hslot⟩, -⟩⟩ := h.consistent.homes u a hhome
      · exact hloc
      · exact ⟨_, hslot, rfl⟩
    obtain ⟨l, hl, hreg⟩ := hloc
    rw [wordLocs_of_loc hl]
    cases l with
    | reg r => cases hreg
    | pair lo hi => cases hreg
    | imm k => exact cons_ne_nil _ _
    | stack slot =>
      have hparts := h.consistent.tidy.sized a _ hl (.inr (.inr ⟨slot, rfl⟩))
      intro hnil
      rw [ValueLoc.words, map_eq_nil_iff, range_eq_nil] at hnil
      exact hparts hnil
  · rw [reg_mem_wordLocs, hregs] at hr
    cases hr

theorem home_placed (hf : f.SsaForm) (hhome : t.homes.lookup u = some a) (hu : u ∈ (f.block q).values) :
    a ∈ (t.func.block q).values := by
  obtain ⟨-, ⟨rfl, -⟩ | ⟨-, -, -, -, -, -, hmem⟩⟩ := h.consistent.homes u a hhome
  · exact h.mem_values hf hu
  · rw [(hf.placed q u hu).2, h.valuesOf_eq] at hmem
    exact hmem

theorem home_self (hhome : t.homes.lookup u = some a) (ha : a < f.values.size) : a = u := by
  obtain ⟨-, ⟨rfl, -⟩ | ⟨hge, -⟩⟩ := h.consistent.homes u a hhome
  · rfl
  · exact absurd ha (not_lt.mpr hge)

theorem home_after (hf : f.SsaForm)
    (hsteps : (t.draft f).Steps b (f.leading b) S ws P) (hhome : t.homes.lookup u = some a)
    (ha : a ∈ f.leading b ++ ws) : u ∈ f.leading b ++ ws := by
  by_cases hlt : a < f.values.size
  · rwa [h.home_self hhome hlt] at ha
  · rcases mem_append.mp ha with ha | ha
    · exact absurd (hf.placed b a (mem_values_of_mem_leading ha)).1 hlt
    · obtain ⟨ws, post, rfl⟩ := append_of_mem ha
      obtain ⟨M, P, P', -, -, hstep, -⟩ := hsteps.at_mem
      obtain ⟨-, ⟨rfl, -⟩ | ⟨-, hop, hargs, -⟩⟩ := h.consistent.homes u a hhome
      · exact absurd (h.consistent.homes a a hhome).1 hlt
      · cases hstep with
        | compute lt => exact absurd lt hlt
        | call lt => exact absurd lt hlt
        | load new hload => cases hop.symm.trans hload
        | remake new hconst => cases hop.symm.trans hconst
        | store new hstore args home before =>
          have hv := singleton_inj.mp (hargs.symm.trans args)
          rw [hv, ← append_assoc]
          exact mem_append_left _ before

theorem home_apart (hf : f.Prepared c.types)
    (hsig : Signature.of c.types f = .ok c.signature) (hhome : t.homes.lookup u = some a)
    (hu : u ∈ (f.block q).values) (hw : w ∈ (t.func.block b).values) (hne : a ≠ w)
    (hl : l ∈ t.func.wordLocs c.types a) : l ∉ t.func.wordLocs c.types w ∨ ∃ k, l = .imm k := by
  by_cases hmem : l ∈ t.func.wordLocs c.types w
  · right
    refine h.words_apart hf hsig (h.home_placed hf.ssa hhome hu) hw hne (fun r hr => ?_) hl hmem
    rw [h.regsOf_home hhome] at hr
    cases hr
  · exact .inl hmem

end

theorem tokens_step (hne : u ≠ w ∨ f.values.size ≤ w) :
    f.tokensPast rest b ((pre ++ [w]).filter (· < f.values.size)) u =
      f.tokensPast rest b (pre.filter (· < f.values.size)) u := by
  refine tokensPast_congr ?_
  rw [filter_append, mem_append]
  refine or_iff_left fun hmem => ?_
  obtain ⟨hu, hlt⟩ := mem_filter.mp hmem
  rcases hne with hne | hge
  · exact hne (mem_singleton.mp hu)
  · rw [mem_singleton.mp hu, decide_eq_true_eq] at hlt
    exact absurd hlt (not_lt.mpr hge)

theorem tokens_self (hw : w < f.values.size) (hop : (f.value w).op ≠ .phi) :
    f.tokensPast rest b ((pre ++ [w]).filter (· < f.values.size)) w = some (w, rest.length) :=
  tokensPast_of_mem (mem_filter.mpr ⟨by simp, decide_eq_true hw⟩) hop

theorem held_put_cases {d : Draft} {x : ValueId} (hheld : d.Held (P.put x w (d.func.regsOf w)) u a) :
    (u = x ∧ a = w) ∨ d.Held P u a ∧ ∀ r ∈ d.func.regsOf a, r ∉ d.func.regsOf w := by
  by_cases hmeet : ∃ r ∈ d.func.regsOf a, r ∈ d.func.regsOf w
  · obtain ⟨r, hr, hw⟩ := hmeet
    obtain ⟨p, hp⟩ := mem_iff_getElem?.mp hr
    rcases Claims.put_eq_some (hheld.2 p r hp) with ⟨i, -, heq⟩ | ⟨hnot, -⟩
    · cases heq
      exact .inl ⟨rfl, rfl⟩
    · exact absurd hw hnot
  · have hapart : ∀ r ∈ d.func.regsOf a, r ∉ d.func.regsOf w := fun r hr hw => hmeet ⟨r, hr, hw⟩
    refine .inr ⟨⟨hheld.1, fun p r hr => ?_⟩, hapart⟩
    have hput := hheld.2 p r hr
    rwa [Claims.put_of_not_mem (hapart r (mem_of_getElem? hr))] at hput

section Step

variable (h : Resolved c allowed f moves t) (hf : f.Prepared c.types)
  (hsig : Signature.of c.types f = .ok c.signature)

include h

theorem datum_eq (hw : w < f.values.size) (n p : Nat) : t.func.datum (w, n) p = f.datum (w, n) p := by
  rw [datum, datum, (h.consistent.kin w hw).op, (h.consistent.kin w hw).payload]

theorem source_of_front (hf : f.SsaForm) (hvals : (t.func.block b).values = pre ++ post) :
    ∀ v ∈ pre.filter (· < f.values.size), v ∈ (f.block b).values := by
  intro v hv
  obtain ⟨hv, hlt⟩ := mem_filter.mp hv
  have hmem : v ∈ (t.func.block b).values := by
    rw [hvals]
    exact mem_append_left _ hv
  rw [← h.originals hf (h.lt_of_mem hmem)]
  exact mem_filter.mpr ⟨hmem, hlt⟩

theorem execute_source (hf : f.Prepared c.types) (hw : w ∈ (f.block b).values)
    (hop : (f.value w).op.isLeading = false ∨ (f.value w).op ≠ .phi) (n : Nat) (σ : Contents) :
    ∃ σ' : Contents, t.func.execute c.types n σ w =
        σ'.write (t.func.wordLocs c.types w) (fun p => some (f.datum (w, n) p)) ∧
      (∀ l, (∀ r, l ≠ .reg r) → σ' l = σ l) ∧ ((f.value w).op ≠ .call → σ' = σ) := by
  have hlt := (hf.ssa.placed b w hw).1
  have hkin := (h.consistent.kin w hlt).op
  have hdatum : (fun p => some (t.func.datum (w, n) p)) = fun p => some (f.datum (w, n) p) :=
    funext fun p => congrArg some (h.datum_eq hlt n p)
  obtain ⟨hstore, hload, -⟩ := hf.own b w hw
  have hphi : (f.value w).op ≠ .phi := by
    rcases hop with hop | hop
    · intro heq
      rw [heq] at hop
      cases hop
    · exact hop
  rw [← hkin] at hstore hload hphi
  by_cases hcall : (t.func.value w).op = .call
  · refine ⟨σ.clobber, ?_, fun l hl => clobber_of_ne_reg hl, fun hne => ?_⟩
    · rw [execute_of_call hcall, hdatum]
    · exact absurd (hkin.symm.trans hcall) hne
  · exact ⟨σ, by rw [execute_of_other hphi hstore hload hcall, hdatum], fun _ _ => rfl, fun _ => rfl⟩

include hf hsig

section

variable (hm : Mirrors c.types moves f t rest b pre P) (hvals : (t.func.block b).values = pre ++ w :: post)
  (hafter : ∀ u a, t.homes.lookup u = some a → a ∈ pre → u ∈ pre)

include hm hvals hafter

/-- Copies in memory stay, but for the one that is being written. -/
theorem stored_step {σ' : Contents} (hframe : ∀ l, l ∉ t.func.wordLocs c.types w → (∀ r, l ≠ .reg r) →
      σ' l = t.func.contentsPast c.types moves rest pre l) (himm : ∀ k, σ' (.imm k) = some (.const k))
    (hself : ∀ u tok, t.homes.lookup u = some w →
      f.tokensPast rest b ((pre ++ [w]).filter (· < f.values.size)) u = some tok →
      ∀ (p : Nat) l, (t.func.wordLocs c.types w)[p]? = some l → σ' l = some (f.datum tok p))
    (hstored : (t.draft f).Stored b (pre ++ [w]) u a)
    (htok : f.tokensPast rest b ((pre ++ [w]).filter (· < f.values.size)) u = some tok)
    (hl : (t.func.wordLocs c.types a)[p]? = some l) : σ' l = some (f.datum tok p) := by
  have hhome := hstored.1
  by_cases haw : a = w
  · rw [haw] at hl hhome
    exact hself u tok hhome htok p l hl
  have hold : (t.draft f).Stored b pre u a := by
    refine ⟨hhome, fun hu => ?_⟩
    exact (mem_append.mp (hstored.2 hu)).resolve_right fun hmem => haw (mem_singleton.mp hmem)
  have hsource := h.source_of_front hf.ssa (show (t.func.block b).values = (pre ++ [w]) ++ post by simp [hvals])
  obtain ⟨q, hu⟩ := (tokensPast_spec hsource htok).1
  have hother : u ≠ w ∨ f.values.size ≤ w := by
    by_contra hcon
    obtain ⟨huw, hlt⟩ := not_or.mp hcon
    rw [not_not] at huw
    subst huw
    have hub := hsource u (mem_filter.mpr ⟨by simp, decide_eq_true (not_le.mp hlt)⟩)
    exact not_mem_of_split ((h.ssaForm hf.ssa).nodup b) hvals (hafter u a hhome (hold.2 hub))
  rw [tokens_step hother] at htok
  have hword := hm.stored u a tok hold htok p l hl
  have hmem := mem_of_getElem? hl
  have hw : w ∈ (t.func.block b).values := by
    rw [hvals]
    simp
  rcases h.home_apart hf hsig hhome hu hw haw hmem with hnot | ⟨k, rfl⟩
  · rw [hframe l hnot fun r heq => (h.words_home hhome).2 r (heq ▸ hmem)]
    exact hword
  · rw [himm, ← hm.imm k]
    exact hword

theorem mirrors_source (hw : w < f.values.size) (inner : (f.value w).op.isLeading = false) (R : Claims)
    (hR : R = P ∧ (f.value w).op ≠ .call ∨ R = .empty) (fresh : ∀ r o, R r = some o → o.value ≠ w) :
    Mirrors c.types moves f t rest b (pre ++ [w]) (R.put w w (t.func.regsOf w)) := by
  have hmem : w ∈ (f.block b).values := by
    rw [h.source_split hf.ssa hvals hw]
    simp
  have hphi : (f.value w).op ≠ .phi := by
    intro hop
    rw [hop] at inner
    cases inner
  obtain ⟨σ, hrun, hframe, hsame⟩ := h.execute_source hf hmem (.inl inner) rest.length
    (t.func.contentsPast c.types moves rest pre)
  rw [← contentsPast_snoc] at hrun
  have hnodup := h.wordLocs_nodup w
  -- constants are written over by themselves only
  have himm : ∀ k, t.func.contentsPast c.types moves rest (pre ++ [w]) (.imm k) = some (.const k) := by
    intro k
    rw [hrun]
    by_cases hk : WordLoc.imm k ∈ t.func.wordLocs c.types w
    · obtain ⟨p, hp⟩ := mem_iff_getElem?.mp hk
      rw [write_of_getElem? hnodup hp]
      obtain ⟨hop, hpayload⟩ := h.consistent.tidy.const w k (imm_mem_wordLocs.mp hk)
      rw [(h.consistent.kin w hw).op] at hop
      rw [(h.consistent.kin w hw).payload] at hpayload
      rw [datum_of_const hop hpayload]
    · rw [write_of_not_mem hk, hframe _ (by simp)]
      exact hm.imm k
  refine ⟨fun u a tok hheld htok p r hr => ?_, fun u a tok hstored htok p l hl => ?_, himm⟩
  · rcases held_put_cases hheld with ⟨rfl, rfl⟩ | ⟨hold, hapart⟩
    · rw [tokens_self hw hphi, Option.some.injEq] at htok
      rw [hrun, ← htok, write_of_getElem? hnodup]
      rw [wordLocs_of_regs (f := t.func) hheld.1, getElem?_map, hr]
      rfl
    · rcases hR with ⟨rfl, hcall⟩ | rfl
      · have hu := fresh r _ (hold.2 p r hr)
        rw [tokens_step (.inl hu)] at htok
        rw [hrun, hsame hcall, write_of_not_mem]
        · exact hm.held u a tok hold htok p r hr
        · exact fun hcon => hapart r (mem_of_getElem? hr) (reg_mem_wordLocs.mp hcon)
      · cases hold.2 p r hr
  · refine h.stored_step hf hsig hm hvals hafter (fun l hl hreg => ?_) himm ?_ hstored htok hl
    · rw [hrun, write_of_not_mem hl]
      exact hframe l hreg
    · intro u tok hhome htok p l hl
      obtain rfl := h.home_self hhome hw
      -- its own home is a constant
      rw [tokens_self hw hphi, Option.some.injEq] at htok
      rw [hrun, ← htok, write_of_getElem? hnodup hl]

theorem mirrors_store {slot : StackSlot} (new : f.values.size ≤ w)
    (op : (t.func.value w).op = .storeReg) (args : t.func.args w = [v])
    (loc : (t.func.value w).loc = some (.stack slot)) (held : (t.draft f).Held P v v) :
    Mirrors c.types moves f t rest b (pre ++ [w]) P := by
  have hrun : t.func.contentsPast c.types moves rest (pre ++ [w]) =
      (t.func.contentsPast c.types moves rest pre).write (t.func.wordLocs c.types w)
        fun p => (t.func.wordLocs c.types v)[p]?.bind (t.func.contentsPast c.types moves rest pre) := by
    rw [contentsPast_snoc, execute_of_copy (.inl op), arg, args]
    rfl
  have hregs : ∀ r, WordLoc.reg r ∉ t.func.wordLocs c.types w := by
    intro r hr
    rw [reg_mem_wordLocs, regsOf_of_loc loc] at hr
    cases hr
  have himm : ∀ k, t.func.contentsPast c.types moves rest (pre ++ [w]) (.imm k) = some (.const k) := by
    intro k
    rw [hrun, write_of_not_mem]
    · exact hm.imm k
    · rw [imm_mem_wordLocs, loc]
      simp
  refine ⟨fun u a tok hheld htok p r hr => ?_, fun u a tok hstored htok p l hl => ?_, himm⟩
  · rw [tokens_step (.inr new)] at htok
    rw [hrun, write_of_not_mem (hregs r)]
    exact hm.held u a tok hheld htok p r hr
  · refine h.stored_step hf hsig hm hvals hafter (fun l hl _ => ?_) himm ?_ hstored htok hl
    · rw [hrun, write_of_not_mem hl]
    · intro u tok hhome htok p l hl
      obtain ⟨hlt, ⟨rfl, -⟩ | ⟨-, -, hargs, hty, -⟩⟩ := h.consistent.homes u w hhome
      · exact absurd hlt (not_lt.mpr new)
      obtain rfl := singleton_inj.mp (hargs.symm.trans args)
      rw [tokens_step (.inr new)] at htok
      rw [hrun, write_of_getElem? (h.wordLocs_nodup w) hl]
      -- the registers of the value have as many words as the slot
      have hsized := h.consistent.tidy.sized w _ loc (.inr (.inr ⟨slot, rfl⟩))
      have hlen : (t.func.regsOf u).length = c.types.parts (t.func.value w).ty := by
        rw [hty, ← (h.consistent.kin u hlt).ty] at hsized ⊢
        exact h.consistent.tidy.width u held.1 hsized
      have hp : p < (t.func.regsOf u).length := by
        rw [wordLocs_of_loc loc, ValueLoc.words] at hl
        have hlt := (List.getElem?_eq_some_iff.mp hl).1
        rwa [length_map, length_range, ← hlen] at hlt
      have hr := getElem?_eq_getElem hp
      rw [wordLocs_of_regs (f := t.func) held.1, getElem?_map, hr]
      exact hm.held u u tok held htok p _ hr

theorem mirrors_copy (new : f.values.size ≤ w) (regs : t.func.regsOf w ≠ []) {word : Nat → Option Datum}
    (hrun : t.func.contentsPast c.types moves rest (pre ++ [w]) =
      (t.func.contentsPast c.types moves rest pre).write (t.func.wordLocs c.types w) word)
    (hword : ∀ tok, f.tokensPast rest b (pre.filter (· < f.values.size)) u = some tok →
      ∀ (p : Nat) r, (t.func.regsOf w)[p]? = some r → word p = some (f.datum tok p)) :
    Mirrors c.types moves f t rest b (pre ++ [w]) (P.put u w (t.func.regsOf w)) := by
  have hwords : t.func.wordLocs c.types w = (t.func.regsOf w).map WordLoc.reg := wordLocs_of_regs regs
  have himm : ∀ k, t.func.contentsPast c.types moves rest (pre ++ [w]) (.imm k) = some (.const k) := by
    intro k
    rw [hrun, write_of_not_mem]
    · exact hm.imm k
    · rw [hwords]
      simp
  refine ⟨fun x a tok hheld htok p r hr => ?_, fun x a tok hstored htok p l hl => ?_, himm⟩
  · rw [tokens_step (.inr new)] at htok
    rcases held_put_cases hheld with ⟨rfl, rfl⟩ | ⟨hold, hapart⟩
    · rw [hrun, write_of_getElem? (h.wordLocs_nodup a)]
      · exact hword tok htok p r hr
      · rw [hwords, getElem?_map, hr]
        rfl
    · rw [hrun, write_of_not_mem]
      · exact hm.held x a tok hold htok p r hr
      · exact fun hcon => hapart r (mem_of_getElem? hr) (reg_mem_wordLocs.mp hcon)
  · refine h.stored_step hf hsig hm hvals hafter (fun l hl _ => ?_) himm ?_ hstored htok hl
    · rw [hrun, write_of_not_mem hl]
    · intro x tok hhome
      exact absurd (h.regsOf_home hhome) regs

end

omit hf hsig in
theorem word_of_load {slot : StackSlot} {r : Reg} (hhome : t.homes.lookup u = some a)
    (op : (t.func.value w).op = .loadReg) (ty : (t.func.value w).ty = (f.value u).ty)
    (loc : (t.func.value a).loc = some (.stack slot)) (hr : (t.func.regsOf w)[p]? = some r) :
    ∃ l, (t.func.wordLocs c.types a)[p]? = some l := by
  have hne := ne_nil_of_mem (mem_of_getElem? hr)
  have hloc : ∃ l, (t.func.value w).loc = some l := by
    cases hl : (t.func.value w).loc with
    | none =>
      rw [regsOf, hl] at hne
      exact absurd rfl hne
    | some l => exact ⟨l, rfl⟩
  obtain ⟨l, hl⟩ := hloc
  have hlen := h.consistent.tidy.width w hne (h.consistent.tidy.sized w l hl (.inl op))
  have htya := h.ty_of_home hhome
  have hp : p < (t.func.wordLocs c.types a).length := by
    have hlt := (List.getElem?_eq_some_iff.mp hr).1
    rw [hlen, ty] at hlt
    rwa [wordLocs_of_loc loc, ValueLoc.words, length_map, length_range, htya]
  exact ⟨_, getElem?_eq_getElem hp⟩

/-- The machine mirrors the source past one more value. -/
theorem mirrors_step (hm : Mirrors c.types moves f t rest b pre P)
    (hvals : (t.func.block b).values = pre ++ w :: post)
    (hafter : ∀ u a, t.homes.lookup u = some a → a ∈ pre → u ∈ pre)
    (hstep : (t.draft f).Step b pre P w P') : Mirrors c.types moves f t rest b (pre ++ [w]) P' := by
  cases hstep with
  | compute lt op inner other reads settled fresh =>
    exact h.mirrors_source hf hsig hm hvals hafter lt inner P (.inl ⟨rfl, other⟩) fresh
  | call lt op isCall reads settled =>
    have inner : (f.value w).op.isLeading = false := by
      rw [show (f.value w).op = .call from isCall]
      rfl
    exact h.mirrors_source hf hsig hm hvals hafter lt inner .empty (.inr rfl)
      fun _ o ho => absurd ho.symm (Option.some_ne_none o)
  | store new op args home before loc held =>
    exact h.mirrors_store hf hsig hm hvals hafter new op args loc held
  | @load u a slot new op args stored loc available ty regs =>
    have op : (t.func.value w).op = .loadReg := op
    have hrun : t.func.contentsPast c.types moves rest (pre ++ [w]) =
        (t.func.contentsPast c.types moves rest pre).write (t.func.wordLocs c.types w)
          fun p => (t.func.wordLocs c.types a)[p]?.bind (t.func.contentsPast c.types moves rest pre) := by
      rw [contentsPast_snoc, execute_of_copy (.inr op), arg, show t.func.args w = [a] from args]
      rfl
    refine h.mirrors_copy hf hsig hm hvals hafter new regs hrun fun tok htok p r hr => ?_
    obtain ⟨l, hl⟩ := h.word_of_load stored.1 op ty loc hr
    rw [hl]
    exact hm.stored u a tok stored htok p l hl
  | @remake u k new op payload args const value ty regs =>
    have op : (t.func.value w).op = .const := op
    have hrun : t.func.contentsPast c.types moves rest (pre ++ [w]) =
        (t.func.contentsPast c.types moves rest pre).write (t.func.wordLocs c.types w)
          fun p => some (t.func.datum (w, rest.length) p) := by
      rw [contentsPast_snoc, execute_of_other] <;> rw [op] <;> decide
    refine h.mirrors_copy hf hsig hm hvals hafter new regs hrun fun tok htok p r hr => ?_
    have hu : (f.value u).op ≠ .phi := by
      rw [show (f.value u).op = .const from const]
      decide
    have htok' := (tokensPast_spec (h.source_of_front hf.ssa hvals) htok).2 hu
    rw [datum_of_const op payload, datum, htok', show (f.value u).op = .const from const,
      show (f.value u).payload = .int k from value]

theorem mirrors_steps (hm : Mirrors c.types moves f t rest b (f.leading b) S) :
    ∀ {ws post : List ValueId} {P : Claims}, (t.func.block b).values = f.leading b ++ ws ++ post →
      (t.draft f).Steps b (f.leading b) S ws P → Mirrors c.types moves f t rest b (f.leading b ++ ws) P := by
  intro ws
  induction ws using List.reverseRecOn with
  | nil =>
    intro post P _ hsteps
    rw [append_nil]
    exact hm.weaken hsteps
  | append_singleton ws w ih =>
    intro post P hvals hsteps
    obtain ⟨M, Q, Q', hfirst, hQ, hstep, hlast⟩ := hsteps.at_mem
    rw [← append_assoc (f.leading b), append_assoc (f.leading b ++ ws)] at hvals
    rw [← append_assoc]
    refine (h.mirrors_step hf hsig ((ih hvals hfirst).weaken hQ) hvals ?_ hstep).weaken hlast
    exact fun u a hhome ha => h.home_after hf.ssa hfirst hhome ha

end Step

end Setting.Resolved

end SsaCodegen
