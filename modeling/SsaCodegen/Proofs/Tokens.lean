import SsaCodegen.Proofs.SsaForm

/-! Where data comes from. Every value that is computed on a walk gets a token; phis pass tokens on. -/

namespace SsaCodegen

open List

abbrev Token := ValueId × Nat

namespace Func

variable {vs : List ValueId}

def operandFrom (f : Func) (b : BlockId) (p : ValueId) (q : BlockId) : Option ValueId :=
  (f.predIndex? b q).bind ((f.args p)[·]?)

def mergeTokens (f : Func) (q : Option BlockId) (b : BlockId) (σ : ValueId → Option Token)
    (v : ValueId) : Option Token :=
  if v ∈ (f.block b).values ∧ (f.value v).op = .phi then (q.bind (f.operandFrom b v)).bind σ else σ v

def giveToken (f : Func) (step : Nat) (σ : ValueId → Option Token) (v w : ValueId) : Option Token :=
  if w = v ∧ (f.value v).op ≠ .phi then some (v, step) else σ w

def tokens (f : Func) : List BlockId → ValueId → Option Token
  | [] => fun _ => none
  | b :: rest =>
    (f.block b).values.foldl (f.giveToken rest.length) (f.mergeTokens rest.head? b (f.tokens rest))

def tokensPast (f : Func) (rest : List BlockId) (b : BlockId) (vs : List ValueId) : ValueId → Option Token :=
  vs.foldl (f.giveToken rest.length) (f.mergeTokens rest.head? b (f.tokens rest))

def memoryIn (f : Func) (step : Nat) (vs : List ValueId) : Option Token :=
  (vs.reverse.find? fun v => (f.value v).op.makesMem).map (·, step)

def lastMemory (f : Func) : List BlockId → Option Token
  | [] => none
  | b :: rest => (f.memoryIn rest.length (f.block b).values).or (f.lastMemory rest)

def Absent (f : Func) (v : ValueId) : Prop :=
  ∀ b, v ∉ (f.block b).values ∧ (f.block b).control ≠ some v ∧
    ∀ r, r ∈ (f.block b).values ∨ (f.block b).control = some r → v ∉ f.args r

variable {f : Func} {b : BlockId} {rest : List BlockId} {v w : ValueId}

theorem tokens_cons (f : Func) (b : BlockId) (rest : List BlockId) :
    f.tokens (b :: rest) = f.tokensPast rest b (f.block b).values := rfl

theorem foldl_giveToken (f : Func) (step : Nat) (vs : List ValueId) (σ : ValueId → Option Token)
    (w : ValueId) : vs.foldl (f.giveToken step) σ w =
      if w ∈ vs ∧ (f.value w).op ≠ .phi then some (w, step) else σ w := by
  induction vs generalizing σ with
  | nil => simp
  | cons v vs ih =>
    rw [foldl_cons, ih, giveToken]
    by_cases hop : (f.value w).op ≠ .phi
    · by_cases hmem : w ∈ vs
      · rw [if_pos ⟨hmem, hop⟩, if_pos ⟨mem_cons_of_mem v hmem, hop⟩]
      · rw [if_neg fun hc => hmem hc.1]
        by_cases hw : w = v
        · subst hw
          rw [if_pos ⟨rfl, hop⟩, if_pos ⟨mem_cons_self, hop⟩]
        · rw [if_neg fun hc => hw hc.1, if_neg fun hc => (mem_cons.mp hc.1).elim hw hmem]
    · rw [if_neg fun hc => hop hc.2, if_neg ?_, if_neg fun hc => hop hc.2]
      rintro ⟨rfl, hc⟩
      exact hop hc

theorem tokensPast_of_mem (hmem : w ∈ vs) (hop : (f.value w).op ≠ .phi) :
    f.tokensPast rest b vs w = some (w, rest.length) := by
  rw [tokensPast, foldl_giveToken, if_pos ⟨hmem, hop⟩]

theorem tokensPast_of_phi (hop : (f.value w).op = .phi) :
    f.tokensPast rest b vs w = f.mergeTokens rest.head? b (f.tokens rest) w := by
  rw [tokensPast, foldl_giveToken, if_neg fun hc => hc.2 hop]

theorem tokensPast_of_not_mem (hvs : ∀ v ∈ vs, v ∈ (f.block b).values) (hnot : w ∉ (f.block b).values) :
    f.tokensPast rest b vs w = f.tokens rest w := by
  rw [tokensPast, foldl_giveToken, if_neg fun hc => hnot (hvs w hc.1), mergeTokens, if_neg fun hc => hnot hc.1]

theorem mergeTokens_of_phi (h : f.Flow) {q : BlockId} {k : Nat} {a p : ValueId}
    (hp : p ∈ (f.block b).values) (hop : (f.value p).op = .phi)
    (hq : (f.block b).preds[k]? = some q) (ha : (f.args p)[k]? = some a) (σ : ValueId → Option Token) :
    f.mergeTokens (some q) b σ p = σ a := by
  have hk := h.predIndex?_eq_some.mpr hq
  rw [mergeTokens, if_pos ⟨hp, hop⟩, Option.bind_some, operandFrom, hk, Option.bind_some, ha, Option.bind_some]

theorem tokensPast_recountUses (f : Func) (rest : List BlockId)
    (hrest : f.recountUses.tokens rest = f.tokens rest) (b : BlockId) (vs : List ValueId) :
    f.recountUses.tokensPast rest b vs = f.tokensPast rest b vs := by
  have hop := f.value_recountUses_congr Value.op fun _ _ => rfl
  have hfrom : f.recountUses.operandFrom = f.operandFrom := by
    funext b p q
    rw [operandFrom, operandFrom, predIndex?, predIndex?, block_recountUses, args_recountUses]
  have hmerge : f.recountUses.mergeTokens rest.head? b = f.mergeTokens rest.head? b := by
    funext σ v
    rw [mergeTokens, mergeTokens, block_recountUses, hop, hfrom]
  have hgive : f.recountUses.giveToken = f.giveToken := by
    funext step σ v w
    rw [giveToken, giveToken, hop]
  rw [tokensPast, tokensPast, hmerge, hgive, hrest]

theorem tokens_recountUses (f : Func) (bs : List BlockId) : f.recountUses.tokens bs = f.tokens bs := by
  induction bs with
  | nil => rfl
  | cons b rest ih => rw [tokens_cons, tokensPast_recountUses f rest ih, block_recountUses, tokens_cons]

theorem memoryIn_recountUses (f : Func) : f.recountUses.memoryIn = f.memoryIn := by
  funext step vs
  rw [memoryIn, memoryIn]
  simp only [f.value_recountUses_congr Value.op fun _ _ => rfl]

theorem lastMemory_recountUses (f : Func) (bs : List BlockId) : f.recountUses.lastMemory bs = f.lastMemory bs := by
  induction bs with
  | nil => rfl
  | cons b rest ih => rw [lastMemory, lastMemory, ih, memoryIn_recountUses, block_recountUses]

theorem SsaForm.exists_token (h : f.SsaForm) {bs : List BlockId} (htrail : Trail f bs) :
    ∀ v c, c ∈ bs → v ∈ (f.block c).values → ∃ tok, f.tokens bs v = some tok := by
  induction htrail with
  | start =>
    intro v c hc hv
    rw [mem_singleton.mp hc] at hv
    refine ⟨_, tokensPast_of_mem hv fun hop => ?_⟩
    have htwo := (h.phi_args _ v hv hop).2
    rw [h.flow.entry_preds] at htwo
    exact absurd htwo (by decide)
  | @step q b rest trail edge ih =>
    intro v c hc hv
    rw [tokens_cons]
    by_cases hb : v ∈ (f.block b).values
    · by_cases hop : (f.value v).op = .phi
      · obtain ⟨k, hk⟩ := mem_iff_getElem?.mp (h.flow.edge.mp edge)
        have hlt : k < (f.args v).length := by
          rw [(h.phi_args b v hb hop).1]
          exact (List.getElem?_eq_some_iff.mp hk).1
        have ha := getElem?_eq_getElem hlt
        obtain ⟨d, hd, hdom⟩ := h.phi_reads b v hb hop k q _ hk ha
        rw [tokensPast_of_phi hop]
        exact (mergeTokens_of_phi h.flow hb hop hk ha _).symm ▸ ih _ d (hdom rest trail) hd
      · exact ⟨_, tokensPast_of_mem hb hop⟩
    · rw [tokensPast_of_not_mem (fun _ hv => hv) hb]
      refine ih v c ((mem_cons.mp hc).resolve_left ?_) hv
      rintro rfl
      exact hb hv

end Func

end SsaCodegen
