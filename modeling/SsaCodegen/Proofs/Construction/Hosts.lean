import SsaCodegen.Proofs.Construction.Progress

/-! The value of a variable at the end of a block is computed in a block that lies on every way there. -/

namespace SsaCodegen.Construction

open List

variable {ir : Ir.Func} {W F : List ValueId}

/-- All blocks have been lowered, and the operands of all phis are known. -/
structure Complete (t : Task) (s : Construction) : Prop where
  sound : s.Sound t.ir [] []
  rooted : s.Rooted
  flow : s.func.Flow
  incomplete : s.incomplete = []
  known : ∀ p x b, s.IsPhi p x b → s.Known p x b
  finished : ∀ b, b < s.func.blocks.size → ∃ es, Finished t s b es

variable {t : Task} {s : Construction} {b : BlockId} {es pre : List Event} {x : Var} {u v : ValueId}

theorem Progress.complete (h : Progress t s) (hvalid : t.ir.Valid t.types)
    (hall : ∀ b, b < s.func.blocks.size → b ∈ s.filled ∧ b ∈ s.sealedBlocks) : Complete t s := by
  have hnone : s.incomplete = [] := by
    rw [eq_nil_iff_forall_not_mem]
    rintro ⟨b, x, p⟩ hmem
    obtain ⟨hopen, hphi, -⟩ := h.sound.incomplete b x p hmem
    obtain ⟨hlt, -⟩ := h.sound.shape.phi p hphi.lt hphi.op
    rw [hphi.block] at hlt
    exact hopen (hall b hlt).2
  refine ⟨h.sound, h.rooted, hvalid.skeleton_flow.congr h.graph, hnone, fun p x b hp => ?_,
    fun b hb => h.finished b (hall b hb).1⟩
  rcases h.sound.known p x b hp with hW | hF | hinc | hk
  · cases hW
  · cases hF
  · rw [hnone] at hinc
    cases hinc
  · exact hk

theorem Sound.resolve_not_phi (hs : s.Sound ir W F) (hop : (s.func.value v).op ≠ .phi) : s.resolve v = v := by
  refine hs.resolve_self (Option.not_isSome_iff_eq_none.mp fun hr => ?_)
  obtain ⟨y, c, hphi, -⟩ := hs.replaced_known v hr
  exact hop hphi.op

theorem IsRoot.lt (hr : s.IsRoot u) : u < s.func.values.size := by
  by_contra hge
  rw [IsRoot, Func.value_eq_default _ (not_lt.mp hge)] at hr
  rcases hr with hop | hop | hop <;> cases hop

theorem Rooted.block (h : s.Rooted) (hs : s.func.Shape) (hr : s.IsRoot u) :
    (s.func.value u).block = s.func.entry := by
  have hu := hr.lt
  have hinput : (s.func.value u).op = .arg ∨ (s.func.value u).op = .resultPtr →
      (s.func.value u).block = s.func.entry := fun hop =>
    (Func.mem_body hs (h.inputs u hu hop)).2.1
  rcases hr with hop | hop | hop
  · exact hinput (.inl hop)
  · exact hinput (.inr hop)
  · obtain ⟨⟨key, c⟩, hmem, rfl⟩ := mem_map.mp (h.const u hu hop)
    exact (h.consts key c hmem).2.2.2.1

theorem Script.mem_body (h : Script t s b es) (hv : .value v ∈ es) : v ∈ s.func.body b := by
  rw [h.body]
  exact mem_filterMap.mpr ⟨_, hv, rfl⟩

def Hosts (s : Construction) (c : BlockId) (u : ValueId) : Prop :=
  u ∈ s.func.body c ∨ ∃ x, s.IsPhi u x c

theorem Hosts.block {c : BlockId} (h : s.Hosts c u) (hs : s.Sound ir W F) : (s.func.value u).block = c := by
  rcases h with hbody | ⟨x, hphi⟩
  · exact (Func.mem_body hs.shape hbody).2.1
  · exact hphi.block

def Computed (s : Construction) (rest : List BlockId) (b : BlockId) (pre : List Event) (u : ValueId) : Prop :=
  s.IsRoot u ∨ .value u ∈ pre ∨ (∃ x, s.IsPhi u x b) ∨ ∃ c ∈ rest, s.Hosts c u

theorem Computed.mono {rest : List BlockId} {pre' : List Event} (h : s.Computed rest b pre u)
    (hsub : ∀ e ∈ pre, e ∈ pre') : s.Computed rest b pre' u :=
  h.imp id (Or.imp (hsub _) id)

section

variable (h : Complete t s)

include h

theorem Complete.operand {p : ValueId} (hp : s.IsPhi p x b) {q : BlockId}
    (hq : q ∈ (s.func.block b).preds) : ∃ (k : Nat) (a : ValueId), (s.func.block b).preds[k]? = some q ∧
      (s.func.args p)[k]? = some a ∧ s.EndsWith x q a := by
  obtain ⟨k, hk⟩ := mem_iff_getElem?.mp hq
  obtain ⟨-, a, ha, hends⟩ := h.known p x b hp k q hk
  exact ⟨k, a, hk, ha, hends⟩

/-- At the start of a block a variable is a phi of that block, or the same at the ends of all
predecessors. -/
theorem Complete.starts_cases (hv : s.StartsWith x b v) : s.IsPhi (s.resolve v) x b ∨ (s.func.block b).preds ≠ [] ∧
      ∀ q ∈ (s.func.block b).preds, s.EndsWith x q v := by
  rcases hv with ⟨p, hp, hpv⟩ | ⟨hne, hall⟩
  · by_cases hr : s.isReplaced p = true
    · obtain ⟨y, c, hphi, hk, hargs⟩ := h.sound.replaced_known p hr
      obtain ⟨-, -, -, htwo⟩ := h.sound.shape.phi p hp.lt hp.op
      rw [hp.block] at htwo
      refine .inr ⟨fun hnil => ?_, fun q hq => ?_⟩
      · rw [hnil] at htwo
        exact absurd htwo (by decide)
      · obtain ⟨k, a, -, ha, hends⟩ := h.operand hp hq
        exact hends.congr ((hargs a (mem_of_getElem? ha)).trans hpv)
    · have hself := h.sound.resolve_self (Option.not_isSome_iff_eq_none.mp fun hs => hr hs)
      rw [← hpv, hself]
      exact .inl hp
  · exact .inr ⟨hne, fun q hq => (hall q hq).2⟩

/-- What is available after some events of a block has been computed, if that holds of what the
previous block left. -/
theorem Complete.computed {rest : List BlockId} (htrail : Trail s.func (b :: rest))
    (hprev : ∀ q rest', rest = q :: rest' → ∀ x v, s.EndsWith x q v →
      s.IsRoot (s.resolve v) ∨ ∃ c ∈ rest, s.Hosts c (s.resolve v)) (hfin : Finished t s b es) :
    ∀ pre post, es = pre ++ post → (∀ a, s.Avail pre a → s.Computed rest b pre (s.resolve a)) ∧
      ∀ x v, s.Current b pre x v → s.Computed rest b pre (s.resolve v) := by
  have hstart : ∀ pre x v, s.StartsWith x b v → s.Computed rest b pre (s.resolve v) := by
    intro pre x v hv
    rcases h.starts_cases hv with hphi | ⟨hne, hall⟩
    · exact .inr (.inr (.inl ⟨x, hphi⟩))
    · cases rest with
      | nil =>
        cases htrail with
        | start => exact absurd h.flow.entry_preds hne
      | cons q rest =>
        rcases hprev q rest rfl x v (hall q (htrail.head_pred h.flow)) with hr | hc
        · exact .inl hr
        · exact .inr (.inr (.inr hc))
  have hroot : ∀ pre a, s.IsRoot a → s.Computed rest b pre (s.resolve a) := by
    intro pre a hr
    rw [h.sound.resolve_not_phi (by rcases hr with hop | hop | hop <;> rw [hop] <;> decide)]
    exact .inl hr
  intro pre
  induction pre using List.reverseRecOn with
  | nil =>
    intro post hpost
    refine ⟨fun a ha => ?_, fun x v hv => hstart [] x v hv⟩
    rcases ha.2 with hr | hv | ⟨e, he, -⟩
    · exact hroot [] a hr
    · cases hv
    · cases he
  | append_singleton pre e ih =>
    intro post hpost
    rw [append_assoc] at hpost
    obtain ⟨hav, hcur⟩ := ih _ hpost
    have hmono : ∀ u, s.Computed rest b pre u → s.Computed rest b (pre ++ [e]) u :=
      fun u hu => hu.mono fun _ hmem => mem_append_left _ hmem
    have hfollows := hfin.script.follows pre e post hpost
    -- what the last event computes or leaves
    have hvalue : ∀ w, e = .value w → s.Computed rest b (pre ++ [e]) (s.resolve w) := by
      rintro w rfl
      rw [h.sound.resolve_not_phi (hfin.script.value_lt (mem_iff_append.mpr ⟨_, _, hpost⟩)).2]
      exact .inr (.inl (mem_append_right _ mem_cons_self))
    have hresult : ∀ w, e.result? = some w → s.Computed rest b (pre ++ [e]) (s.resolve w) := by
      intro w hw
      cases hfollows with
      | value => cases hw
      | store => cases hw
      | load n l v kind reg current =>
        obtain rfl := Option.some.inj hw
        exact hmono _ (hcur _ _ current)
      | node n r load store result =>
        exact hmono _ (hav w (result w hw))
    refine ⟨fun a ha => ?_, fun x v hv => ?_⟩
    · rcases ha.2 with hr | hv | ⟨e', he', hres⟩
      · exact hroot _ a hr
      · rcases mem_append.mp hv with hv | hv
        · exact hmono _ (hav a ⟨ha.1, .inr (.inl hv)⟩)
        · exact hvalue a (mem_singleton.mp hv).symm
      · rcases mem_append.mp he' with he' | he'
        · exact hmono _ (hav a ⟨ha.1, .inr (.inr ⟨e', he', hres⟩)⟩)
        · rw [mem_singleton.mp he'] at hres
          exact hresult a hres
    · rw [Current, assigned?_snoc] at hv
      cases hassign : e.assigns? s.func x with
      | none =>
        rw [hassign] at hv
        exact hmono _ (hcur x v hv)
      | some w =>
        rw [hassign] at hv
        rw [← hv]
        cases hfollows with
        | value u lt op data memory =>
          cases x with
          | memory =>
            rw [Event.assigns?] at hassign
            split at hassign
            · obtain rfl := Option.some.inj hassign
              exact hvalue u rfl
            · cases hassign
          | slot l => cases hassign
        | store n l y u kind reg operand =>
          cases x with
          | memory => cases hassign
          | slot l' =>
            rw [Event.assigns?] at hassign
            split at hassign
            · obtain rfl := Option.some.inj hassign
              obtain ⟨e', he', -, hres⟩ := operand
              have hlt := hfin.script.result_lt e' (by
                rw [hpost]
                exact mem_append_left _ he') _ hres
              exact hmono _ (hav _ ⟨hlt, .inr (.inr ⟨e', he', hres⟩)⟩)
            · cases hassign
        | load => cases x <;> cases hassign
        | node => cases x <;> cases hassign

theorem Complete.host_mem {bs : List BlockId} (htrail : Trail s.func bs) :
    ∀ b rest, bs = b :: rest → ∀ x v, s.EndsWith x b v →
      s.IsRoot (s.resolve v) ∨ ∃ c ∈ bs, s.Hosts c (s.resolve v) := by
  have hlast : ∀ b rest, Trail s.func (b :: rest) → (∀ q rest', rest = q :: rest' → ∀ x v,
      s.EndsWith x q v → s.IsRoot (s.resolve v) ∨ ∃ c ∈ rest, s.Hosts c (s.resolve v)) →
      ∀ x v, s.EndsWith x b v → s.IsRoot (s.resolve v) ∨ ∃ c ∈ b :: rest, s.Hosts c (s.resolve v) := by
    intro b rest htrail hprev x v hv
    obtain ⟨es, hfin⟩ := h.finished b (htrail.lt h.flow b mem_cons_self)
    have hcomp := (h.computed htrail hprev hfin es [] (append_nil es).symm).2 x v (hfin.current h.sound hv)
    rcases hcomp with hr | hmem | hphi | ⟨c, hc, hhost⟩
    · exact .inl hr
    · exact .inr ⟨b, mem_cons_self, .inl (hfin.script.mem_body hmem)⟩
    · exact .inr ⟨b, mem_cons_self, .inr hphi⟩
    · exact .inr ⟨c, mem_cons_of_mem b hc, hhost⟩
  induction htrail with
  | start =>
    rintro b rest hsplit x v hv
    obtain ⟨rfl, rfl⟩ := List.cons.inj hsplit
    exact hlast _ [] .start (fun q rest' hnil => absurd hnil nofun) x v hv
  | step trail edge ih =>
    rintro b rest hsplit x v hv
    obtain ⟨rfl, rfl⟩ := List.cons.inj hsplit
    exact hlast _ _ (.step trail edge) (fun q rest' hq => ih q rest' hq) x v hv

theorem Complete.host_dominates (hb : b < s.func.blocks.size) (hv : s.EndsWith x b v) :
    s.IsRoot (s.resolve v) ∨ ∃ c, s.Hosts c (s.resolve v) ∧ s.func.Dominates c b := by
  by_cases hr : s.IsRoot (s.resolve v)
  · exact .inl hr
  have hmem : ∀ rest, Trail s.func (b :: rest) → ∃ c ∈ b :: rest, s.Hosts c (s.resolve v) :=
    fun rest htrail => (h.host_mem htrail b rest rfl x v hv).resolve_left hr
  obtain ⟨rest, htrail⟩ := h.flow.exists_trail hb
  obtain ⟨c, -, hc⟩ := hmem rest htrail
  refine .inr ⟨c, hc, fun rest htrail => ?_⟩
  obtain ⟨d, hd, hhost⟩ := hmem rest htrail
  rw [← hc.block h.sound, hhost.block h.sound]
  exact hd

theorem Complete.host_ne (hne : (s.func.block b).preds ≠ [])
    (hall : ∀ q ∈ (s.func.block b).preds, s.EndsWith x q v) : (s.func.value (s.resolve v)).block ≠ b := by
  intro heq
  have hentry : b ≠ s.func.entry := by
    rintro rfl
    exact hne h.flow.entry_preds
  have hb : b < s.func.blocks.size := by
    by_contra hge
    exact hne (by rw [Func.block_eq_default _ (not_lt.mp hge)]; rfl)
  obtain ⟨q, hq, -, hnot⟩ := h.flow.linked.exists_pred_not_dominated (h.flow.reachable b hb) hentry
  rcases h.host_dominates (h.flow.pred_lt b q hq) (hall q hq) with hr | ⟨c, hc, hdom⟩
  · rw [h.rooted.block h.sound.shape hr] at heq
    exact hentry heq.symm
  · rw [hc.block h.sound] at heq
    rw [heq] at hdom
    exact hnot hdom

/-- Phis do not only read each other. -/
theorem Complete.grounded (R : ValueId → Prop) (hphi : ∀ p, R p → ∃ x b, s.IsPhi p x b)
    (hclosed : ∀ p, R p → ∀ a ∈ s.func.args p, R (s.resolve a)) : ∀ p, ¬R p := by
  -- a walk to a member passes through another one before
  have hno : ∀ n : Nat, ∀ b rest, Trail s.func (b :: rest) → rest.length = n → ∀ p x, R p → ¬s.IsPhi p x b := by
    intro n
    induction n using Nat.strongRecOn with
    | ind n ih =>
      intro b rest htrail hlen p x hp hphib
      obtain ⟨-, -, -, htwo⟩ := h.sound.shape.phi p hphib.lt hphib.op
      rw [hphib.block] at htwo
      cases rest with
      | nil =>
        cases htrail with
        | start =>
          rw [h.flow.entry_preds] at htwo
          exact absurd htwo (by decide)
      | cons q rest =>
        obtain ⟨k, a, -, ha, hends⟩ := h.operand hphib (htrail.head_pred h.flow)
        have hRa := hclosed p hp a (mem_of_getElem? ha)
        obtain ⟨y, c, hphic⟩ := hphi _ hRa
        have hmem : c ∈ q :: rest := by
          rcases h.host_mem htrail.tail.1 q rest rfl x a hends with hr | ⟨d, hd, hhost⟩
          · rw [IsRoot, hphic.op] at hr
            rcases hr with hr | hr | hr <;> cases hr
          · rw [← hphic.block, hhost.block h.sound]
            exact hd
        obtain ⟨pre, post, hsplit⟩ := append_of_mem hmem
        have htrail' := htrail.tail.1
        rw [hsplit] at htrail'
        refine ih post.length ?_ c post htrail'.of_append rfl _ y hRa hphic
        have hle := congrArg List.length hsplit
        simp only [length_append, length_cons] at hle hlen
        omega
  intro p hp
  obtain ⟨x, b, hphib⟩ := hphi p hp
  obtain ⟨hlt, -⟩ := h.sound.shape.phi p hphib.lt hphib.op
  rw [hphib.block] at hlt
  obtain ⟨rest, htrail⟩ := h.flow.exists_trail hlt
  exact hno _ b rest htrail rfl p x hp hphib

def Provided (s : Construction) (b : BlockId) (pre : List Event) (u : ValueId) : Prop :=
  s.IsRoot u ∨ .value u ∈ pre ∨ (∃ x, s.IsPhi u x b) ∨ ∃ c, c ≠ b ∧ s.Hosts c u ∧ s.func.Dominates c b

omit h in
theorem Provided.mono {pre' : List Event} (hp : s.Provided b pre u) (hsub : ∀ e ∈ pre, e ∈ pre') :
    s.Provided b pre' u :=
  hp.imp id (Or.imp (hsub _) id)

theorem Complete.provided_of_computed (hb : b < s.func.blocks.size)
    (hcomp : ∀ rest, Trail s.func (b :: rest) → s.Computed rest b pre u) : s.Provided b pre u := by
  obtain ⟨rest, htrail, hfirst⟩ := Func.exists_first_trail (h.flow.reachable b hb)
  by_cases hr : s.IsRoot u
  · exact .inl hr
  by_cases hv : .value u ∈ pre
  · exact .inr (.inl hv)
  by_cases hphi : ∃ x, s.IsPhi u x b
  · exact .inr (.inr (.inl hphi))
  have hmem : ∀ rest, Trail s.func (b :: rest) → ∃ c ∈ rest, s.Hosts c u := fun rest htrail =>
    (((hcomp rest htrail).resolve_left hr).resolve_left hv).resolve_left hphi
  obtain ⟨c, hc, hhost⟩ := hmem rest htrail
  refine .inr (.inr (.inr ⟨c, ?_, hhost, fun rest htrail => ?_⟩))
  · rintro rfl
    exact hfirst hc
  · obtain ⟨d, hd, hhost'⟩ := hmem rest htrail
    rw [← hhost.block h.sound, hhost'.block h.sound]
    exact mem_cons_of_mem b hd

theorem Complete.provided (hb : b < s.func.blocks.size) (hfin : Finished t s b es)
    {post : List Event} (hsplit : es = pre ++ post) : (∀ a, s.Avail pre a → s.Provided b pre (s.resolve a)) ∧
      ∀ x v, s.Current b pre x v → s.Provided b pre (s.resolve v) := by
  have hcomp : ∀ rest, Trail s.func (b :: rest) → _ := fun rest htrail =>
    h.computed htrail (fun q rest' hq x v hv => by
      rw [hq] at htrail ⊢
      exact h.host_mem htrail.tail.1 q rest' rfl x v hv) hfin pre post hsplit
  exact ⟨fun a ha => h.provided_of_computed hb fun rest htrail => (hcomp rest htrail).1 a ha,
    fun x v hv => h.provided_of_computed hb fun rest htrail => (hcomp rest htrail).2 x v hv⟩

end

end SsaCodegen.Construction
