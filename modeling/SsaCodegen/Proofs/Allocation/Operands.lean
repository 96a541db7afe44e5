import SsaCodegen.Proofs.Allocation.Homes

/-! Registers for operands and results. Clearing a register leaves alone everything that is locked. -/

namespace SsaCodegen

open List Claims Func Option Outline Registers

/-- Registers have been cleared, but none that was locked. -/
structure Registers.Shrinks (x y : Registers) : Prop where
  allocatable : y.allocatable = x.allocatable
  within : Claims.Within y.occupant? x.occupant?
  locked : ∀ r o, x.isLocked r → x.occupant? r = some o → y.occupant? r = some o ∧ y.isLocked r = true

namespace Registers

variable {x y z : Registers}

protected theorem Shrinks.refl (x : Registers) : x.Shrinks x :=
  ⟨rfl, .refl _, fun _ _ hlock ho => ⟨ho, hlock⟩⟩

protected theorem Shrinks.trans (h : x.Shrinks y) (h' : y.Shrinks z) : x.Shrinks z where
  allocatable := h'.allocatable.trans h.allocatable
  within := h'.within.trans h.within
  locked r o hlock ho := by
    obtain ⟨ho, hlock⟩ := h.locked r o hlock ho
    exact h'.locked r o hlock ho

theorem isLocked_lockAll_hold (x : Registers) (u a : ValueId) (dirty : Bool) {rs : List Reg}
    (hnodup : rs.Nodup) (r : Reg) :
    (rs.foldl lock (rs.zipIdx.foldl (fun x (r, part) => x.assign r ⟨u, a, part⟩ dirty) x)).isLocked r =
      true ↔ x.isLocked r ∨ r ∈ rs := by
  refine (isLocked_lockAll rs r _).trans (or_congr ?_ ⟨And.left, fun hr => ⟨hr, ?_⟩⟩)
  · exact Bool.coe_iff_coe.mpr ((hold_keeps u a dirty rs 0 x).2 r)
  · obtain ⟨p, hp⟩ := mem_iff_getElem?.mp hr
    have hput := congrFun (occupant?_hold x u a dirty hnodup) r
    rw [put_of_getElem? hnodup hp] at hput
    exact inUse_of_occupant? hput

theorem Alike.shrinks (h : x.Alike y) : x.Shrinks y := by
  refine ⟨h.allocatable, ?_, ?_⟩
  · rw [h.occupant?]
    exact .refl _
  · intro r o hlock ho
    rw [h.occupant?, h.isLocked]
    exact ⟨ho, hlock⟩

end Registers

theorem Allocator.mem_of_victim? {live : Liveness} {s : Allocator} {taken : RegSet} {r : Reg}
    (h : s.victim? live taken = some r) :
    s.regs.allocatable.contains r ∧ s.regs.isLocked r = false ∧ taken.contains r = false := by
  -- each step of the fold keeps the best so far or takes the register at hand
  have aux : ∀ step : Option Reg → Reg → Option Reg, (∀ best q, step best q = some q ∨ step best q = best) →
      ∀ (rs : List Reg) (best : Option Reg), rs.foldl step best = some r → r ∈ rs ∨ best = some r := by
    intro step hstep rs
    induction rs with
    | nil => exact fun best hbest => .inr hbest
    | cons q rs ih =>
      intro best hbest
      rcases ih _ hbest with hmem | heq
      · exact .inl (mem_cons_of_mem q hmem)
      · rcases hstep best q with hq | hkeep
        · obtain rfl := some.inj (hq.symm.trans heq)
          exact .inl mem_cons_self
        · exact .inr (hkeep.symm.trans heq)
  have hmem : r ∈ (s.regs.evictable taken).filter s.regs.allocatable.contains := by
    refine (aux _ (fun best q => ?_) _ none h).resolve_right (some_ne_none r).symm
    cases best with
    | none => exact .inl rfl
    | some p =>
      dsimp only
      split
      · exact .inl rfl
      · exact .inr rfl
  rw [mem_filter, RegisterFile.mem_evictable] at hmem
  exact ⟨hmem.2, hmem.1.2⟩

namespace Setting

variable {c : Setting} {allowed : RegSet} {f : Func} {vis : List BlockId} {P Q : Claims}
  {s s' s'' : Allocator} {b : BlockId} {u v a : ValueId} {r : Reg} {regs : Registers}
  {t : Outline} {l : ValueLoc}

/-- Registers have been cleared, and values got homes where that was needed. -/
structure Cleared (c : Setting) (allowed : RegSet) (f : Func) (vis : List BlockId) (P : Claims)
    (s s' : Allocator) : Prop where
  consistent : s'.outline.Consistent c allowed f vis P
  onward : s.outline.Onward s'.outline f
  regs : RegsFit s'.outline f vis s'.regs
  shrinks : s.regs.Shrinks s'.regs

theorem Cleared.trans (h : Cleared c allowed f vis P s s') (h' : Cleared c allowed f vis P s' s'') :
    Cleared c allowed f vis P s s'' :=
  ⟨h'.consistent, h.onward.trans h'.onward, h'.regs, h.shrinks.trans h'.shrinks⟩

theorem shrinks_release (h : RegsFit t f vis regs) {o : Occupant} (ho : regs.occupant? r = some o)
    (hlock : regs.isLocked r = false) : regs.Shrinks (regs.release o.value) := by
  refine ⟨regs.allocatable_release _, regs.release_within o.value, fun q o' hq ho' => ?_⟩
  have hne : o'.value ≠ o.value := by
    intro heq
    rw [h.locks q r o' o hq ho' ho heq.symm] at hlock
    cases hlock
  refine ⟨occupant?_release_eq_some.mpr ⟨ho', hne⟩, ?_⟩
  rw [isLocked_release_of_ne ho' hne]
  exact hq

theorem evict_spec (hf : f.SsaForm) (h : Runs (c.evict r) s ⟨⟩ s')
    (ht : s.outline.Consistent c allowed f vis P) (hregs : RegsFit s.outline f vis s.regs)
    (hlock : s.regs.isLocked r = false) : Cleared c allowed f vis P s s' ∧ s'.regs.occupant? r = none := by
  rw [evict, runs_get_bind] at h
  split at h
  · rename_i hnone
    obtain ⟨-, rfl⟩ := runs_pure.mp h
    exact ⟨⟨ht, .refl _ f, hregs, .refl _⟩, hnone⟩
  · rename_i o ho
    -- the value gets a home or is not needed any more; then it is forgotten
    obtain ⟨t, hcleared, hlook, hunlocked, hrun⟩ : ∃ t, Cleared c allowed f vis P s t ∧
        t.regs.occupant? r = some o ∧ t.regs.isLocked r = false ∧
        Runs (modify fun x => x.release o.value : Alloc Unit) t ⟨⟩ s' := by
      split at h
      · obtain ⟨a, t, hhome, hrun⟩ := runs_bind.mp h
        have hspec := home_spec hf hhome ht (hregs.founded.placed r o ho)
        refine ⟨t, ⟨hspec.consistent, hspec.onward, (hregs.onward hspec.onward).alike hspec.alike,
          hspec.alike.shrinks⟩, ?_, ?_, hrun⟩
        · rw [hspec.alike.occupant?]
          exact ho
        · rw [hspec.alike.isLocked]
          exact hlock
      · exact ⟨s, ⟨ht, .refl _ f, hregs, .refl _⟩, ho, hlock, h⟩
    obtain rfl := runs_modify.mp hrun
    refine ⟨hcleared.trans ⟨hcleared.consistent, .refl _ f, hcleared.regs.release o.value,
      shrinks_release hcleared.regs hlook hunlocked⟩, ?_⟩
    by_contra hsome
    obtain ⟨o', ho'⟩ := ne_none_iff_exists'.mp hsome
    obtain ⟨ho', hne⟩ := occupant?_release_eq_some.mp ho'
    rw [hlook, some_inj] at ho'
    exact hne (congrArg Occupant.value ho'.symm)

theorem takeReg_spec {taken : RegSet} (hf : f.SsaForm) (h : Runs (c.takeReg taken) s r s')
    (ht : s.outline.Consistent c allowed f vis P) (hregs : RegsFit s.outline f vis s.regs) :
    Cleared c allowed f vis P s s' ∧ s'.regs.occupant? r = none ∧
      s.regs.allocatable.contains r ∧ taken.contains r = false := by
  rw [takeReg, runs_get_bind] at h
  split at h
  · rename_i q hq
    obtain ⟨rfl, rfl⟩ := runs_pure.mp h
    obtain ⟨hal, hex, hfree⟩ := findFree?_eq_some hq
    exact ⟨⟨ht, .refl _ f, hregs, .refl _⟩, hfree, hal, hex⟩
  · split at h
    · exact (runs_reject.mp h).elim
    · rename_i q hq
      obtain ⟨_, hevict, rfl⟩ := runs_bind_pure.mp h
      obtain ⟨hal, hlock, hex⟩ := Allocator.mem_of_victim? hq
      obtain ⟨hcleared, hfree⟩ := evict_spec hf hevict ht hregs hlock
      exact ⟨hcleared, hfree, hal, hex⟩

theorem takeRegs_spec (hf : f.SsaForm) : ∀ {n : Nat} {taken : RegSet} {s : Allocator} {rs : List Reg},
    Runs (c.takeRegs n taken) s rs s' → s.outline.Consistent c allowed f vis P →
    RegsFit s.outline f vis s.regs → Cleared c allowed f vis P s s' ∧ rs.length = n ∧ rs.Nodup ∧
      ∀ r ∈ rs, s'.regs.occupant? r = none ∧ s.regs.allocatable.contains r ∧ taken.contains r = false
  | 0, taken, s, rs, h, ht, hregs => by
    obtain ⟨rfl, rfl⟩ := runs_pure.mp h
    exact ⟨⟨ht, .refl _ f, hregs, .refl _⟩, rfl, nodup_nil, nofun⟩
  | n + 1, taken, s, rs, h, ht, hregs => by
    obtain ⟨r, t, htake, h⟩ := runs_bind.mp h
    obtain ⟨more, hmore, rfl⟩ := runs_bind_pure.mp h
    obtain ⟨hcleared, hfree, hal, hex⟩ := takeReg_spec hf htake ht hregs
    obtain ⟨hcleared', hlen, hnodup, hall⟩ := takeRegs_spec hf hmore hcleared.consistent hcleared.regs
    have hfree' : s'.regs.occupant? r = none := by
      by_contra hsome
      obtain ⟨o, ho⟩ := ne_none_iff_exists'.mp hsome
      rw [hcleared'.shrinks.within r o ho] at hfree
      cases hfree
    refine ⟨hcleared.trans hcleared', by rw [length_cons, hlen], ?_, ?_⟩
    · refine nodup_cons.mpr ⟨fun hmem => ?_, hnodup⟩
      have hnot := (hall r hmem).2.2
      rw [RegSet.contains_insert, beq_self_eq_true, Bool.or_true] at hnot
      cases hnot
    · intro q hq
      rcases mem_cons.mp hq with rfl | hq
      · exact ⟨hfree', hal, hex⟩
      · obtain ⟨hnone, hq', hnot⟩ := hall q hq
        rw [RegSet.contains_insert, Bool.or_eq_false_iff] at hnot
        exact ⟨hnone, hcleared.shrinks.allocatable ▸ hq', hnot.1⟩

theorem stored_of_home {h : ValueId} (hf : f.SsaForm) (ht : t.Consistent c allowed f vis P)
    (hu : u < f.values.size) (hplaced : ∃ b ∈ vis, u ∈ t.valuesOf b) (hh : t.homes.lookup u = some h)
    (b : BlockId) : (t.draft f).Stored b (t.valuesOf b) u h := by
  refine ⟨hh, fun hub => ?_⟩
  obtain ⟨-, ⟨rfl, -⟩ | ⟨-, -, -, -, -, -, hmem⟩⟩ := ht.homes u h hh
  · obtain ⟨b', hb', hmem⟩ := hplaced
    have hlisted := (ht.visited b' hb').listed h hmem hu
    rw [← (hf.placed b h hub).2, (hf.placed b' h hlisted).2]
    exact hmem
  · rw [← (hf.placed b u hub).2]
    exact hmem

/-- The value that brings `u` back is new, and it loads the copy in memory or is the same constant. -/
theorem runs_bringBack (h : Runs (bringBack u) s a s') (hcur : s.current = some b) :
    a = s.func.values.size ∧ s'.regs = s.regs ∧ ((∃ k, (s.func.value u).loc = some (.imm k) ∧
          s'.outline = s.outline.create b .const (s.func.value u).ty [] (.int k)) ∨
        (∀ k, (s.func.value u).loc ≠ some (.imm k)) ∧ ∃ h, s.homes.lookup u = some h ∧
          s'.outline = s.outline.create b .loadReg (s.func.value u).ty [h] .none) := by
  rw [bringBack, runs_get_bind, hcur] at h
  dsimp only [getD_some] at h
  split at h
  · rename_i k hk
    obtain ⟨_, hset, rfl⟩ := runs_bind_pure.mp h
    obtain rfl := runs_set.mp hset
    exact ⟨rfl, rfl, .inl ⟨k, hk, rfl⟩⟩
  · rename_i hnot
    split at h
    · exact (runs_reject.mp h).elim
    · rename_i k hk
      obtain ⟨_, hset, rfl⟩ := runs_bind_pure.mp h
      obtain rfl := runs_set.mp hset
      exact ⟨rfl, rfl, .inr ⟨hnot, k, hk, rfl⟩⟩

/-- The new value `a` brings `u` back: it makes the constant anew, or loads from the stack. -/
structure Brought (c : Setting) (allowed : RegSet) (f : Func) (vis : List BlockId) (P : Claims)
    (s : Allocator) (b : BlockId) (u a : ValueId) (s' : Allocator) : Prop where
  consistent : s'.outline.Consistent c allowed f vis P
  onward : s.outline.Onward s'.outline f
  regs : s'.regs = s.regs
  valuesOf : ∀ b, s'.outline.valuesOf b = s.outline.valuesOf b
  new : a = s.func.values.size
  lt : a < s'.func.values.size
  ty : (s'.func.value a).ty = (s.func.value u).ty
  block : (s'.func.value a).block = b
  loc : (s'.func.value a).loc = none
  kind : (∃ k, (s'.func.value a).op = .const ∧ (s'.func.value a).payload = .int k ∧
      s'.func.args a = [] ∧ (f.value u).op = .const ∧ (f.value u).payload = .int k) ∨
    ∃ h slot, (s'.func.value a).op = .loadReg ∧ s'.func.args a = [h] ∧
      s'.homes.lookup u = some h ∧ (s'.func.value h).loc = some (.stack slot)

theorem bringBack_spec (hf : f.SsaForm) (h : Runs (bringBack u) s a s')
    (ht : s.outline.Consistent c allowed f vis P) (hcur : s.current = some b)
    (hu : u < f.values.size) : Brought c allowed f vis P s b u a s' := by
  obtain ⟨ha, hregs, hmade⟩ := runs_bringBack h hcur
  -- the same for both ways of bringing it back
  have hcommon : ∀ op args payload, s'.outline = s.outline.create b op (s.func.value u).ty args payload →
      ((s'.func.value a).op = op → (s'.func.value a).payload = payload → s'.func.args a = args →
        (∃ k, (s'.func.value a).op = .const ∧ (s'.func.value a).payload = .int k ∧
            s'.func.args a = [] ∧ (f.value u).op = .const ∧ (f.value u).payload = .int k) ∨
          ∃ h slot, (s'.func.value a).op = .loadReg ∧ s'.func.args a = [h] ∧
            s'.homes.lookup u = some h ∧ (s'.func.value h).loc = some (.stack slot)) →
      Brought c allowed f vis P s b u a s' := by
    intro op args payload hout hkind
    have hvalue : s'.func.value a = ⟨op, (s.func.value u).ty, (s.func.operands.add args).1, payload, 0, b, none⟩ := by
      change s'.outline.func.value a = _
      rw [hout, ha]
      exact value_newValue_new s.func b op _ args payload
    have hargs : s'.func.args a = args := by
      change s'.outline.func.args a = _
      rw [hout, ha]
      exact args_newValue_new b op _ args payload
    have hlt : a < s'.func.values.size := by
      change a < s'.outline.func.values.size
      rw [hout, ha, size_create]
      exact Nat.lt_succ_self _
    refine ⟨hout ▸ ht.create b op _ args payload hf, hout ▸ onward_create b op _ args payload ht,
      hregs, fun b' => hout ▸ rfl, ha, hlt, ?_, ?_, ?_, hkind ?_ ?_ hargs⟩ <;> rw [hvalue]
  rcases hmade with ⟨k, hk, hout⟩ | ⟨hnot, k, hk, hout⟩
  · refine hcommon _ _ _ hout fun hop hpayload hargs => .inl ⟨k, hop, hpayload, hargs, ?_⟩
    have hconst := ht.tidy.const u k hk
    rw [← (ht.kin u hu).op, ← (ht.kin u hu).payload]
    exact hconst
  · refine hcommon _ _ _ hout fun hop _ hargs => .inr ?_
    have hsame : ∀ w l, (s.func.value w).loc = some l → (s'.func.value w).loc = some l := by
      intro w l hl
      change (s'.outline.func.value w).loc = some l
      rw [hout, loc_create]
      exact hl
    have hhome : s'.homes.lookup u = some k := by
      change s'.outline.homes.lookup u = some k
      rw [hout]
      exact hk
    obtain ⟨-, ⟨rfl, l, hl, hreg⟩ | ⟨-, -, -, -, ⟨slot, hslot⟩, -⟩⟩ := ht.homes u k hk
    · cases l with
      | stack slot => exact ⟨k, slot, hop, hargs, hhome, hsame k _ hl⟩
      | imm i => exact absurd hl (hnot i)
      | reg r => cases hreg
      | pair lo hi => cases hreg
    · exact ⟨k, slot, hop, hargs, hhome, hsame k _ hslot⟩

theorem Brought.step (hbr : Brought c allowed f vis P s b u a s') (hf : f.SsaForm)
    (ht : s''.outline.Consistent c allowed f vis P) (hon : s'.outline.Onward s''.outline f)
    (hle : f.values.size ≤ a) (hu : Placed f vis s u) (hav : f.AtEnd u b)
    (hty : (s.func.value u).ty = (f.value u).ty) (hcur : s''.current = some b) (hreg : l.isReg) :
    ((s''.outline.setLoc a l s''.spillSize).draft f).Step b s''.out Q a (Q.put u a l.regs) := by
  have hagrees := hon.agrees a hbr.lt
  have hlt := hbr.lt.trans_le hon.size_le
  have hkin := s''.func.kin_setLoc a a (some l)
  have hregs : ((s''.outline.setLoc a l s''.spillSize).draft f).func.regsOf a = l.regs := by
    refine regsOf_of_loc ?_
    exact congrArg Value.loc (value_setLoc_self hlt (some l))
  have hne : ((s''.outline.setLoc a l s''.spillSize).draft f).func.regsOf a ≠ [] := by
    rw [hregs]
    exact ValueLoc.isReg_iff.mp hreg
  have hsame := ((hkin.ty.trans hagrees.ty).trans hbr.ty).trans hty
  rw [← hregs]
  rcases hbr.kind with ⟨k, hop, hpayload, hargs, hconst, hvalue⟩ | ⟨h, slot, hop, hargs, hhome, hslot⟩
  · refine .remake hle ?_ ?_ ?_ hconst hvalue hsame hne
    · exact (hkin.op.trans hagrees.op).trans hop
    · exact (hkin.payload.trans hagrees.payload).trans hpayload
    · exact ((s''.func.args_setLoc a a _).trans hagrees.args).trans hargs
  · have hplaced := (hu.onward hbr.onward).onward hon
    have hstored := stored_of_home hf ht hplaced.1 hplaced.2 (hon.home u h hhome) b
    rw [valuesOf_current hcur] at hstored
    have hother : a ≠ h := by
      rintro rfl
      rw [hbr.loc] at hslot
      cases hslot
    have hloc := (congrArg Value.loc (value_setLoc_other hother (some l))).trans (hon.loc hslot)
    refine .load hle ?_ ?_ ⟨hstored.1, hstored.2⟩ hloc hav hsame hne
    · exact (hkin.op.trans hagrees.op).trans hop
    · exact ((s''.func.args_setLoc a a _).trans hagrees.args).trans hargs

/-- Registers hold `u`, as defined by `a`, and they are locked. -/
structure InRegs (c : Setting) (allowed : RegSet) (f : Func) (vis : List BlockId) (s : Allocator)
    (u a : ValueId) (s' : Allocator) : Prop where
  consistent : s'.outline.Consistent c allowed f vis s'.regs.occupant?
  onward : s.outline.Onward s'.outline f
  regs : RegsFit s'.outline f vis s'.regs
  held : (s'.outline.draft f).Held s'.regs.occupant? u a
  locked : ∀ r ∈ s'.func.regsOf a, s'.regs.isLocked r = true
  stay : ∀ r o, s.regs.isLocked r → s.regs.occupant? r = some o →
    s'.regs.occupant? r = some o ∧ s'.regs.isLocked r = true
  allocatable : s'.regs.allocatable = s.regs.allocatable

theorem regsFit_lockAll (h : RegsFit t f vis regs) (u : ValueId) :
    RegsFit t f vis ((regs.regsOf u).foldl lock regs) := by
  constructor
  · rw [(lockAll_keeps _ regs).2]
    exact h.founded
  · intro r r' o o' hlock ho ho' heq
    rw [(lockAll_keeps _ regs).2] at ho ho'
    rw [isLocked_lockAll] at hlock ⊢
    rcases hlock with hlock | ⟨hmem, -⟩
    · exact .inl (h.locks r r' o o' hlock ho ho' heq)
    · obtain ⟨o'', ho'', hu⟩ := mem_regsOf.mp hmem
      rw [ho, some_inj] at ho''
      refine .inr ⟨mem_regsOf.mpr ⟨o', ho', ?_⟩, inUse_of_occupant? ho'⟩
      rw [heq, ho'', hu]

theorem held_of_regsOf {rest : List Reg} (h : RegsFit t f vis regs) (hregs : regs.regsOf u = r :: rest) :
    (t.draft f).Held regs.occupant? u (((regs.occupant? r).map Occupant.copy).getD u) := by
  obtain ⟨o, ho, rfl⟩ := mem_regsOf.mp (by rw [hregs]; exact mem_cons_self : r ∈ regs.regsOf u)
  rw [ho]
  exact (h.founded.whole r o ho).2

theorem regsFit_hold {regs' : Registers} {rs : List Reg} (h : RegsFit t f vis regs) (hnodup : rs.Nodup)
    (hne : rs ≠ []) (hregs : t.func.regsOf a = rs) (hfree : ∀ r ∈ rs, regs.occupant? r = none)
    (hu : u < f.values.size ∧ ∃ b ∈ vis, u ∈ t.valuesOf b)
    (hfresh : ∀ r o, regs.occupant? r = some o → o.value ≠ u)
    (hocc : regs'.occupant? = put regs.occupant? u a rs) (hlock : (∀ r, regs'.isLocked r = regs.isLocked r) ∨
      ∀ r, regs'.isLocked r ↔ regs.isLocked r ∨ r ∈ rs) : RegsFit t f vis regs' := by
  have hlocked : ∀ r, regs.isLocked r → r ∉ rs := by
    intro r hr hmem
    obtain ⟨o, ho⟩ := occupant?_of_isLocked hr
    rw [hfree r hmem] at ho
    cases ho
  constructor
  · rw [hocc]
    constructor
    · intro r o ho
      rcases put_eq_some ho with ⟨p, hp, rfl⟩ | ⟨hnot, ho⟩
      · refine ⟨hregs.symm ▸ hp, ?_⟩
        change Claims.Hold _ u a (t.func.regsOf a)
        rw [hregs]
        exact hold_put hnodup hne
      · obtain ⟨hreg, hheld⟩ := h.founded.whole r o ho
        refine ⟨hreg, hheld.put (fun q hq hmem => ?_) u a⟩
        obtain ⟨p, hp⟩ := mem_iff_getElem?.mp hq
        have hq := hheld.2 p q hp
        rw [hfree q hmem] at hq
        cases hq
    · intro r o ho
      rcases put_eq_some ho with ⟨p, hp, rfl⟩ | ⟨hnot, ho⟩
      · exact hu
      · exact h.founded.placed r o ho
  · intro r r' o o' hr ho ho' heq
    rw [hocc] at ho ho'
    rcases put_eq_some ho with ⟨p, hp, rfl⟩ | ⟨hnot, ho⟩
    · have hmem := mem_of_getElem? hp
      rcases hlock with hlock | hlock
      · rw [hlock] at hr
        exact absurd hmem (hlocked r hr)
      · rcases put_eq_some ho' with ⟨p', hp', -⟩ | ⟨-, ho'⟩
        · exact (hlock r').mpr (.inr (mem_of_getElem? hp'))
        · exact absurd heq (hfresh r' o' ho')
    · rcases put_eq_some ho' with ⟨p', -, rfl⟩ | ⟨-, ho'⟩
      · exact absurd heq.symm (hfresh r o ho)
      · have hkept := h.locks r r' o o'
        rcases hlock with hlock | hlock
        · rw [hlock] at hr ⊢
          exact hkept hr ho ho' heq
        · rw [hlock] at hr ⊢
          exact .inl (hkept (hr.resolve_right hnot) ho ho' heq)

theorem tidy_setRegs {g : Func} {limit : Nat} (h : Tidy c allowed g limit) (hlt : a < g.values.size)
    (hwidth : l.regs.length = c.types.parts (g.value a).ty) (hreg : l.isReg) (hnodup : l.regs.Nodup)
    (hallowed : ∀ r ∈ l.regs, allowed.contains r) : Tidy c allowed (g.setLoc a (some l)) limit := by
  refine h.setLoc le_rfl hlt hnodup (fun _ _ => hwidth) (fun _ hzero => ?_) ?_ ?_ ?_
  · rw [hzero, length_eq_zero_iff] at hwidth
    exact ValueLoc.isReg_iff.mp hreg hwidth
  · rintro k rfl
    cases hreg
  · refine .inr ⟨hallowed, ?_⟩
    rintro slot rfl
    cases hreg
  · rintro o rfl
    cases hreg

theorem consistent_emitCopy (ht : t.Consistent c allowed f vis P) (hcur : t.current = some b) (hb : b ∈ vis)
    (hnew : f.values.size ≤ a) (hlt : a < t.func.values.size) (hblock : (t.func.value a).block = b)
    (hun : ∀ b ∈ vis, a ∉ t.valuesOf b) (hnone : (t.func.value a).loc = none)
    (hwidth : l.regs.length = c.types.parts (t.func.value a).ty) (hreg : l.isReg) (hnodup : l.regs.Nodup)
    (hallowed : ∀ r ∈ l.regs, allowed.contains r) (hQ : Q.Within P)
    (hstep : ((t.setLoc a l t.spillSize).draft f).Step b t.out Q a (Q.put u a l.regs)) :
    ((t.setLoc a l t.spillSize).emit a).Consistent c allowed f vis (Q.put u a l.regs) := by
  have hset := ht.setLoc hnone hun (tidy_setRegs ht.tidy hlt hwidth hreg hnodup hallowed)
  refine hset.emit hcur hb ?_ ?_ ?_ ?_ hQ hstep
  · have hnot := hun b hb
    rwa [valuesOf_current hcur] at hnot
  · exact (t.func.values_size_setLoc a _).symm ▸ hlt
  · exact (t.func.kin_setLoc a a _).block.trans hblock
  · exact fun hsmall => absurd hsmall (not_lt.mpr hnew)

/-- An operand is found in registers afterwards: where it was, reloaded, or made anew. -/
theorem useInReg_spec (hf : f.SsaForm) (h : Runs (c.useInReg u) s a s')
    (ht : s.outline.Consistent c allowed f vis s.regs.occupant?)
    (hregs : RegsFit s.outline f vis s.regs) (hcur : s.current = some b) (hb : b ∈ vis)
    (hu : Placed f vis s u) (hav : f.AtEnd u b) (hallowed : s.regs.allocatable = allowed) :
    InRegs c allowed f vis s u a s' := by
  rw [useInReg, runs_get_bind] at h
  split at h
  · rename_i r rest hr
    obtain ⟨_, hset, rfl⟩ := runs_bind_pure.mp h
    obtain rfl := runs_set.mp hset
    have hheld := held_of_regsOf hregs hr
    rw [← hr]
    have hocc : (s.lockAll (s.regs.regsOf u)).regs.occupant? = s.regs.occupant? := (lockAll_keeps _ s.regs).2
    refine ⟨?_, .refl _ f, regsFit_lockAll hregs u, ?_, ?_, ?_, ?_⟩
    · rw [hocc]
      exact ht
    · rw [hocc]
      exact hheld
    · intro q hq
      obtain ⟨p, hp⟩ := mem_iff_getElem?.mp hq
      have hclaim := hheld.2 p q hp
      exact (isLocked_lockAll _ q s.regs).mpr (.inr ⟨mem_regsOf.mpr ⟨_, hclaim, rfl⟩, inUse_of_occupant? hclaim⟩)
    · intro q o hlock ho
      rw [hocc]
      exact ⟨ho, (isLocked_lockAll _ q s.regs).mpr (.inl hlock)⟩
    · exact (lockAll_keeps _ s.regs).1
  · rename_i hnil
    obtain ⟨words, s0, hparts, h0⟩ := runs_bind.mp h
    obtain ⟨copy, s1, hbring, h1⟩ := runs_bind.mp h0
    obtain ⟨rs, s2, htake, h2⟩ := runs_bind.mp h1
    obtain ⟨_, s3, hmod, hret⟩ := runs_bind.mp h2
    obtain ⟨rfl, hwords, hpos⟩ := runs_parts hparts
    obtain ⟨rfl, rfl⟩ := runs_pure.mp hret
    have hfinal := runs_modify.mp hmod
    have hfresh : ∀ r o, s0.regs.occupant? r = some o → o.value ≠ u := by
      intro r o ho heq
      have hmem := mem_regsOf.mpr ⟨o, ho, heq⟩
      rw [hnil] at hmem
      cases hmem
    have hbr := bringBack_spec hf hbring ht hcur hu.1
    have hfit1 := hbr.regs ▸ hregs.onward hbr.onward
    obtain ⟨hcleared, hlen, hnodup, hrs⟩ := takeRegs_spec hf htake hbr.consistent hfit1
    have hagrees := hcleared.onward.agrees a hbr.lt
    have hle : f.values.size ≤ a := by
      rw [hbr.new]
      exact ht.size_le
    have hcur2 := (hcleared.onward.current.trans hbr.onward.current).trans hcur
    obtain ⟨l, hl⟩ := ValueLoc.exists_ofRegs? (show rs.length ≠ 0 by rw [hlen]; exact hpos)
      (by rw [hlen, hwords]; exact c.types.parts_le_two _)
    obtain ⟨hlregs, hlreg⟩ := ValueLoc.regs_of_ofRegs? hl
    have hout : s'.outline = (s2.outline.setLoc a l s2.spillSize).emit a := by
      rw [hfinal, hl]
      rfl
    have hun : ∀ b ∈ vis, a ∉ s2.outline.valuesOf b := by
      intro b' hb' hmem
      rcases hcleared.onward.added b' a hmem with hmem | hge
      · rw [hbr.valuesOf, hbr.new] at hmem
        exact lt_irrefl _ (ht.lt hb' hmem)
      · exact absurd hbr.lt (not_lt.mpr hge)
    have hocc : s'.regs.occupant? = put s2.regs.occupant? u a rs := by
      rw [hfinal]
      exact (lockAll_keeps rs _).2.trans (occupant?_hold s2.regs u a false hnodup)
    have hlock : ∀ r, s'.regs.isLocked r ↔ s2.regs.isLocked r ∨ r ∈ rs := by
      rw [hfinal]
      exact s2.regs.isLocked_lockAll_hold u a false hnodup
    have hstep := hbr.step (Q := s2.regs.occupant?) hf hcleared.consistent hcleared.onward hle
      hu hav (ht.kin u hu.1).ty hcur2 hlreg
    have hcons : s'.outline.Consistent c allowed f vis s'.regs.occupant? := by
      rw [hout, hocc, ← hlregs]
      refine consistent_emitCopy hcleared.consistent hcur2 hb hle
        (hbr.lt.trans_le hcleared.onward.size_le) (hagrees.block.trans hbr.block) hun
        (hagrees.loc.trans hbr.loc) ?_ hlreg (hlregs ▸ hnodup) ?_ ?_ hstep
      · rw [hlregs, hlen, hwords]
        exact congrArg c.types.parts (hagrees.ty.trans hbr.ty).symm
      · intro r hr
        rw [hlregs] at hr
        rw [← hallowed, ← hbr.regs]
        exact (hrs r hr).2.1
      · rw [← hbr.regs]
        exact hcleared.shrinks.within
    have honward : s0.outline.Onward s'.outline f := by
      rw [hout]
      refine Outline.Onward.emit ?_ ?_ hcur2 hbr.new.symm.le hle
      · exact (hbr.onward.trans hcleared.onward).setLoc hbr.new.symm.le
      · exact hcleared.consistent.spans.setLoc a _
    have hregsOf : s'.func.regsOf a = rs := by
      refine (regsOf_of_loc ?_).trans hlregs
      change (s'.outline.func.value a).loc = some l
      rw [hout]
      exact congrArg Value.loc (value_setLoc_self (hbr.lt.trans_le hcleared.onward.size_le) (some l))
    have hne : rs ≠ [] := by
      rintro rfl
      exact hpos hlen.symm
    have hfit : RegsFit s'.outline f vis s'.regs := by
      have hkept : RegsFit ((s2.outline.setLoc a l s2.spillSize).emit a) f vis s2.regs :=
        hcleared.regs.emit_setLoc hcleared.consistent.spans hcur2 (hagrees.loc.trans hbr.loc)
      rw [← hout] at hkept
      refine regsFit_hold hkept hnodup hne hregsOf (fun r hr => (hrs r hr).1) (hu.onward honward) ?_ hocc (.inr hlock)
      · intro r o ho
        exact hfresh r o (hbr.regs ▸ hcleared.shrinks.within r o ho)
    refine ⟨hcons, honward, hfit, ?_, ?_, ?_, ?_⟩
    · rw [hocc]
      change Claims.Hold _ u a (s'.func.regsOf a)
      rw [hregsOf]
      exact hold_put hnodup hne
    · intro r hr
      rw [hregsOf] at hr
      exact (hlock r).mpr (.inr hr)
    · intro r o hr ho
      rw [← hbr.regs] at hr ho
      obtain ⟨ho, hr⟩ := hcleared.shrinks.locked r o hr ho
      refine ⟨?_, (hlock r).mpr (.inl hr)⟩
      rw [hocc, put_of_not_mem, ho]
      intro hmem
      rw [(hrs r hmem).1] at ho
      cases ho
    · rw [← hbr.regs, ← hcleared.shrinks.allocatable, hfinal]
      exact (lockAll_keeps rs _).1.trans (hold_keeps u a false rs 0 s2.regs).1

end Setting

end SsaCodegen
