import SsaCodegen.Proofs.Allocation.Changes

/-! Values get into registers and out of them. Whatever is evicted, the values that are locked stay. -/

namespace SsaCodegen

open List Registers Outline

/-- Two register files differ at most in which registers are dirty. -/
structure Registers.Alike (x y : Registers) : Prop where
  allocatable : y.allocatable = x.allocatable
  occupant? : y.occupant? = x.occupant?
  isLocked : ∀ r, y.isLocked r = x.isLocked r

protected theorem Registers.Alike.refl (x : Registers) : x.Alike x := ⟨rfl, rfl, fun _ => rfl⟩

theorem Registers.alike_markClean (x : Registers) (v : ValueId) : x.Alike (x.markClean v) :=
  ⟨rfl, rfl, fun _ => rfl⟩

/-- The registers hold whole values that have been computed, and those of a value are locked together. -/
structure RegsFit (t : Outline) (f : Func) (vis : List BlockId) (regs : Registers) : Prop where
  founded : t.Founded f vis regs.occupant?
  locks : ∀ r r' o o', regs.isLocked r → regs.occupant? r = some o →
    regs.occupant? r' = some o' → o'.value = o.value → regs.isLocked r' = true

namespace RegsFit

variable {t t' : Outline} {f : Func} {vis : List BlockId} {regs regs' : Registers} {v : ValueId}

section

variable (h : RegsFit t f vis regs)

include h

theorem onward (ht : t.Onward t' f) : RegsFit t' f vis regs :=
  ⟨ht.founded h.founded, h.locks⟩

theorem extend {fixed : ValueId → Prop} (hd : (t.draft f).Extends (t'.draft f) fixed)
    (hvals : ∀ b ∈ vis, ∀ v ∈ t.valuesOf b, v ∈ t'.valuesOf b) : RegsFit t' f vis regs :=
  ⟨h.founded.extend hd hvals, h.locks⟩

theorem emit_setLoc {b : BlockId} {w : ValueId} {l : ValueLoc} {limit : Nat} (hspans : t.func.Spans)
    (hcur : t.current = some b) (hnone : (t.func.value w).loc = none) :
    RegsFit ((t.setLoc w l limit).emit w) f vis regs := by
  have hd : (t.draft f).Extends (((t.setLoc w l limit).emit w).draft f) fun _ => False :=
    extends_setLoc limit hnone
  have hr := relists_emit (f := f) (t := t.setLoc w l limit) (hspans.setLoc w _) hcur w
  exact h.extend hd fun b' _ => hr.members_all b'

theorem alike (ha : regs.Alike regs') : RegsFit t f vis regs' := by
  constructor
  · rw [ha.occupant?]
    exact h.founded
  · intro r r' o o'
    rw [ha.isLocked, ha.isLocked, ha.occupant?]
    exact h.locks r r' o o'

theorem release (v : ValueId) : RegsFit t f vis (regs.release v) := by
  constructor
  · constructor
    · intro r o ho
      obtain ⟨ho, hne⟩ := occupant?_release_eq_some.mp ho
      obtain ⟨hreg, hheld⟩ := h.founded.whole r o ho
      refine ⟨hreg, hheld.1, fun p q hq => ?_⟩
      exact occupant?_release_eq_some.mpr ⟨hheld.2 p q hq, hne⟩
    · intro r o ho
      exact h.founded.placed r o (occupant?_release_eq_some.mp ho).1
  · intro r r' o o' hlock ho ho' heq
    obtain ⟨ho, hne⟩ := occupant?_release_eq_some.mp ho
    obtain ⟨ho', hne'⟩ := occupant?_release_eq_some.mp ho'
    rw [isLocked_release_of_ne ho' hne']
    exact h.locks r r' o o' (isLocked_release hlock) ho ho' heq

end

end RegsFit

namespace Setting

variable {c : Setting} {allowed : RegSet} {f : Func} {vis : List BlockId} {P : Claims}
  {s s' : Allocator} {b : BlockId} {u v a : ValueId}

theorem runs_reject {α : Type} {fault : AllocationFault} {x : α} : Runs (reject fault : Alloc α) s x s' ↔ False := by
  rw [reject, runs_get_bind]
  exact runs_throw

theorem runs_parts {n : Nat} (h : Runs (c.parts v) s n s') :
    s' = s ∧ n = c.types.parts (s.func.value v).ty ∧ n ≠ 0 := by
  rw [parts, runs_get_bind] at h
  dsimp only at h
  split at h
  · exact (runs_throw.mp h).elim
  · rename_i hne
    obtain ⟨rfl, rfl⟩ := runs_pure.mp h
    exact ⟨rfl, rfl, hne⟩

theorem runs_intPayload {k : Int} (h : Runs (intPayload v) s k s') : s' = s ∧ (s.func.value v).payload = .int k := by
  rw [intPayload, runs_get_bind] at h
  split at h
  · rename_i x hx
    obtain ⟨rfl, rfl⟩ := runs_pure.mp h
    refine ⟨rfl, ?_⟩
    cases hp : (s'.func.value v).payload with
    | int k' =>
      rw [hp] at hx
      rw [Option.some.inj hx]
    | _ =>
      rw [hp] at hx
      cases hx
  · exact (runs_reject.mp h).elim

theorem outline_insertAfter (s : Allocator) (v h : ValueId) :
    ((s.insertAfter v h).setHome v h).outline = s.outline.withStore (s.func.value v).block v h := by
  rw [Allocator.insertAfter]
  by_cases hcur : s.current = some (s.func.value v).block
  · rw [if_pos (beq_iff_eq.mpr hcur)]
    exact (if_pos hcur).symm
  · rw [if_neg fun heq => hcur (beq_iff_eq.mp heq)]
    exact (if_neg hcur).symm

theorem regs_insertAfter (s : Allocator) (v h : ValueId) : (s.insertAfter v h).regs = s.regs := by
  rw [Allocator.insertAfter]
  split <;> rfl

theorem runs_spill (h : Runs (c.spill v) s a s') (hv : v < s.func.values.size) : let x := s.func.value v
    c.types.parts x.ty ≠ 0 ∧ a = s.func.values.size ∧ s'.regs = s.regs.markClean v ∧
      s'.outline = ((s.outline.create x.block .storeReg x.ty [v] .none).setLoc a
        (.stack (.spill s.spillSize)) (s.spillSize + c.types.parts x.ty * wordSize)).withStore x.block v a := by
  intro x
  rw [spill, runs_bind] at h
  obtain ⟨n, t, hparts, hrun⟩ := h
  obtain ⟨rfl, rfl, hn⟩ := runs_parts hparts
  obtain ⟨rfl, rfl⟩ := Prod.mk.inj (runs_modifyGet.mp hrun)
  refine ⟨hn, rfl, ?_, ?_⟩
  · exact congrArg (markClean · v) (regs_insertAfter _ v _)
  · have hold : (((t.func.newValue x.block .storeReg x.ty [v] .none).2.setLoc t.func.values.size
        (some (.stack (.spill t.spillSize)))).value v).block = x.block := by
      rw [(Func.kin_setLoc _ _ _ _).block, Func.value_newValue_old _ _ _ _ _ _ hv]
    refine (outline_insertAfter _ v _).trans ?_
    exact congrArg (withStore _ · v _) hold

def Placed (f : Func) (vis : List BlockId) (s : Allocator) (v : ValueId) : Prop :=
  v < f.values.size ∧ ∃ b ∈ vis, v ∈ s.outline.valuesOf b

theorem Placed.onward (hv : Placed f vis s v) (h : s.outline.Onward s'.outline f) : Placed f vis s' v := by
  obtain ⟨hlt, b, hb, hmem⟩ := hv
  exact ⟨hlt, b, hb, h.members b v hmem⟩

theorem tidy_spillSlot {g : Func} {limit : Nat} (h : Tidy c allowed g limit)
    (hv : v < g.values.size) (hsized : c.types.parts (g.value v).ty ≠ 0) :
    Tidy c allowed (g.setLoc v (some (.stack (.spill limit)))) (limit + c.types.parts (g.value v).ty * wordSize) := by
  refine h.setLoc (Nat.le_add_right _ _) hv nodup_nil (fun hne => absurd rfl hne)
    (fun _ => hsized) nofun (.inr ⟨nofun, fun slot hslot => ?_⟩) fun o ho => ?_
  · cases hslot
    exact ⟨limit, rfl⟩
  · cases ho
    exact ⟨le_rfl, le_rfl⟩

/-- From `s` on, `a` has become the home of `v`. -/
structure Homed (c : Setting) (allowed : RegSet) (f : Func) (vis : List BlockId) (P : Claims)
    (s : Allocator) (v a : ValueId) (s' : Allocator) : Prop where
  consistent : s'.outline.Consistent c allowed f vis P
  onward : s.outline.Onward s'.outline f
  alike : s.regs.Alike s'.regs
  home : s'.homes.lookup v = some a
  elsewhere : ∀ b, b ∉ vis → s'.outline.valuesOf b = s.outline.valuesOf b

/-- A value that is in registers is stored to a slot of its own. -/
theorem spill_spec (hf : f.SsaForm) (h : Runs (c.spill v) s a s')
    (ht : s.outline.Consistent c allowed f vis P) (hv : Placed f vis s v)
    (hnone : s.homes.lookup v = none) (hregs : s.func.regsOf v ≠ []) : Homed c allowed f vis P s v a s' := by
  obtain ⟨hlt, b, hb, hmem⟩ := hv
  have hsize := hlt.trans_le ht.size_le
  obtain ⟨hparts, ha, hregs', hout⟩ := runs_spill h hsize
  have hblock : (s.func.value v).block = b := ((ht.visited b hb).placed v hmem).2
  rw [hblock] at hout
  -- first the store is made, then it gets a slot, then it is put in its place
  let made := s.outline.create b .storeReg (s.func.value v).ty [v] .none
  let slotted := made.setLoc a (.stack (.spill s.spillSize))
    (s.spillSize + c.types.parts (s.func.value v).ty * wordSize)
  have hmade : made.Consistent c allowed f vis P := ht.create b .storeReg _ [v] .none hf
  have hnew : made.func.value a =
      ⟨.storeReg, (s.func.value v).ty, (s.func.operands.add [v]).1, .none, 0, b, none⟩ := by
    rw [ha]
    exact Func.value_newValue_new s.func b .storeReg _ [v] .none
  have hlta : a < made.func.values.size := by
    rw [ha, size_create]
    exact Nat.lt_succ_self _
  have hunplaced : ∀ b' ∈ vis, a ∉ s.outline.valuesOf b' := by
    intro b' hb' hmem'
    rw [ha] at hmem'
    exact lt_irrefl _ (ht.lt hb' hmem')
  have hslotted : slotted.Consistent c allowed f vis P := by
    refine hmade.setLoc (by rw [hnew]) hunplaced ?_
    have htidy := tidy_spillSlot hmade.tidy hlta (by rw [hnew]; exact hparts)
    rw [hnew] at htidy
    exact htidy
  have honward : s.outline.Onward slotted f := (onward_create b .storeReg _ [v] .none ht).setLoc ha.symm.le
  have hkeep := honward.agrees v hsize
  have hself : slotted.func.value a = { made.func.value a with loc := some (.stack (.spill s.spillSize)) } :=
    Func.value_setLoc_self hlta _
  have hargs : slotted.func.args a = [v] := by
    refine (made.func.args_setLoc a a _).trans ?_
    rw [ha]
    exact Func.args_newValue_new b .storeReg _ [v] .none
  obtain ⟨hstored, hr, hadded, horiginals⟩ := hslotted.withStore hf hb hmem
    hlt (by rwa [Draft.regsOf_eq_of_loc hkeep.loc]) hnone (by rw [ha]; exact ht.size_le)
    ((made.func.values_size_setLoc a _).symm ▸ hlta) (by rw [hself, hnew]) (hunplaced b hb)
    (by rw [hself, hnew]) hargs (by rw [hself, hnew]; exact (ht.kin v hlt).ty) (by rw [hself])
  refine ⟨hout ▸ hstored, hout ▸ honward.relist hr (fun w hw => ?_) horiginals, ?_, ?_, fun d hd => ?_⟩
  · refine (hadded w hw).imp_right fun heq => ?_
    rw [heq, ha]
    exact le_rfl
  · rw [hregs']
    exact s.regs.alike_markClean v
  · change s'.outline.homes.lookup v = some a
    rw [hout, homes_withStore, lookup_cons_self]
  · rw [hout]
    exact hr.valuesOf_other fun heq => hd (heq ▸ hb)

theorem homed_self {l : ValueLoc} (ht : s.outline.Consistent c allowed f vis P)
    (hv : v < f.values.size) (hnone : s.homes.lookup v = none) (hl : (s.func.value v).loc = some l)
    (hreg : l.isReg = false) : Homed c allowed f vis P s v v (s.setHome v v) :=
  ⟨ht.setHome hv hnone hl hreg, onward_setHome hnone, .refl _, lookup_cons_self, fun _ _ => rfl⟩

theorem home_spec (hf : f.SsaForm) (h : Runs (c.home v) s a s')
    (ht : s.outline.Consistent c allowed f vis P) (hv : Placed f vis s v) :
    Homed c allowed f vis P s v a s' := by
  rw [home, runs_get_bind] at h
  split at h
  · rename_i hlook
    obtain ⟨rfl, rfl⟩ := runs_pure.mp h
    exact ⟨ht, .refl _ f, .refl _, hlook, fun _ _ => rfl⟩
  · rename_i hnone
    split at h
    · rename_i hl
      obtain ⟨u, hset, rfl⟩ := runs_bind_pure.mp h
      obtain rfl := runs_set.mp hset
      exact homed_self ht hv.1 hnone hl rfl
    · rename_i hl
      obtain ⟨u, hset, rfl⟩ := runs_bind_pure.mp h
      obtain rfl := runs_set.mp hset
      exact homed_self ht hv.1 hnone hl rfl
    · rename_i l hstack himm hl
      refine spill_spec hf h ht hv hnone ?_
      rw [Func.regsOf_of_loc hl]
      cases l with
      | reg r => exact cons_ne_nil _ _
      | pair lo hi => exact cons_ne_nil _ _
      | stack slot => exact absurd rfl (hstack slot)
      | imm k => exact absurd rfl (himm k)
    · exact (runs_reject.mp h).elim

end Setting

end SsaCodegen
