import SsaCodegen.Proofs.Allocation.Locations
import SsaCodegen.Proofs.Placement

/-! Where parameters, arguments of calls and results are passed. No two of them overlap. -/

namespace SsaCodegen

open List CallLayout Placement

theorem Placement.words_ofType {types : TypeTable} {ty : TypeId} (h : types.parts ty ≠ 0) :
    (ofType types ty).words = types.parts ty := by
  rw [TypeTable.parts] at h ⊢
  split at h
  · exact absurd rfl h
  · exact absurd rfl h
  · dsimp only at h ⊢
    split at h
    · exact absurd rfl h
    · rename_i hsize
      change max ((types.size ty + wordSize - 1) / wordSize) 1 =
        if types.size ty = 0 ∨ maxRegisterSize < types.size ty then 0 else _
      rw [if_neg hsize]
      rw [wordSize] at h ⊢
      omega

namespace Placement

variable {p : Placement} {r : Reg}

theorem nodup_regs (h : p.reg = some r) (hle : r.val + p.words ≤ 32) : p.regs.Nodup := by
  rw [regs_of_reg h]
  refine nodup_range.map_on fun x hx y hy hxy => ?_
  rw [mem_range] at hx hy
  have heq : (r.val + x) % 32 = (r.val + y) % 32 := congrArg Fin.val hxy
  omega

theorem parts_outgoing (h : p.reg = some r) (hp : p.words = 1 ∨ p.words = 2) :
    ∃ l, p.outgoing? = some l ∧ (List.range p.words).map l.part = p.regs.map .reg := by
  rw [outgoing?, h, regs_of_reg h]
  rcases hp with hp | hp <;> rw [hp] <;> exact ⟨_, rfl, rfl⟩

end Placement

namespace Assigner

theorem results_assignArg (a : Assigner) (role : ArgRole) (p : Placement) :
    (a.assignArg role p).2.results = a.results := by
  cases role with
  | structReturn => rfl
  | variadic => rfl
  | plain =>
    rw [assignArg]
    split <;> rfl

/-- A place for an argument from `index` on, in a stack area that ends at `high`. Only the first argument can be
the address of an indirect result, which is passed past the other registers. -/
def Free (a : Assigner) (index high : Nat) (d : WordLoc) : Prop :=
  (∃ r : Reg, d = .reg r ∧ a.args ≤ r.val ∧ r.val < if index = 0 then 10 else 8) ∨
    ∃ o, d = .stack (.outgoing o) ∧ a.stack ≤ o ∧ 8 ∣ o ∧ o + 8 ≤ high

/-- The places `ds` of one argument are free, and with the next state all later arguments are elsewhere. -/
structure Takes (a b : Assigner) (index high : Nat) (ds : List WordLoc) : Prop where
  nodup : ds.Nodup
  free : ∀ d ∈ ds, a.Free index high d
  later : ∀ d, b.Free (index + 1) high d → a.Free index high d ∧ d ∉ ds

variable {a b : Assigner} {p : Placement} {role : ArgRole} {index high : Nat}

theorem le_last (index : Nat) : 8 ≤ if index = 0 then 10 else 8 := by split <;> decide

theorem takes_regs {r : Reg} (hreg : p.reg = some r) (hle : a.args ≤ r.val)
    (hend : r.val + p.words ≤ if index = 0 then 10 else 8) (hstack : b.stack = a.stack)
    (hlater : ∀ q : Reg, b.args ≤ q.val → q.val < 8 → a.args ≤ q.val ∧ ¬(r.val ≤ q.val ∧ q.val < r.val + p.words)) :
    a.Takes b index high (p.regs.map .reg) := by
  have hfit : r.val + p.words ≤ 32 := by split at hend <;> omega
  have hmem := mem_regs hreg hfit
  refine ⟨(nodup_regs hreg hfit).map fun _ _ => WordLoc.reg.inj, forall_mem_map.mpr fun q hq => ?_, fun d hd => ?_⟩
  · obtain ⟨hge, hlt⟩ := (hmem q).mp hq
    exact .inl ⟨q, rfl, hle.trans hge, hlt.trans_le hend⟩
  · rcases hd with ⟨q, rfl, hge, hlt⟩ | ⟨o, rfl, ho⟩
    · obtain ⟨hargs, hnot⟩ := hlater q hge hlt
      refine ⟨.inl ⟨q, rfl, hargs, hlt.trans_le (le_last index)⟩, fun hd => hnot ((hmem q).mp ?_)⟩
      obtain ⟨_, hq, heq⟩ := mem_map.mp hd
      exact WordLoc.reg.inj heq ▸ hq
    · exact ⟨.inr ⟨o, rfl, hstack ▸ ho⟩, by simp⟩

theorem takes_stack {o n : Nat} (hargs : a.args ≤ b.args) (hle : a.stack ≤ o) (hword : 8 ∣ o)
    (hstack : o + n * 8 ≤ b.stack) (hhigh : b.stack ≤ high) :
    a.Takes b index high ((List.range n).map (ValueLoc.stack (.outgoing o)).part) := by
  refine ⟨nodup_range.map fun i j hij => ?_, forall_mem_map.mpr fun k hk => ?_, fun d hd => ?_⟩
  · simp only [ValueLoc.part, StackSlot.word, WordLoc.stack.injEq, StackSlot.outgoing.injEq] at hij
    omega
  · rw [mem_range] at hk
    exact .inr ⟨o + k * 8, rfl, by omega, by omega, by omega⟩
  · rcases hd with ⟨q, rfl, hge, hlt⟩ | ⟨o', rfl, hge, ho⟩
    · exact ⟨.inl ⟨q, rfl, hargs.trans hge, hlt.trans_le (le_last index)⟩, by simp [ValueLoc.part]⟩
    · refine ⟨.inr ⟨o', rfl, by omega, ho⟩, fun hd => ?_⟩
      obtain ⟨k, hk, heq⟩ := mem_map.mp hd
      rw [mem_range] at hk
      simp only [ValueLoc.part, StackSlot.word, WordLoc.stack.injEq, StackSlot.outgoing.injEq] at heq
      omega

theorem takes_assignArg (hindex : role = .structReturn → index = 0) (ha : a.args ≤ 8)
    (hp : p.words = 1 ∨ p.words = 2) (hhigh : (a.assignArg role p).2.stack ≤ high) :
    ∃ l, (a.assignArg role p).1.outgoing? = some l ∧
      a.Takes (a.assignArg role p).2 index high ((List.range p.words).map l.part) := by
  -- the words of an argument in registers are these registers
  have hregs : ∀ {q : Placement} {r : Reg}, q.words = p.words → q.reg = some r →
      a.Takes (a.assignArg role p).2 index high (q.regs.map .reg) → ∃ l, q.outgoing? = some l ∧
        a.Takes (a.assignArg role p).2 index high ((List.range p.words).map l.part) := by
    intro q r hq hreg htakes
    obtain ⟨l, hl, hparts⟩ := parts_outgoing hreg (hq ▸ hp)
    exact ⟨l, hl, hq ▸ hparts ▸ htakes⟩
  rcases a.assignArg_cases role (p := p) (by omega) with ⟨rfl, heq⟩ | ⟨rfl, r, hr, hfit, heq⟩ |
    ⟨args, o, hrole, hle, hword, -, heq⟩
  · rw [heq] at hregs ⊢
    have hx8 : Reg.x8.val = 8 := rfl
    refine hregs rfl rfl (takes_regs rfl ha ?_ rfl fun q hge hlt => ⟨hge, by omega⟩)
    rw [if_pos (hindex rfl)]
    change 8 + p.words ≤ 10
    omega
  · rw [heq] at hregs ⊢
    have hlen : argRegs.length = 8 := rfl
    refine hregs rfl rfl (takes_regs rfl hr.ge ((hr ▸ hlen ▸ hfit).trans (le_last index)) rfl fun q hge _ => ?_)
    dsimp only at hge ⊢
    omega
  · rw [heq] at hhigh ⊢
    refine ⟨_, rfl, takes_stack ?_ hle hword le_rfl hhigh⟩
    rcases hrole with ⟨-, rfl⟩ | ⟨-, rfl⟩
    · exact ha
    · exact le_rfl

end Assigner

namespace Signature

variable {types : TypeTable} {func : String} {f : Func} {sig : Signature} {i : Nat} {l : ValueLoc}

theorem assignParams_eq : ∀ {tys : List TypeId} {a a' : Assigner} {index : Nat} {ps : List Placement},
    assignParams func types a index tys = .ok (ps, a') → (∀ ty ∈ tys, types.parts (passedType types ty) ≠ 0) ∧
      a.assignAll (tys.map fun ty =>
        (.plain, types.size (passedType types ty), types.align (passedType types ty))) =
        (ps.map (Prod.mk .plain), a')
  | [], a, a', index, ps, h => by
    cases h
    exact ⟨forall_mem_nil _, rfl⟩
  | ty :: tys, a, a', index, ps, h => by
    rw [assignParams] at h
    dsimp only at h
    split at h
    · cases h
    · next hparts =>
      obtain ⟨⟨qs, a2⟩, hrest, h⟩ := except_bind_eq_ok.mp h
      cases h
      obtain ⟨hall, heq⟩ := assignParams_eq hrest
      refine ⟨forall_mem_cons.mpr ⟨hparts, hall⟩, ?_⟩
      rw [ofType] at heq
      rw [map_cons, Assigner.assignAll_cons, heq]
      rfl

section

variable (h : Signature.of types f = .ok sig)

include h

theorem assigner_of : ∃ a, assignParams f.name types .new 0 f.params = .ok (sig.params, a) ∧
      sig.stackSize = a.stackSize ∧
      ((f.result = TypeId.void ∨ types.isMemoryAggregate f.result) ∧ sig.result = none ∨
        f.result ≠ TypeId.void ∧ types.isMemoryAggregate f.result = false ∧ types.parts f.result ≠ 0 ∧
          sig.result = some (a.assignResult (.ofType types f.result)).1) := by
  obtain ⟨⟨ps, a⟩, hparams, h⟩ := except_bind_eq_ok.mp h
  refine ⟨a, ?_⟩
  change (if f.result = TypeId.void then _ else _ : Except CompileError Signature) = _ at h
  split at h
  · rename_i hvoid
    cases h
    exact ⟨hparams, rfl, .inl ⟨.inl hvoid, rfl⟩⟩
  · rename_i hvoid
    split at h
    · rename_i hmem
      cases h
      exact ⟨hparams, rfl, .inl ⟨.inr hmem, rfl⟩⟩
    · rename_i hmem
      split at h
      · cases h
      · rename_i hparts
        cases h
        exact ⟨hparams, rfl, .inr ⟨hvoid, Bool.eq_false_iff.mpr hmem, hparts, rfl⟩⟩

theorem params_of : (sig.params.Pairwise fun p q => Earlier (.plain, p) (.plain, q)) ∧
      ∃ high, ∀ (i : Nat) p, sig.params[i]? = some p → p.Within 0 0 high .plain ∧ ∃ ty, f.params[i]? = some ty ∧
        types.parts (passedType types ty) ≠ 0 ∧ p.words = types.parts (passedType types ty) := by
  obtain ⟨a, hparams, -⟩ := assigner_of h
  obtain ⟨hparts, heq⟩ := assignParams_eq hparams
  obtain ⟨hmap, -, hpairs, hall⟩ := Assigner.assignAll_spec (f.params.map fun ty =>
    (.plain, types.size (passedType types ty), types.align (passedType types ty)))
    (show Assigner.new.args ≤ _ from Nat.zero_le _)
  rw [heq] at hmap hpairs hall
  refine ⟨pairwise_map.mp hpairs, a.stack, fun i p hp => ?_⟩
  obtain ⟨hwords, hwithin⟩ := hall _ (mem_map_of_mem (mem_of_getElem? hp))
  have hget := congrArg (·[i]?) hmap
  rw [map_map, getElem?_map, getElem?_map, hp] at hget
  obtain ⟨ty, hty, hsize⟩ := Option.map_eq_some_iff.mp hget.symm
  have hne := hparts ty (mem_of_getElem? hty)
  refine ⟨hwithin, ty, hty, hne, hwords.trans (Eq.trans ?_ (words_ofType hne))⟩
  obtain ⟨-, hsize⟩ := Prod.mk.inj hsize
  rw [ofType, (Prod.mk.inj hsize).1, (Prod.mk.inj hsize).2]

theorem placement_of_location (hl : sig.paramLocation? i = some l) :
    ∃ p ty high, sig.params[i]? = some p ∧ p.incoming? = some l ∧ f.params[i]? = some ty ∧
      types.parts (passedType types ty) ≠ 0 ∧ p.words = types.parts (passedType types ty) ∧
      p.Within 0 0 high .plain := by
  obtain ⟨-, high, hall⟩ := params_of h
  obtain ⟨p, hp, hin⟩ := Option.bind_eq_some_iff.mp hl
  obtain ⟨hwithin, ty, hty, hne, hwords⟩ := hall i p hp
  exact ⟨p, ty, high, hp, hin, hty, hne, hwords, hwithin⟩

end

theorem incoming_cases {p : Placement} {first low high : Nat} (hp : p.Within first low high .plain)
    (hl : p.incoming? = some l) : (∃ r, p.reg = some r ∧ r.val + p.words ≤ 8 ∧ l.regs = p.regs ∧ l.isReg) ∨
      ∃ o, p.stack = some o ∧ wordSize ∣ o ∧ l = .stack (.incoming o) := by
  rw [incoming?] at hl
  cases hp with
  | regs r hr _ _ hle =>
    rw [hr] at hl
    exact .inl ⟨r, hr, hle, (ValueLoc.regs_of_ofRegs? hl).1, (ValueLoc.regs_of_ofRegs? hl).2⟩
  | stack o _ hnone ho hword =>
    rw [hnone, ho] at hl
    exact .inr ⟨o, ho, hword, (Option.some.inj hl).symm⟩

section

variable (h : Signature.of types f = .ok sig) (hl : sig.paramLocation? i = some l)

include h hl

/-- A parameter arrives in registers that carry arguments, or on the stack of the caller. -/
theorem location_of_param : l.regs.Nodup ∧ (∀ r ∈ l.regs, r.val < 8) ∧ (l.isReg ∨ ∃ o, l = .stack (.incoming o)) ∧
      ∃ ty, f.params[i]? = some ty ∧ types.parts (passedType types ty) ≠ 0 ∧
        (l.regs ≠ [] → l.regs.length = types.parts (passedType types ty)) := by
  obtain ⟨p, ty, _, -, hin, hty, hne, hwords, hwithin⟩ := placement_of_location h hl
  rcases incoming_cases hwithin hin with ⟨r, hr, hle, hregs, hreg⟩ | ⟨o, -, -, rfl⟩
  · refine ⟨hregs ▸ nodup_regs hr (by omega), ?_, .inl hreg, ty, hty, hne, fun _ => ?_⟩
    · intro x hx
      rw [hregs, mem_regs hr (by omega)] at hx
      omega
    · rw [hregs, regs_of_reg hr, length_map, length_range, hwords]
  · exact ⟨nodup_nil, nofun, .inr ⟨o, rfl⟩, ty, hty, hne, fun hne => absurd rfl hne⟩

/-- No two parameters share a register or overlap on the stack. -/
theorem locations_apart {j : Nat} {l' : ValueLoc} (hl' : sig.paramLocation? j = some l') (hij : i < j) :
    (∀ r ∈ l.regs, r ∉ l'.regs) ∧ ∀ ty o o', f.params[i]? = some ty → l = .stack (.incoming o) →
      l' = .stack (.incoming o') → o + types.parts (passedType types ty) * wordSize ≤ o' := by
  obtain ⟨p, ty, _, hp, hin, hty, -, hwords, hwithin⟩ := placement_of_location h hl
  obtain ⟨q, -, _, hq, hin', -, -, -, hwithin'⟩ := placement_of_location h hl'
  have hahead : Earlier (.plain, p) (.plain, q) := by
    obtain ⟨hi, rfl⟩ := List.getElem?_eq_some_iff.mp hp
    obtain ⟨hj, rfl⟩ := List.getElem?_eq_some_iff.mp hq
    exact pairwise_iff_getElem.mp (params_of h).1 i j hi hj hij
  rcases incoming_cases hwithin hin with ⟨r, hr, hle, hregs, hreg⟩ | ⟨o, ho, -, rfl⟩
  · refine ⟨fun x hx => ?_, ?_⟩
    · rcases incoming_cases hwithin' hin' with ⟨r', hr', hle', hregs', -⟩ | ⟨o', -, -, rfl⟩
      · have hlt : r.val + p.words ≤ r'.val := hahead.regs rfl rfl r r' hr hr'
        rw [hregs, mem_regs hr (by omega)] at hx
        rw [hregs', mem_regs hr' (by omega)]
        omega
      · exact not_mem_nil
    · rintro ty o o' - rfl
      cases hreg
  · refine ⟨nofun, ?_⟩
    rintro ty' _ o' hty' ⟨⟩ rfl
    rw [hty, Option.some_inj] at hty'
    subst hty'
    rcases incoming_cases hwithin' hin' with ⟨r', -, -, -, hreg⟩ | ⟨o'', ho'', -, heq⟩
    · cases hreg
    · cases heq
      rw [← hwords]
      exact hahead.stack o o' ho ho''

end

end Signature

namespace CallLayout

variable {types : TypeTable} {f : Func} {v : ValueId} {layout : CallLayout} {callee : Callee}
  {a : Assigner} {ty : TypeId} {l : ValueLoc}

theorem assignArgs_cons {u : ValueId} {us : List ValueId} {a' : Assigner} {index : Nat} {words : List ArgWord}
    (h : assignArgs f types v callee a index (u :: us) = .ok (words, a')) : types.parts (f.value u).ty ≠ 0 ∧
      let r := a.assignArg (argRole callee index) (.ofType types (f.value u).ty)
      ∃ more, assignArgs f types v callee r.2 (index + 1) us = .ok (more, a') ∧ words =
        (match r.1.outgoing? with
          | none => []
          | some loc => (List.range (types.parts (f.value u).ty)).map fun part => ⟨u, part, loc.part part⟩) ++
          more := by
  rw [assignArgs] at h
  split at h
  · cases h
  · next hparts =>
    obtain ⟨⟨more, a2⟩, hrest, h⟩ := except_bind_eq_ok.mp h
    cases h
    exact ⟨hparts, more, hrest, rfl⟩

theorem results_assignArgs : ∀ {us : List ValueId} {a a' : Assigner} {index : Nat}
    {words : List ArgWord}, assignArgs f types v callee a index us = .ok (words, a') → a'.results = a.results
  | [], a, a', index, words, h => by
    cases h
    rfl
  | u :: us, a, a', index, words, h => by
    obtain ⟨-, more, hrest, -⟩ := assignArgs_cons h
    exact (results_assignArgs hrest).trans (a.results_assignArg ..)

theorem words_assignArgs : ∀ {us : List ValueId} {a a' : Assigner} {index : Nat}
    {words : List ArgWord}, assignArgs f types v callee a index us = .ok (words, a') → a.args ≤ 8 →
    a.stack ≤ a'.stack ∧ (words.map ArgWord.dest).Nodup ∧ ∀ w ∈ words,
      w.value ∈ us ∧ w.part < types.parts (f.value w.value).ty ∧ a.Free index a'.stack w.dest
  | [], a, a', index, words, h, _ => by
    cases h
    exact ⟨le_rfl, nodup_nil, forall_mem_nil _⟩
  | u :: us, a, a', index, words, h, ha => by
    obtain ⟨hparts, more, hrest, rfl⟩ := assignArgs_cons h
    obtain ⟨-, ⟨-, hargs, hstack⟩, -⟩ := a.assignArg_earlier (argRole callee index) ha
      (words_ofSize_pos (types.size (f.value u).ty) (types.align (f.value u).ty))
    obtain ⟨hle, hnodup, hmore⟩ := words_assignArgs hrest hargs
    have hindex : argRole callee index = .structReturn → index = 0 := by
      intro hrole
      rw [argRole] at hrole
      split at hrole
      · next h => exact h.2
      · split at hrole <;> cases hrole
    have hwords := words_ofType hparts
    have htwo := types.parts_le_two (f.value u).ty
    refine ⟨hstack.trans hle, ?_⟩
    obtain ⟨l, hl, hown, hfree, hlater⟩ := Assigner.takes_assignArg hindex ha (by omega) hle
    rw [hl]
    rw [hwords] at hown hfree hlater
    rw [List.map_append, map_map]
    refine ⟨nodup_append.mpr ⟨hown, hnodup, ?_⟩, ?_⟩
    · rintro d hd _ hd' rfl
      obtain ⟨w, hw, rfl⟩ := mem_map.mp hd'
      exact (hlater _ (hmore w hw).2.2).2 hd
    · refine forall_mem_append.mpr ⟨forall_mem_map.mpr fun k hk => ?_, fun w hw => ?_⟩
      · exact ⟨mem_cons_self, mem_range.mp hk, hfree _ (mem_map_of_mem hk)⟩
      · obtain ⟨hmem, hpart, hw⟩ := hmore w hw
        exact ⟨mem_cons_of_mem u hmem, hpart, (hlater _ hw).1⟩

theorem assigner_of (h : of f types v = .ok layout) :
    ∃ callee a, assignArgs f types v callee .new 0 (f.dataArgs v) = .ok (layout.words, a) ∧
      layout.stackSize = a.stackSize ∧ ((f.value v).hasResult = false ∧ layout.result = none ∨
        ∃ l, (a.assignResult (.ofType types (f.value v).ty)).1.outgoing? = some l ∧ layout.result = some l) := by
  rw [of] at h
  dsimp only at h
  split at h
  · next callee hop hpayload =>
    obtain ⟨⟨words, a⟩, hargs, h⟩ := except_bind_eq_ok.mp h
    refine ⟨callee, a, ?_⟩
    split at h
    · split at h
      · next l hl =>
        cases h
        exact ⟨hargs, rfl, .inr ⟨l, hl, rfl⟩⟩
      · cases h
    · next hres =>
      cases h
      exact ⟨hargs, rfl, .inl ⟨Bool.eq_false_iff.mpr hres, rfl⟩⟩
  · cases h

theorem words_of (h : of f types v = .ok layout) : (layout.words.map ArgWord.dest).Nodup ∧
    ∀ w ∈ layout.words, w.value ∈ f.dataArgs v ∧ w.part < types.parts (f.value w.value).ty ∧
      Assigner.new.Free 0 layout.stackSize w.dest := by
  obtain ⟨callee, a, hargs, hsize, -⟩ := assigner_of h
  obtain ⟨-, hnodup, hall⟩ := words_assignArgs hargs (Nat.zero_le 8)
  refine ⟨hnodup, fun w hw => ?_⟩
  obtain ⟨hmem, hpart, hreg | ⟨o, ho, hlow, hword, hle⟩⟩ := hall w hw
  · exact ⟨hmem, hpart, .inl hreg⟩
  · exact ⟨hmem, hpart, .inr ⟨o, ho, hlow, hword, hsize ▸ hle.trans (alignTo_stackAlign _).2⟩⟩

section

variable (ha : a.results = 0) (hl : (a.assignResult (.ofType types ty)).1.outgoing? = some l)

include ha hl

theorem regs_outgoing_result : l.regs = (List.range (ofType types ty).words).map (fun i => Fin.ofNat 32 (0 + i)) ∧
      l.isReg ∧ (ofType types ty).words ≤ 2 := by
  rw [Assigner.assignResult, ha] at hl
  split at hl
  · rename_i hfit
    rw [Nat.zero_add] at hfit
    have hregs := ValueLoc.regs_of_ofRegs? hl
    exact ⟨hregs.1, hregs.2, hfit⟩
  · cases hl

theorem outgoing_result : l.isReg ∧ l.regs.Nodup ∧ (∀ r ∈ l.regs, r.val < 2) ∧
      (types.parts ty ≠ 0 → l.regs.length = types.parts ty) := by
  obtain ⟨hregs, hreg, hle⟩ := regs_outgoing_result ha hl
  have hpos : 0 < (ofType types ty).words := words_ofSize_pos _ _
  have hcases : (ofType types ty).words = 1 ∨ (ofType types ty).words = 2 := by omega
  refine ⟨hreg, ?_, ?_, fun hne => ?_⟩
  · rcases hcases with hw | hw <;> rw [hregs, hw] <;> decide
  · rcases hcases with hw | hw <;> rw [hregs, hw] <;> decide
  · rw [hregs, length_map, length_range, words_ofType hne]

end

theorem result_of (h : of f types v = .ok layout) : (layout.result = none ∧ (f.value v).hasResult = false) ∨
      ∃ l, layout.result = some l ∧ l.isReg ∧ l.regs.Nodup ∧ (∀ r ∈ l.regs, r.val < 2) ∧
        (types.parts (f.value v).ty ≠ 0 → l.regs.length = types.parts (f.value v).ty) := by
  obtain ⟨callee, a, hargs, -, ⟨hres, hnone⟩ | ⟨l, hl, hsome⟩⟩ := assigner_of h
  · exact .inl ⟨hnone, hres⟩
  · exact .inr ⟨l, hsome, outgoing_result (results_assignArgs hargs) hl⟩

end CallLayout

end SsaCodegen
