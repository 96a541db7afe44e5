import SsaCodegen.Proofs.Convention
import SsaCodegen.Proofs.TypeTables

/-! The two sides of a call. Caller and callee hand out places to the same words in the same order, but for
the address of an indirect result, which takes no turn. -/

namespace SsaCodegen

open List Placement CallLayout

variable {a : ValueId} {p : Nat} {l l' : WordLoc}

/-- Value `v` of `f` calls a function with these parameters and this result as it asks for: the address of
an indirect result comes first, then one value for each parameter, and none of them is variadic. -/
structure Func.Calls (f : Func) (types : TypeTable) (v : ValueId) (params : List TypeId) (result : TypeId)
    (callee : Callee) (address : Option ValueId) (args : List ValueId) : Prop where
  op : (f.value v).op = .call
  payload : (f.value v).payload = .callee callee
  operands : f.dataArgs v = address.toList ++ args
  addressed : address.isSome = types.isMemoryAggregate result
  indirect : callee.indirectResult = types.isMemoryAggregate result
  pointer : ∀ a, address = some a → (f.value a).ty = TypeId.ptr
  argTypes : args.map (fun a => (f.value a).ty) = params.map (passedType types)
  fixed : (address.toList ++ args).length ≤ callee.fixedArgs
  ty : (f.value v).ty = if types.isMemoryAggregate result then TypeId.void else result

/-- The word carries word `p` of `a` to the place that the callee knows as `l`. -/
structure ArgWord.Delivers (w : ArgWord) (a : ValueId) (p : Nat) (l : WordLoc) : Prop where
  value : w.value = a
  part : w.part = p
  reg : ∀ r, w.dest = .reg r ↔ l = .reg r
  stack : ∀ o, w.dest = .stack (.outgoing o) ↔ l = .stack (.incoming o)
  passed : (∃ r, w.dest = .reg r) ∨ ∃ o, w.dest = .stack (.outgoing o)

theorem ArgWord.delivers_of_reg {r : Reg} (h : l = .reg r) (h' : l' = .reg r) :
    ArgWord.Delivers ⟨a, p, l⟩ a p l' := by
  subst h h'
  exact ⟨rfl, rfl, fun _ => Iff.rfl, by simp, .inl ⟨r, rfl⟩⟩

theorem ArgWord.delivers_of_stack {o : Nat} (h : l = .stack (.outgoing o)) (h' : l' = .stack (.incoming o)) :
    ArgWord.Delivers ⟨a, p, l⟩ a p l' := by
  subst h h'
  exact ⟨rfl, rfl, by simp, by simp, .inr ⟨o, rfl⟩⟩

/-- A place is seen from both sides, in the same registers or at the same offset. -/
theorem Placement.Within.delivers {p : Placement} {first low high : Nat} (hp : p.Within first low high .plain)
    (hwords : p.words = 1 ∨ p.words = 2) : ∃ out inc, p.outgoing? = some out ∧ p.incoming? = some inc ∧
      ∀ u k, ArgWord.Delivers ⟨u, k, out.part k⟩ u k (inc.part k) := by
  cases hp with
  | regs r hr =>
    -- the same registers on both sides, one or two of them
    have hsome : p.reg.isSome := by rw [hr]; rfl
    obtain ⟨l, hl, hregs⟩ : ∃ l, ValueLoc.ofRegs? p.regs = some l ∧ ∀ k, ∃ q, l.part k = .reg q := by
      rw [regs_of_reg hr]
      rcases hwords with hw | hw <;> rw [hw]
      · exact ⟨_, rfl, fun k => ⟨_, rfl⟩⟩
      · refine ⟨_, rfl, fun k => ?_⟩
        cases k <;> exact ⟨_, rfl⟩
    refine ⟨l, l, ?_, ?_, fun u k => ?_⟩
    · rw [outgoing?, if_pos hsome, hl]
    · rw [incoming?, if_pos hsome, hl]
    · obtain ⟨q, hq⟩ := hregs k
      exact ArgWord.delivers_of_reg hq hq
  | stack o _ hnone ho =>
    have hsome : ¬p.reg.isSome := by simp [hnone]
    refine ⟨.stack (.outgoing o), .stack (.incoming o), ?_, ?_, fun u k => ?_⟩
    · rw [outgoing?, if_neg hsome, ho]
      rfl
    · rw [incoming?, if_neg hsome, ho]
      rfl
    · exact ArgWord.delivers_of_stack rfl rfl

namespace CallLayout

variable {types : TypeTable} {f g : Func} {v : ValueId} {callee : Callee} {address : Option ValueId}
  {args : List ValueId} {sig : Signature} {a : Assigner}

/-- The words of the arguments, group by group, go where the parameters arrive. -/
structure Groups (f : Func) (types : TypeTable) (args : List ValueId) (arrival : Nat → Option ValueLoc)
    (groups : List (List ArgWord)) : Prop where
  length : groups.length = args.length
  delivers : ∀ (i : Nat) u ws, args[i]? = some u → groups[i]? = some ws → ∃ l, arrival i = some l ∧
    ws.length = types.parts (f.value u).ty ∧ ∀ (k : Nat) w, ws[k]? = some w → w.Delivers u k (l.part k)

/-- A call puts everything where a function with this signature expects it. -/
structure Agrees (layout : CallLayout) (f : Func) (types : TypeTable) (sig : Signature)
    (address : Option ValueId) (args : List ValueId) : Prop where
  words : ∃ groups, layout.words = address.toList.map (⟨·, 0, .reg Reg.x8⟩) ++ groups.flatten ∧
    Groups f types args sig.paramLocation? groups
  stackSize : layout.stackSize = sig.stackSize
  result : layout.result = sig.result.bind incoming?
  returned : layout.result.isSome = sig.result.isSome

theorem exists_groups {func : String} : ∀ {us : List ValueId} {tys : List TypeId} {a a' : Assigner}
    {index k : Nat} {ps : List Placement},
    us.map (fun u => (f.value u).ty) = tys.map (passedType types) → a.args ≤ 8 →
    (∀ i, index ≤ i → i < index + us.length → argRole callee i = .plain) →
    Signature.assignParams func types a k tys = .ok (ps, a') →
    ∃ groups, assignArgs f types v callee a index us = .ok (groups.flatten, a') ∧
      Groups f types us (fun i => ps[i]?.bind incoming?) groups
  | [], [], a, a', index, k, ps, _, _, _, h => by
    cases h
    exact ⟨[], rfl, rfl, by simp⟩
  | u :: us, ty :: tys, a, a', index, k, ps, htys, ha, hrole, h => by
    rw [map_cons, map_cons, List.cons.injEq] at htys
    obtain ⟨hty, htys⟩ := htys
    rw [Signature.assignParams] at h
    rw [assignArgs, hrole index le_rfl (by simp), hty]
    split at h
    · cases h
    · rename_i hparts
      rw [if_neg hparts]
      obtain ⟨⟨-, -, hw⟩, ⟨-, hargs', -⟩, hwithin, -⟩ := a.assignArg_earlier .plain ha
        (p := ofType types (passedType types ty)) (words_ofSize_pos _ _)
      have hwords := hw.trans (words_ofType hparts)
      have htwo := types.parts_le_two (passedType types ty)
      generalize a.assignArg .plain (.ofType types (passedType types ty)) = one at *
      dsimp only at *
      obtain ⟨out, inc, hout, hinc, hdel⟩ := hwithin.delivers (by omega)
      obtain ⟨⟨qs, a2⟩, hrest, h⟩ := except_bind_eq_ok.mp h
      cases h
      have hlater : ∀ i, index + 1 ≤ i → i < index + 1 + us.length → argRole callee i = .plain :=
        fun i hle hlt => hrole i (by omega) (by rw [length_cons]; omega)
      obtain ⟨groups, hassign, hgroups⟩ := exists_groups htys hargs' hlater hrest
      let first : List ArgWord :=
        (List.range (types.parts (passedType types ty))).map fun part => ⟨u, part, out.part part⟩
      refine ⟨first :: groups, ?_, ?_, ?_⟩
      · rw [hassign, hout]
        rfl
      · rw [length_cons, length_cons, hgroups.length]
      · intro i w ws hi hws
        cases i with
        | zero =>
          cases hi
          cases hws
          refine ⟨inc, hinc, ?_, fun j w hj => ?_⟩
          · rw [hty, length_map, length_range]
          · rw [getElem?_map] at hj
            obtain ⟨part, hpart, rfl⟩ := Option.map_eq_some_iff.mp hj
            obtain rfl : part = j := by
              obtain ⟨hlt, heq⟩ := List.getElem?_eq_some_iff.mp hpart
              rw [← heq, getElem_range]
            exact hdel u part
        | succ i => exact hgroups.delivers i w ws hi hws

theorem assignArgs_of_calls (htypes : types.Made) (hsig : Signature.of types g = .ok sig)
    (hcall : f.Calls types v g.params g.result callee address args) :
    ∃ a groups, assignArgs f types v callee .new 0 (f.dataArgs v) =
        .ok (address.toList.map (⟨·, 0, .reg Reg.x8⟩) ++ groups.flatten, a) ∧
      Signature.assignParams g.name types .new 0 g.params = .ok (sig.params, a) ∧
      Groups f types args sig.paramLocation? groups := by
  obtain ⟨a, hparams, -⟩ := Signature.assigner_of hsig
  have hsome := hcall.indirect.trans hcall.addressed.symm
  have hfixed := hcall.fixed
  have hrole : ∀ i, address.toList.length ≤ i → i < address.toList.length + args.length →
      argRole callee i = .plain := by
    intro i hle hlt
    rw [length_append] at hfixed
    have hturn : ¬(callee.indirectResult ∧ i = 0) := by
      rintro ⟨hind, rfl⟩
      rw [hsome, Option.isSome_iff_exists] at hind
      obtain ⟨u, rfl⟩ := hind
      simp at hle
    rw [argRole, if_neg hturn, if_neg (by omega)]
  obtain ⟨groups, hassign, hgroups⟩ :=
    exists_groups (v := v) hcall.argTypes (Nat.zero_le 8) hrole hparams
  refine ⟨a, groups, ?_, hparams, hgroups⟩
  rw [hcall.operands]
  rcases address with _ | u
  · exact hassign
  · have hptr := htypes.parts_ptr
    have hstruct : argRole callee 0 = .structReturn := if_pos ⟨hsome, rfl⟩
    have hone : (ofType types TypeId.ptr).words = 1 := by
      rw [words_ofType (by rw [hptr]; decide), hptr]
    have hout : outgoing? { ofType types TypeId.ptr with
        reg := some Reg.x8, stack := none } = some (.reg Reg.x8) := by
      change ValueLoc.ofRegs? (regs _) = _
      rw [regs_of_reg rfl, hone]
      rfl
    rw [Option.toList_some, singleton_append, assignArgs, hcall.pointer u rfl, hptr, hstruct]
    dsimp only [Assigner.assignArg]
    rw [hout]
    rw [show assignArgs f types v callee .new 1 args = _ from hassign]
    rfl

theorem outgoing_assignResult {ty : TypeId} (ha : a.results = 0) (hparts : types.parts ty ≠ 0) :
    ∃ l, (a.assignResult (.ofType types ty)).1.outgoing? = some l ∧
      (a.assignResult (.ofType types ty)).1.incoming? = some l := by
  have hwords := words_ofType hparts
  have htwo := types.parts_le_two ty
  have hfit : a.results + (ofType types ty).words ≤ resultRegs.length := by
    rw [ha, hwords, Nat.zero_add]
    exact htwo
  rw [Assigner.assignResult, if_pos hfit, ha]
  have hcases : (ofType types ty).words = 1 ∨ (ofType types ty).words = 2 := by omega
  have hregs : ∃ l, ValueLoc.ofRegs? (regs { ofType types ty with
      reg := resultRegs[0]?, stack := none }) = some l := by
    rw [regs_of_reg rfl]
    rcases hcases with hw | hw <;> exact ⟨_, by rw [hw]; rfl⟩
  obtain ⟨l, hl⟩ := hregs
  exact ⟨l, hl, hl⟩

section

variable (hop : (f.value v).op = .call) (hpayload : (f.value v).payload = .callee callee)

include hop hpayload

theorem of_without_result
    {words : List ArgWord} (hassign : assignArgs f types v callee .new 0 (f.dataArgs v) = .ok (words, a))
    (hres : (f.value v).hasResult = false) : of f types v = .ok ⟨words, a.stackSize, none⟩ := by
  rw [of, hop, hpayload]
  dsimp only
  rw [hassign, hres]
  rfl

theorem of_with_result {words : List ArgWord} {l : ValueLoc}
    (hassign : assignArgs f types v callee .new 0 (f.dataArgs v) = .ok (words, a))
    (hres : (f.value v).hasResult)
    (hl : (a.assignResult (.ofType types (f.value v).ty)).1.outgoing? = some l) :
    of f types v = .ok ⟨words, a.stackSize, some l⟩ := by
  rw [of, hop, hpayload]
  dsimp only
  rw [hassign, hres]
  dsimp only [bind, Except.bind]
  rw [hl]
  rfl

end

end CallLayout

open CallLayout in
/-- Caller and callee agree on where every word of a call is: the arguments go where the parameters
arrive, the address of an indirect result to the register that the callee reads it from, and the result
comes back where the caller looks for it. -/
theorem call_agrees_with_signature {types : TypeTable} {f g : Func} {v : ValueId} {callee : Callee}
    {address : Option ValueId} {args : List ValueId} {sig : Signature} (htypes : types.Made)
    (hsig : Signature.of types g = .ok sig)
    (hcall : f.Calls types v g.params g.result callee address args) :
    (∃ layout, CallLayout.of f types v = .ok layout ∧ layout.Agrees f types sig address args) ∧
      ∀ (c : Setting) (s : Allocator) (w : ValueId), (s.func.value w).op = .resultPtr →
        Runs (c.arrival? w) s (some (.reg Reg.x8)) s := by
  refine ⟨?_, fun c s w hw => ?_⟩
  · obtain ⟨a, groups, hassign, hparams, hgroups⟩ := assignArgs_of_calls htypes hsig hcall
    obtain ⟨a', hparams', hstack, hresult⟩ := Signature.assigner_of hsig
    obtain rfl : a' = a := by
      rw [hparams] at hparams'
      cases hparams'
      rfl
    have hzero := results_assignArgs hassign
    have hnot := htypes.void_not_memory
    rcases hresult with ⟨hnone, hres⟩ | ⟨hvoid, hmem, hparts, hres⟩
    · -- no direct result on either side
      have hty : (f.value v).ty = TypeId.void := by
        rw [hcall.ty]
        rcases hnone with hvoid | hmem
        · rw [hvoid, hnot, if_neg Bool.false_ne_true]
        · rw [if_pos hmem]
      have hno : (f.value v).hasResult = false := by
        rw [Value.hasResult, hty]
        rfl
      refine ⟨_, of_without_result hcall.op hcall.payload hassign hno, ⟨groups, rfl, hgroups⟩, hstack.symm,
        ?_, ?_⟩ <;> rw [hres] <;> rfl
    · have hty : (f.value v).ty = g.result := by
        rw [hcall.ty, hmem, if_neg Bool.false_ne_true]
      have hmem' : g.result ≠ TypeId.mem := by
        intro heq
        rw [heq, htypes.parts_mem] at hparts
        exact hparts rfl
      have hyes : (f.value v).hasResult := by
        rw [Value.hasResult, hty]
        simp [hvoid, hmem']
      obtain ⟨l, hout, hinc⟩ := outgoing_assignResult hzero hparts
      rw [← hty] at hout
      refine ⟨_, of_with_result hcall.op hcall.payload hassign hyes hout, ⟨groups, rfl, hgroups⟩, hstack.symm, ?_, ?_⟩
      · rw [hres, Option.bind_some, hinc]
      · rw [hres]
        rfl
  · rw [Setting.arrival?, runs_get_bind, hw]
    exact runs_pure.mpr ⟨rfl, rfl⟩

def tripleTypes : TypeTable := (TypeTable.builtins.internStruct [TypeId.i64, TypeId.i64, TypeId.i64]).2

def wideCallee : Func :=
  .new "wide" [TypeId.slice, TypeId.i64, TypeId.i8, 13, TypeId.slice, TypeId.u64, TypeId.slice, TypeId.bool] 13

/-- Calls `wide`, with the address for its result first. -/
def wideCaller : Func :=
  let operands := (TypeId.ptr :: wideCallee.params.map (passedType tripleTypes)).foldl
    (fun f ty => (f.newValue 0 .load ty [] .none).2) (Func.new "caller" [] TypeId.void)
  let memory := (operands.newValue 0 .initMem TypeId.mem [] .none).2
  (memory.newValue 0 .call TypeId.void [0, 1, 2, 3, 4, 5, 6, 7, 8, 9] (.callee ⟨"wide", 9, true⟩)).2

theorem wide_call_agrees : ∃ sig layout, Signature.of tripleTypes wideCallee = .ok sig ∧
    CallLayout.of wideCaller tripleTypes 10 = .ok layout ∧
      layout.Agrees wideCaller tripleTypes sig (some 0) [1, 2, 3, 4, 5, 6, 7, 8] := by
  have hmade : tripleTypes.Made := .internStruct .builtins _
  have hcall : wideCaller.Calls tripleTypes 10 wideCallee.params wideCallee.result ⟨"wide", 9, true⟩
      (some 0) [1, 2, 3, 4, 5, 6, 7, 8] := by
    refine ⟨by decide +kernel, by decide +kernel, by decide +kernel, by decide +kernel,
      by decide +kernel, ?_, by decide +kernel, by decide +kernel, by decide +kernel⟩
    rintro a ⟨⟩
    decide +kernel
  obtain ⟨sig, hsig⟩ : ∃ sig, Signature.of tripleTypes wideCallee = .ok sig := by
    have hok : (Signature.of tripleTypes wideCallee).isOk := by decide +kernel
    cases hsig : Signature.of tripleTypes wideCallee with
    | ok sig => exact ⟨sig, rfl⟩
    | error e =>
      rw [hsig] at hok
      cases hok
  obtain ⟨⟨layout, hlayout, hagrees⟩, -⟩ := call_agrees_with_signature hmade hsig hcall
  exact ⟨sig, layout, hsig, hlayout, hagrees⟩

end SsaCodegen
