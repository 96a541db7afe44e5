import SsaCodegen.Proofs.Convention
import SsaCodegen.Proofs.Emission.Conversions

/-! Incoming parameters. The caller leaves the bits above a narrow parameter open, so the function starts by
extending it where it arrives. Of a boolean, a register keeps the lowest bit and a slot the lowest byte. -/

namespace SsaCodegen

open List BitVec Instr Machine TypeTable

namespace Machine

variable {s : Machine}

theorem load_mod (s : Machine) : ∀ {n m : Nat} (a : BitVec 64), n ≤ m → s.load a m % 256 ^ n = s.load a n
  | 0, m, a, _ => by
    rw [Nat.pow_zero, Nat.mod_one]
    rfl
  | n + 1, 0, a, h => by omega
  | n + 1, m + 1, a, h => by
    have hfirst : ((s.memory a).toNat + 256 * s.load (a + 1) m) % 256 = (s.memory a).toNat := by omega
    have hrest : ((s.memory a).toNat + 256 * s.load (a + 1) m) / 256 = s.load (a + 1) m := by omega
    rw [load, load, Nat.pow_succ, Nat.mul_comm (256 ^ n), Nat.mod_mul, hfirst, hrest,
      load_mod s (a + 1) (Nat.le_of_succ_le_succ h)]

def wordAt (s : Machine) (a : BitVec 64) : BitVec 64 := BitVec.ofNat 64 (s.load a 8)

theorem setWidth_wordAt (s : Machine) (a : BitVec 64) {n : Nat} (hn : n ≤ 8) :
    (s.wordAt a).setWidth (8 * n) = BitVec.ofNat (8 * n) (s.load a n) := by
  apply eq_of_toNat_eq
  have hpow : 2 ^ (8 * n) = 256 ^ n := by rw [Nat.pow_mul]
  have hdvd : 256 ^ n ∣ 2 ^ 64 := by
    exact Nat.pow_dvd_pow 256 hn
  rw [toNat_setWidth, wordAt, toNat_ofNat, toNat_ofNat, hpow, Nat.mod_mod_of_dvd _ hdvd,
    ← load_mod s a hn, Nat.mod_mod]

theorem wordAt_store (s : Machine) (a v : BitVec 64) : (s.store a 8 v).wordAt a = v :=
  word_eq_of_bytes fun _ hi => memory_store_self v hi

end Machine

def Frame.contents (fr : Frame) (s : Machine) : ValueLoc → BitVec 64
  | .reg r | .pair r _ => s.x r
  | .stack slot => s.wordAt (s.base (fr.address slot).1 + BitVec.ofNat 64 (fr.address slot).2)
  | .imm k => BitVec.ofInt 64 k

namespace Instr

variable {s : Machine} {origin : BitVec 64} {base : Reg} {size : MemSize} {signed : Bool}
  {offset : Nat} {i : Instr}

/-- A load extends the low bytes of the word by its sign, or by zeros. -/
theorem extend_load (s : Machine) (size : MemSize) (signed : Bool) (a : BitVec 64) :
    (if signed && size != .x then MemOp.loadSigned else .load).extend (s.load a size.bytes) size =
      widen signed ((s.wordAt a).setWidth (8 * size.bytes)) := by
  have hsize : size.bytes ≤ 8 := by cases size <;> decide
  rw [setWidth_wordAt s a hsize]
  cases signed with
  | true =>
    cases size with
    | x => exact (widen_self true _).symm
    | b | h | w => rfl
  | false =>
    have hlt : s.load a size.bytes < 2 ^ (8 * size.bytes) := by
      rw [Nat.pow_mul, ← load_mod s a le_rfl]
      exact Nat.mod_lt _ (Nat.pow_pos (by decide))
    change BitVec.ofNat 64 _ = (BitVec.ofNat (8 * size.bytes) (s.load a size.bytes)).setWidth 64
    apply eq_of_toNat_eq
    rw [toNat_setWidth, toNat_ofNat, toNat_ofNat, Nat.mod_eq_of_lt hlt]

theorem sets_load {rd : Reg} (hrd : rd ≠ Reg.xzr) :
    s.Sets rd (widen signed ((s.wordAt (s.base base + BitVec.ofNat 64 offset)).setWidth (8 * size.bytes))) [rd]
      ((load size signed rd base offset).exec origin s) := by
  rw [← extend_load]
  apply sets_exec _ hrd
  exact if_neg (by split <;> decide)

theorem execAll_reload (hbase : base ≠ scratch) (size : MemSize) (signed : Bool) (offset : Nat)
    {a : BitVec 64} (ha : s.base base + BitVec.ofNat 64 offset = a) {s' : Machine}
    (hs' : execAll origin [load size signed scratch base offset, str scratch base offset] s = s') :
    s'.base base = s.base base ∧ s'.wordAt a = widen signed ((s.wordAt a).setWidth (8 * size.bytes)) ∧
      ∀ r, r ≠ scratch → s'.x r = s.x r := by
  have hload : s.Sets scratch _ [scratch] ((load size signed scratch base offset).exec origin s) :=
    sets_load (by decide)
  rw [ha] at hload
  change (str scratch base offset).exec origin ((load size signed scratch base offset).exec origin s) = s' at hs'
  generalize (load size signed scratch base offset).exec origin s = t at hload hs'
  obtain ⟨hval, hdiff⟩ := hload
  have hbase' := hdiff.base (mem_singleton.not.mpr hbase)
  -- the store changes memory alone
  have hmem : s'.memory = (t.store a 8 (t.x scratch)).memory := by
    rw [← hs', ← ha, ← hbase']
    rfl
  have hregs : s'.regs = t.regs ∧ s'.sp = t.sp := by
    rw [← hs']
    exact ⟨rfl, rfl⟩
  refine ⟨?_, ?_, ?_⟩
  · rw [← hbase', Machine.base, Machine.base, hregs.1, hregs.2]
  · rw [wordAt, load_congr fun _ _ => congrFun hmem _]
    exact (wordAt_store t a _).trans hval
  · intro r hr
    rw [← hdiff.others r (mem_singleton.not.mpr hr), x, x, hregs.1]

theorem fits_reload {n : Nat} (hsize : size.bytes = n) (hdvd : n ∣ wordSize) (hle : n ≤ 4)
    (hword : wordSize ∣ offset) (hnear : offset < 4096 * n)
    (hi : i ∈ [load size signed scratch base offset, str scratch base offset]) : i.Fits := by
  rcases mem_cons.mp hi with rfl | hi
  · exact ⟨hsize ▸ Nat.dvd_trans hdvd hword, hsize ▸ hnear⟩
  · rw [mem_singleton.mp hi]
    exact ⟨hword, by change offset < 4096 * 8; omega⟩

theorem direct_reload (hi : i ∈ [load size signed scratch base offset, str scratch base offset]) :
    i.Direct := by
  rcases mem_cons.mp hi with rfl | hi
  · exact direct_load ..
  · rw [mem_singleton.mp hi]
    exact direct_store ..

end Instr

namespace Signature

variable {types : TypeTable} {f : Func} {sig : Signature} {i : Nat}

theorem aligned_of_param {o : Nat} (h : Signature.of types f = .ok sig)
    (hl : sig.paramLocation? i = some (.stack (.incoming o))) : wordSize ∣ o := by
  obtain ⟨p, -, _, hp, hin, -, -, -, hwithin⟩ := placement_of_location h hl
  rcases incoming_cases hwithin hin with ⟨r, -, -, -, hreg⟩ | ⟨o', -, hword, hslot⟩
  · cases hreg
  · cases hslot
    exact hword

/-- An integer arrives in one of the argument registers, or in a slot of its own. -/
theorem location_of_integer {ty : TypeId} {l : ValueLoc} (htypes : types.Made)
    (h : Signature.of types f = .ok sig) (hty : f.params[i]? = some ty) (hint : types.isInteger ty)
    (hl : sig.paramLocation? i = some l) :
    (∃ r : Reg, l = .reg r ∧ r.val < 8) ∨ ∃ o, l = .stack (.incoming o) ∧ wordSize ∣ o := by
  obtain ⟨hparts, -, -, hmem⟩ := htypes.integer hint
  obtain ⟨-, hregs, hcases, ty', hty', -, hlen⟩ := location_of_param h hl
  rcases hcases with hreg | ⟨o, rfl⟩
  · left
    cases hty.symm.trans hty'
    have hpassed : passedType types ty = ty := if_neg (by rw [hmem]; decide)
    rw [hpassed, hparts] at hlen
    cases l with
    | reg r => exact ⟨r, rfl, hregs r mem_cons_self⟩
    | pair lo hi => exact absurd (hlen (cons_ne_nil _ _)) (by simp [ValueLoc.regs])
    | stack | imm => cases hreg
  · exact .inr ⟨o, rfl, aligned_of_param h hl⟩

end Signature

namespace TypeTable

variable {t : TypeTable} {ty : TypeId}

theorem canonical_whole (h : t.width ty = 64) (x : BitVec 64) : t.canonical ty (x.setWidth (t.width ty)) = x := by
  have hwhole : ∀ w, w = 64 → widen (t.isSigned ty) (x.setWidth w) = x := by
    rintro w rfl
    rw [setWidth_eq, widen_self]
  exact hwhole _ h

theorem Made.isEmpty_extendTo (h : t.Made) (hty : t.isInteger ty) (r : Reg) :
    (extendTo t ty r).isEmpty ↔ t.width ty = 64 := by
  have hle := (h.width_integer hty).2
  rw [width] at hle
  rw [extendTo, width]
  cases hkind : t.kind ty with
  | int bits signed =>
    rw [hkind] at hle
    dsimp only at hle ⊢
    split
    · simp
      omega
    · simp
      omega
  | bool => simp
  | ptr => simp
  | void | mem | slice | struct _ _ =>
    rw [isInteger, hkind] at hty
    cases hty

/-- A narrow number takes as many bits as its bytes have, unless it is a boolean. -/
theorem Made.narrow (h : t.Made) (hty : t.isInteger ty) (hlt : t.width ty < 64) :
    (MemSize.ofBytes (t.size ty)).bytes = t.size ty ∧ t.size ty ∣ wordSize ∧ t.size ty ≤ 4 ∧
      8 * t.size ty = (if ty = TypeId.bool then 8 else t.width ty) ∧
      (ty = TypeId.bool → t.isSigned ty = false) := by
  have hall : ∀ ty < TypeTable.builtins.count, TypeTable.builtins.isInteger ty → TypeTable.builtins.width ty < 64 →
      (MemSize.ofBytes (TypeTable.builtins.size ty)).bytes = TypeTable.builtins.size ty ∧
      TypeTable.builtins.size ty ∣ wordSize ∧ TypeTable.builtins.size ty ≤ 4 ∧
      8 * TypeTable.builtins.size ty = (if ty = TypeId.bool then 8 else TypeTable.builtins.width ty) ∧
      (ty = TypeId.bool → TypeTable.builtins.isSigned ty = false) := by decide
  have hbuiltin := h.builtin_of_isInteger hty
  rw [isInteger, h.kind_builtin hbuiltin] at hty
  rw [width, h.kind_builtin hbuiltin] at hlt ⊢
  rw [h.size_builtin hbuiltin, isSigned, h.kind_builtin hbuiltin]
  exact hall ty hbuiltin hty hlt

end TypeTable

/-- The word of a parameter in the form of its type. A boolean on the stack is an exception: all of its byte
is kept. -/
def TypeTable.received (types : TypeTable) (ty : TypeId) (loc : ValueLoc) (x : BitVec 64) : BitVec 64 :=
  if ty = TypeId.bool ∧ loc.isReg = false then widen false (x.setWidth 8)
  else types.canonical ty (x.setWidth (types.width ty))

def Target.Receives (t : Target) (ty : TypeId) (loc : ValueLoc) (s s' : Machine) : Prop :=
  t.frame.contents s' loc = t.types.received ty loc (t.frame.contents s loc) ∧
    ∀ r, r ∉ loc.regs → r ≠ scratch → s'.x r = s.x r

namespace Target

variable {t : Target} {v : ValueId} {ty : TypeId} {r : Reg}

section

variable (htypes : t.types.Made)

include htypes

theorem receives_whole (hwidth : t.types.width ty = 64) (loc : ValueLoc) (s : Machine) : t.Receives ty loc s s := by
  have hbool : ty ≠ TypeId.bool := by
    rintro rfl
    rw [width, htypes.kind_builtin (by decide)] at hwidth
    cases hwidth
  refine ⟨?_, fun r _ _ => rfl⟩
  rw [received, if_neg fun h => hbool h.1, canonical_whole hwidth]

section

variable (hty : t.types.isInteger ty)

include hty

theorem receives_reg (hr : r ≠ Reg.xzr) (origin : BitVec 64) (s : Machine) :
    t.Receives ty (.reg r) s (execAll origin (extendTo t.types ty r) s) := by
  have hsets : s.Sets r _ [r] (execAll origin (extendTo t.types ty r) s) := sets_extendTo htypes hty hr
  refine ⟨?_, fun q hq _ => hsets.2.others q hq⟩
  rw [received, if_neg (by simp [ValueLoc.isReg])]
  exact hsets.1

theorem receives_stack (hlt : t.types.width ty < 64) (o : Nat) (origin : BitVec 64) (s : Machine) :
    t.Receives ty (.stack (.incoming o)) s (execAll origin
      [.load (.ofBytes (t.types.size ty)) (t.types.isSigned ty) scratch Reg.fp (frameRecordSize + o),
        .str scratch Reg.fp (frameRecordSize + o)] s) := by
  obtain ⟨hsize, -, -, hbits, hsigned⟩ := htypes.narrow hty hlt
  generalize hs' : execAll origin _ s = s'
  obtain ⟨hbase, hword, hothers⟩ := execAll_reload (by decide) _ _ _ rfl hs'
  rw [hsize] at hword
  refine ⟨?_, fun r _ hr => hothers r hr⟩
  change s'.wordAt (s'.base Reg.fp + BitVec.ofNat 64 (frameRecordSize + o)) = _
  rw [hbase, hword, received]
  -- the bytes that are read make up the number, or they have more bits than a boolean
  by_cases hbool : ty = TypeId.bool
  · rw [if_pos hbool] at hbits
    rw [if_pos ⟨hbool, rfl⟩, hsigned hbool, hbits]
    rfl
  · rw [if_neg hbool] at hbits
    rw [if_neg fun h => hbool h.1, hbits]
    rfl

section

variable (hlt : t.types.width ty < 64) (hv : (t.func.value v).ty = ty)

include hlt hv

theorem emitArg_narrow {loc : ValueLoc} (hat : t.At v loc) : t.emitArg v = match loc with
      | .reg r => emitAll (extendTo t.types ty r)
      | .stack slot => emitAll
        [.load (.ofBytes (t.types.size ty)) (t.types.isSigned ty) scratch (t.frame.address slot).1
          (t.frame.address slot).2, .str scratch (t.frame.address slot).1 (t.frame.address slot).2]
      | _ => pure () := by
  have hnonempty : ¬(extendTo t.types ty 0).isEmpty := fun h => hlt.ne ((htypes.isEmpty_extendTo hty 0).mp h)
  rw [emitArg, hv, if_neg hnonempty, location_eq hat]
  cases loc <;> rfl

theorem computes_emitArg_reg (hat : t.At v (.reg r)) (hr : r ≠ Reg.xzr) :
    Succeeds (t.emitArg v) ∧ Achieves (t.emitArg v) (t.Receives ty (.reg r)) := by
  rw [emitArg_narrow htypes hty hlt hv hat]
  apply computes_emitAll fun i hi => (data_of_mem_extendTo hi).imp_right fun h => h htypes hty
  exact receives_reg htypes hty hr

theorem achieves_emitArg_stack {o : Nat} (hat : t.At v (.stack (.incoming o))) :
    Achieves (t.emitArg v) (t.Receives ty (.stack (.incoming o))) := by
  rw [emitArg_narrow htypes hty hlt hv hat]
  exact achieves_emitAll (fun i hi => direct_reload hi) (receives_stack htypes hty hlt o)

end

end

end

end Target

/-- A parameter of an integer type has the form of its type after its code, in a register as on the stack,
whatever the caller left above it. The exception is a boolean on the stack, of which the whole byte is kept.
The code can be emitted unless it takes a load from a slot that is too far from the frame pointer. -/
theorem parameter_arrives_canonical {t : Target} {sig : Signature} {v : ValueId} {i : Nat} {ty : TypeId}
    {loc : ValueLoc} (htypes : t.types.Made) (hsig : Signature.of t.types t.func = .ok sig)
    (hparam : t.func.params[i]? = some ty) (hty : t.types.isInteger ty = true)
    (hloc : sig.paramLocation? i = some loc) (hv : (t.func.value v).ty = ty) (hat : t.At v loc) :
    ((∀ o, loc = .stack (.incoming o) → t.types.width ty < 64 →
        frameRecordSize + o < 4096 * t.types.size ty) → Succeeds (t.emitArg v)) ∧
      Achieves (t.emitArg v) (t.Receives ty loc) := by
  by_cases hwidth : t.types.width ty = 64
  · rw [Target.emitArg, hv, if_pos ((htypes.isEmpty_extendTo hty 0).mpr hwidth)]
    exact ⟨fun _ => succeeds_pure, achieves_pure (Target.receives_whole htypes hwidth loc)⟩
  · have hlt := Nat.lt_of_le_of_ne (htypes.width_integer hty).2 hwidth
    rcases Signature.location_of_integer htypes hsig hparam hty hloc with ⟨r, rfl, hr⟩ | ⟨o, rfl, ho⟩
    · have hr' : r ≠ Reg.xzr := fun h => absurd (h ▸ hr) (by decide)
      obtain ⟨hsucceeds, hachieves⟩ := Target.computes_emitArg_reg htypes hty hlt hv hat hr'
      exact ⟨fun _ => hsucceeds, hachieves⟩
    · refine ⟨fun hnear => ?_, Target.achieves_emitArg_stack htypes hty hlt hv hat⟩
      obtain ⟨hsize, hdvd, hle, -, -⟩ := htypes.narrow hty hlt
      rw [Target.emitArg_narrow htypes hty hlt hv hat]
      apply succeeds_emitAll
      intro i hi
      exact Instr.fits_reload hsize hdvd hle (Nat.dvd_add (by decide) ho) (hnear o rfl hlt) hi

/-- A function that uses the last of its parameters, which follows `n` words. -/
def lastParameter (n : Nat) (ty : TypeId) (loc : ValueLoc) : Target where
  func := { Func.new "last" (List.replicate n TypeId.i64 ++ [ty]) ty with
      values := #[⟨.arg, ty, ⟨0, 0⟩, .int n, 1, 0, some loc⟩] }
  types := .builtins
  frame := .layout [] 0 0 false true
  edgeMoves := #[]

/-- A number of sixteen bits on the stack. -/
theorem lastParameter_arrives_canonical : ∃ sig, TypeTable.builtins.Made ∧
    Signature.of .builtins (lastParameter 8 TypeId.i16 (.stack (.incoming 0))).func = .ok sig ∧
    sig.paramLocation? 8 = some (.stack (.incoming 0)) ∧
    Succeeds ((lastParameter 8 TypeId.i16 (.stack (.incoming 0))).emitArg 0) ∧
    Achieves ((lastParameter 8 TypeId.i16 (.stack (.incoming 0))).emitArg 0) fun s s' =>
      (lastParameter 8 TypeId.i16 (.stack (.incoming 0))).frame.contents s (.stack (.incoming 0)) =
        0x123456789ABC8001#64 →
      (lastParameter 8 TypeId.i16 (.stack (.incoming 0))).frame.contents s' (.stack (.incoming 0)) =
        0xFFFFFFFFFFFF8001#64 := by
  have hof : ∃ sig, Signature.of .builtins (lastParameter 8 TypeId.i16 (.stack (.incoming 0))).func = .ok sig ∧
      sig.paramLocation? 8 = some (.stack (.incoming 0)) := ⟨_, rfl, rfl⟩
  obtain ⟨sig, hsig, hloc⟩ := hof
  obtain ⟨hsucceeds, hachieves⟩ := parameter_arrives_canonical (v := 0) (i := 8)
    (t := lastParameter 8 TypeId.i16 (.stack (.incoming 0))) .builtins hsig rfl rfl hloc rfl rfl
  refine ⟨sig, .builtins, hsig, hloc, hsucceeds fun o ho _ => ?_, ?_⟩
  · cases ho
    decide
  · refine hachieves.mono fun s s' h hx => ?_
    obtain ⟨hvalue, -⟩ := h
    rw [hx] at hvalue
    exact hvalue

/-- The same byte makes two different booleans, false in a register and neither true nor false on the
stack. -/
theorem lastParameter_byte_kept :
    (Achieves ((lastParameter 0 TypeId.bool (.reg 0)).emitArg 0) fun s s' => s.x 0 = 2#64 → s'.x 0 = 0#64) ∧
    Achieves ((lastParameter 8 TypeId.bool (.stack (.incoming 0))).emitArg 0) fun s s' =>
      (lastParameter 8 TypeId.bool (.stack (.incoming 0))).frame.contents s (.stack (.incoming 0)) = 2#64 →
      (lastParameter 8 TypeId.bool (.stack (.incoming 0))).frame.contents s' (.stack (.incoming 0)) = 2#64 ∧
        ∀ x, TypeTable.builtins.canonical TypeId.bool x ≠ 2#64 := by
  have hform : ∀ x : BitVec 1, widen false x ≠ 2#64 := by decide
  have hreg := (Target.computes_emitArg_reg (t := lastParameter 0 TypeId.bool (.reg 0)) (v := 0)
    .builtins rfl (by decide) rfl rfl (by decide)).2
  have hstack := Target.achieves_emitArg_stack (t := lastParameter 8 TypeId.bool (.stack (.incoming 0)))
    (v := 0) .builtins rfl (by decide) rfl rfl
  constructor
  · refine hreg.mono fun s s' h hx => ?_
    have hvalue : s'.x 0 = TypeTable.builtins.received TypeId.bool (.reg 0) (s.x 0) := h.1
    rw [hx] at hvalue
    exact hvalue
  · refine hstack.mono fun s s' h hx => ?_
    obtain ⟨hvalue, -⟩ := h
    rw [hx] at hvalue
    exact ⟨hvalue, hform⟩

end SsaCodegen
