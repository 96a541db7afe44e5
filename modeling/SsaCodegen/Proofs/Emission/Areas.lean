import SsaCodegen.Proofs.Emission.Parameters

/-! Moving bytes between registers and memory, and from one area of memory to another, piece after piece. -/

namespace SsaCodegen

open List BitVec Machine MemSize Reg

open Instr

/-! Pieces. -/

def pieceSizes (pairs : Bool) : List Nat := if pairs then [1, 2, 4, 8, 16] else [1, 2, 4, 8]

theorem bytes_ofBytes : ∀ k ∈ pieceSizes false, (ofBytes k).bytes = k ∧ k ≤ 8 := by decide

theorem mem_pieceSizes_of_ne : ∀ k ∈ pieceSizes true, k ≠ 16 → k ∈ pieceSizes false := by decide

theorem mem_pieceSizes_of_isAccessSize : ∀ k ≤ 8, isAccessSize k → k ∈ pieceSizes false := by decide

/-- Pieces that lie side by side from one offset to another. -/
inductive Tiles (pairs : Bool) : Nat → List (Nat × Nat) → Nat → Prop
  | nil (n : Nat) : Tiles pairs n [] n
  | cons {o k n : Nat} {ps : List (Nat × Nat)} (size : k ∈ pieceSizes pairs) (rest : Tiles pairs (o + k) ps n) :
    Tiles pairs o ((o, k) :: ps) n

namespace Tiles

variable {pairs : Bool} {a b n o : Nat} {ps : List (Nat × Nat)}

theorem le (h : Tiles pairs a ps b) : a ≤ b := by
  induction h with
  | nil => exact le_rfl
  | cons _ _ ih => omega

theorem run (h : Tiles pairs o ps n) (step : Nat → Nat → List Instr) (I : Nat → Machine → Prop)
    {origin : BitVec 64} (hstep : ∀ o k s, k ∈ pieceSizes pairs → o + k ≤ n → I o s →
      I (o + k) (execAll origin (step o k) s)) :
    ∀ s, I o s → I n (execAll origin (ps.flatMap fun p => step p.1 p.2) s) := by
  induction h with
  | nil => exact fun s hI => hI
  | cons size rest ih =>
    intro s hI
    rw [flatMap_cons, execAll_append]
    exact ih hstep _ (hstep _ _ s size rest.le hI)

end Tiles

theorem pieceSize_mem (pairs : Bool) (o : Nat) {rest : Nat} (h : 0 < rest) :
    pieceSize pairs o rest ∈ pieceSizes pairs ∧ 0 < pieceSize pairs o rest ∧ pieceSize pairs o rest ≤ rest := by
  have hsizes : ∀ k ∈ [8, 4, 2, 1], k ∈ pieceSizes pairs ∧ 0 < k := by cases pairs <;> decide
  rw [pieceSize]
  split
  · next hpair =>
    simp only [Bool.and_eq_true, decide_eq_true_eq] at hpair
    exact ⟨hpair.1.1 ▸ (by decide), by decide, hpair.1.2⟩
  · cases hfind : [8, 4, 2, 1].find? fun size => size ≤ rest && o % size == 0 with
    | none => exact ⟨(hsizes 1 (by decide)).1, by decide, h⟩
    | some k =>
      have hle : k ≤ rest ∧ o % k = 0 := by simpa using find?_some hfind
      exact ⟨(hsizes k (mem_of_find?_eq_some hfind)).1, (hsizes k (mem_of_find?_eq_some hfind)).2, hle.1⟩

theorem tiles_piecesFrom (bytes : Nat) (pairs : Bool) : ∀ fuel o, o ≤ bytes → bytes ≤ o + fuel →
    Tiles pairs o (piecesFrom bytes pairs fuel o) bytes := by
  intro fuel
  induction fuel with
  | zero =>
    intro o hle hfuel
    cases Nat.le_antisymm hle hfuel
    exact .nil _
  | succ fuel ih =>
    intro o hle hfuel
    rw [piecesFrom]
    split
    · next hlt =>
      obtain ⟨hmem, hpos, hrest⟩ := pieceSize_mem pairs o (Nat.sub_pos_of_lt hlt)
      exact .cons hmem (ih _ (by omega) (by omega))
    · cases Nat.le_antisymm hle (by omega)
      exact .nil _

theorem tiles_pieces (bytes : Nat) (pairs : Bool) : Tiles pairs 0 (pieces bytes pairs) bytes :=
  tiles_piecesFrom bytes pairs bytes 0 (Nat.zero_le _) (Nat.zero_add _).ge

/-! Bytes in memory. -/

/-- The machine with the `n` bytes from `a` on replaced. -/
def Machine.patch (s : Machine) (a : BitVec 64) (n : Nat) (byte : Nat → BitVec 8) : Machine :=
  { s with memory := fun b => if (b - a).toNat < n then byte (b - a).toNat else s.memory b }

/-- The bytes of words that follow one another. -/
def byteOf (words : List (BitVec 64)) (i : Nat) : BitVec 8 :=
  (words.getD (i / 8) 0).extractLsb' (8 * (i % 8)) 8

/-- The first `n` bytes from `a` on have been written, and else only the registers listed have changed. -/
def Machine.Writes (s : Machine) (a : BitVec 64) (byte : Nat → BitVec 8) (rs : List Reg) (n : Nat)
    (s' : Machine) : Prop := (s.patch a n byte).Differs s' rs

namespace Machine

variable {s s' s'' : Machine} {a : BitVec 64} {i k m n : Nat} {byte byte' : Nat → BitVec 8} {rs qs : List Reg}

theorem patch_congr (h : ∀ i < n, byte i = byte' i) : s.patch a n byte = s.patch a n byte' := by
  rw [patch]
  congr 1
  ext1 b
  exact if_ctx_congr Iff.rfl (h _) fun _ => rfl

theorem patch_patch (h : m + n ≤ 2 ^ 64) :
    (s.patch a m byte).patch (a + BitVec.ofNat 64 m) n (fun i => byte (m + i)) = s.patch a (m + n) byte := by
  rw [patch, patch]
  congr 1
  ext1 b
  dsimp only
  by_cases hm : (b - a).toNat < m
  · have hout : ¬(b - (a + BitVec.ofNat 64 m)).toNat < n := by bv_omega
    rw [if_neg hout, if_pos hm, if_pos (by omega)]
  · have hoff : (b - (a + BitVec.ofNat 64 m)).toNat = (b - a).toNat - m := by bv_omega
    rw [hoff, if_neg hm, Nat.add_sub_cancel' (not_lt.mp hm)]
    exact if_congr (by omega) rfl rfl

theorem Differs.patch (h : s.Differs s' rs) (a : BitVec 64) (n : Nat) (byte : Nat → BitVec 8) :
    (s.patch a n byte).Differs (s'.patch a n byte) rs where
  others := h.others
  sp := h.sp
  flags := h.flags
  memory :=
    congrArg (fun (old : BitVec 64 → BitVec 8) b => if (b - a).toNat < n then byte (b - a).toNat else old b) h.memory

theorem writes_none (s : Machine) (a : BitVec 64) (byte : Nat → BitVec 8) (rs : List Reg) :
    s.Writes a byte rs 0 s := Differs.refl _ rs

theorem Writes.congr (h : s.Writes a byte rs n s') (hbyte : ∀ i < n, byte i = byte' i) :
    s.Writes a byte' rs n s' := by
  rw [Writes, ← patch_congr hbyte]
  exact h

theorem Writes.base (h : s.Writes a byte rs n s') {r : Reg} (hr : r ∉ rs) : s'.base r = s.base r :=
  (Differs.base h hr : _ = (s.patch a n byte).base r)

theorem Writes.after (h : s'.Writes a byte qs n s'') (hdiff : s.Differs s' rs) (hsub : ∀ r ∈ qs, r ∈ rs) :
    s.Writes a byte rs n s'' :=
  (hdiff.patch a n byte).trans (Differs.mono h hsub)

theorem Writes.grow (h : s.Writes a byte rs m s') (hle : m + n ≤ 2 ^ 64)
    (h' : s'.Writes (a + BitVec.ofNat 64 m) (fun i => byte (m + i)) rs n s'') :
    s.Writes a byte rs (m + n) s'' := by
  have hboth := Differs.patch h (a + BitVec.ofNat 64 m) n fun i => byte (m + i)
  rw [patch_patch hle] at hboth
  exact hboth.trans h'

theorem writes_self (s : Machine) (a : BitVec 64) (rs : List Reg) (n : Nat) :
    s.Writes a (fun i => s.memory (a + BitVec.ofNat 64 i)) rs n s := by
  refine ⟨fun _ _ => rfl, rfl, rfl, funext fun b => ?_⟩
  have hback : a + BitVec.ofNat 64 (b - a).toNat = b := by bv_omega
  change _ = if _ then _ else _
  rw [hback, ite_self]

theorem load_add (s : Machine) (m n : Nat) : ∀ a : BitVec 64,
    s.load a (m + n) = s.load a m + 256 ^ m * s.load (a + BitVec.ofNat 64 m) n := by
  induction m with
  | zero =>
    intro a
    rw [Nat.zero_add, Nat.pow_zero, Nat.one_mul, BitVec.add_zero, load, Nat.zero_add]
  | succ m ih =>
    intro a
    rw [Nat.succ_add, load, load, ih, ofNat_add, BitVec.add_comm (BitVec.ofNat 64 m),
      ← BitVec.add_assoc, Nat.mul_add, ← Nat.mul_assoc, Nat.mul_comm 256 (256 ^ m), Nat.add_assoc]
    rfl

theorem load_lt (s : Machine) (a : BitVec 64) (n : Nat) : s.load a n < 256 ^ n := by
  rw [← load_mod s a le_rfl]
  exact Nat.mod_lt _ (Nat.pow_pos (by decide))

theorem byte_load (s : Machine) (a : BitVec 64) (hi : i < k) (hk : k ≤ 8) :
    (BitVec.ofNat 64 (s.load a k)).extractLsb' (8 * i) 8 = s.memory (a + BitVec.ofNat 64 i) := by
  have hlow := load_lt s a i
  have hword := (load_lt s a k).trans_le (Nat.pow_le_pow_right (by decide) hk : 256 ^ k ≤ 256 ^ 8)
  obtain ⟨n, rfl⟩ : ∃ n, k = i + (n + 1) := ⟨k - i - 1, by omega⟩
  have hsplit : s.load a (i + (n + 1)) = s.load a i + 256 ^ i *
      ((s.memory (a + BitVec.ofNat 64 i)).toNat + 256 * s.load (a + BitVec.ofNat 64 i + 1) n) := load_add s i _ a
  apply eq_of_toNat_eq
  rw [extractLsb'_toNat, toNat_ofNat, Nat.mod_eq_of_lt hword, Nat.shiftRight_eq_div_pow,
    Nat.pow_mul, hsplit, Nat.add_mul_div_left _ _ (Nat.pow_pos (by decide)), Nat.div_eq_of_lt hlow, Nat.zero_add,
    Nat.add_mul_mod_self_left]
  exact Nat.mod_eq_of_lt (isLt _)

theorem byteOf_cons (x : BitVec 64) (words : List (BitVec 64)) (hi : i < 8) :
    byteOf (x :: words) i = x.extractLsb' (8 * i) 8 := by
  rw [byteOf, Nat.div_eq_of_lt hi, Nat.mod_eq_of_lt hi]
  rfl

theorem byteOf_cons_add (x : BitVec 64) (words : List (BitVec 64)) (i : Nat) :
    byteOf (x :: words) (8 + i) = byteOf words i := by
  rw [byteOf, Nat.add_div_left i (by decide), Nat.add_mod_left]
  rfl

end Machine

/-! Single accesses. -/

namespace Instr

variable {n : Nat} {dst : Reg}

variable (origin : BitVec 64) (s : Machine) {rd : Reg} {k : Nat}

theorem writes_store (h : k ∈ pieceSizes false) (r base : Reg) (offset : Nat) :
    s.Writes (s.base base + BitVec.ofNat 64 offset) (fun i => (s.x r).extractLsb' (8 * i) 8) [] k
      ((store (ofBytes k) r base offset).exec origin s) := by
  rw [← congrArg (s.Writes _ _ _) (bytes_ofBytes k h).1]
  exact ⟨fun _ _ => rfl, rfl, rfl, rfl⟩

theorem writes_stp (lo hi base : Reg) (offset : Nat) :
    s.Writes (s.base base + BitVec.ofNat 64 offset) (byteOf [s.x lo, s.x hi]) [] 16
      ((stp lo hi base offset).exec origin s) := by
  generalize ha : s.base base + BitVec.ofNat 64 offset = a
  -- one word after the other
  have hlo : s.Writes a (byteOf [s.x lo, s.x hi]) [] 8 (s.store a 8 (s.x lo)) :=
    Machine.Writes.congr ⟨fun _ _ => rfl, rfl, rfl, rfl⟩ fun i hlt => (byteOf_cons _ _ hlt).symm
  have hboth := hlo.grow (by decide) (Machine.Writes.congr ⟨fun _ _ => rfl, rfl, rfl, rfl⟩
    fun i hlt => ((byteOf_cons_add (s.x lo) [s.x hi] i).trans (byteOf_cons _ _ hlt)).symm)
  have heffect : (stp lo hi base offset).effect origin s =
      (s.store a 8 (s.x lo)).store (a + BitVec.ofNat 64 8) 8 (s.x hi) := by
    rw [← ha]
    rfl
  rw [exec, heffect]
  exact ⟨hboth.others, hboth.sp, hboth.flags, hboth.memory⟩

theorem sets_loadZero (h : k ∈ pieceSizes false) (hrd : rd ≠ xzr) (base : Reg) (offset : Nat) :
    s.Sets rd (BitVec.ofNat 64 (s.load (s.base base + BitVec.ofNat 64 offset) k)) [rd]
      ((load (ofBytes k) false rd base offset).exec origin s) := by
  have heffect : (load (ofBytes k) false rd base offset).effect origin s = s.setX rd (BitVec.ofNat 64
      (s.load (s.base base + BitVec.ofNat 64 offset) (ofBytes k).bytes)) := rfl
  rw [(bytes_ofBytes k h).1] at heffect
  exact sets_exec heffect hrd

theorem loads_ldp {lo hi : Reg} (hlo : lo ≠ xzr) (hhi : hi ≠ xzr) (hne : lo ≠ hi) (base : Reg)
    (offset : Nat) {a : BitVec 64} (ha : s.base base + BitVec.ofNat 64 offset = a) {s' : Machine}
    (hs' : (ldp lo hi base offset).exec origin s = s') :
    s'.x lo = BitVec.ofNat 64 (s.load a 8) ∧ s'.x hi = BitVec.ofNat 64 (s.load (a + BitVec.ofNat 64 8) 8) ∧
      s.Differs s' [lo, hi] := by
  have heffect : (ldp lo hi base offset).effect origin s = (s.setX lo (BitVec.ofNat 64 (s.load a 8))).setX hi
        (BitVec.ofNat 64 (s.load (a + BitVec.ofNat 64 8) 8)) := by
    rw [← ha]
    rfl
  have hfirst := differs_setX s lo (BitVec.ofNat 64 (s.load a 8))
  have hsecond := differs_setX (s.setX lo (BitVec.ofNat 64 (s.load a 8))) hi
    (BitVec.ofNat 64 (s.load (a + BitVec.ofNat 64 8) 8))
  have hdiff : s.Differs _ [lo, hi] := (hfirst.mono (by simp)).trans (hsecond.mono (by simp))
  rw [← hs', exec, heffect]
  refine ⟨?_, x_setX hhi, hdiff.others, hdiff.sp, hdiff.flags, hdiff.memory⟩
  exact (x_setX_of_ne hne).trans (x_setX hlo)

/-! Piece after piece. -/

theorem writes_clearBytes (hn : n ≤ 2 ^ 64) (ptr : Reg) :
    s.Writes (s.base ptr) (fun _ => 0) [] n (execAll origin (clearBytes n ptr) s) := by
  rw [clearBytes, map_eq_flatMap]
  refine (tiles_pieces n true).run (fun o k => [if k = 16 then stp xzr xzr ptr o else store (ofBytes k) xzr ptr o])
    (fun o s' => s.Writes (s.base ptr) (fun _ => 0) [] o s') (fun o k s' hk hle hI => ?_) s
    (writes_none ..)
  have hbase : s'.base ptr = s.base ptr := hI.base not_mem_nil
  apply hI.grow (by omega)
  rw [← hbase]
  split
  · rename_i h16
    subst h16
    refine (writes_stp origin s' xzr xzr ptr o).congr fun i _ => ?_
    rw [byteOf]
    rcases i / 8 with _ | _ | _ <;> exact extractLsb'_zero
  · rename_i hne
    refine (writes_store origin s' (mem_pieceSizes_of_ne k hk hne) xzr ptr o).congr fun i _ => ?_
    exact extractLsb'_zero

theorem writes_copyPiece (hk : k ∈ pieceSizes true) (hdst : dst ∉ [scratch, cycleTemp]) (src : Reg) (o : Nat) :
    s.Writes (s.base dst + BitVec.ofNat 64 o) (fun i => s.memory (s.base src + BitVec.ofNat 64 (o + i)))
      [scratch, cycleTemp] k (execAll origin
        (if k = 16 then [ldp scratch cycleTemp src o, stp scratch cycleTemp dst o]
        else [load (ofBytes k) false scratch src o, store (ofBytes k) scratch dst o]) s) := by
  have hat : ∀ i, s.base src + BitVec.ofNat 64 o + BitVec.ofNat 64 i = s.base src + BitVec.ofNat 64 (o + i) := by
    intro i
    rw [ofNat_add, BitVec.add_assoc]
  split
  · rename_i h16
    subst h16
    obtain ⟨hlo, hhi, hdiff⟩ := loads_ldp origin s (show scratch ≠ xzr by decide)
      (show cycleTemp ≠ xzr by decide) (by decide) src o rfl rfl
    have hstore := writes_stp origin ((ldp scratch cycleTemp src o).exec origin s) scratch cycleTemp dst o
    rw [hdiff.base hdst, hlo, hhi] at hstore
    refine (hstore.after hdiff (by simp)).congr fun i hi => ?_
    rcases lt_or_ge i 8 with hlt | hge
    · rw [byteOf_cons _ _ hlt, byte_load _ _ hlt (le_refl 8), hat]
    · obtain ⟨j, rfl⟩ := Nat.exists_eq_add_of_le hge
      have hj : j < 8 := by omega
      rw [byteOf_cons_add, byteOf_cons _ _ hj, byte_load _ _ hj (le_refl 8),
        BitVec.add_assoc _ _ (BitVec.ofNat 64 j), ← ofNat_add, hat]
  · rename_i hne
    have hpiece := mem_pieceSizes_of_ne k hk hne
    obtain ⟨hval, hdiff⟩ := sets_loadZero origin s hpiece (show scratch ≠ xzr by decide) src o
    have hstore := writes_store origin ((load (ofBytes k) false scratch src o).exec origin s) hpiece scratch dst o
    rw [hdiff.base (by simp_all), hval] at hstore
    refine (hstore.after (hdiff.mono (by simp)) (by simp)).congr fun i hi => ?_
    rw [byte_load _ _ hi (bytes_ofBytes k hpiece).2, hat]

theorem writes_copyBytes (hn : n ≤ 2 ^ 64) {src : Reg} (hdst : dst ∉ [scratch, cycleTemp])
    (hsrc : src ∉ [scratch, cycleTemp]) (hapart : s.base src = s.base dst ∨ ∀ i < n, ∀ j < n,
      s.base src + BitVec.ofNat 64 i ≠ s.base dst + BitVec.ofNat 64 j) :
    s.Writes (s.base dst) (fun i => s.memory (s.base src + BitVec.ofNat 64 i)) [scratch, cycleTemp] n
      (execAll origin (copyBytes n dst src) s) := by
  refine (tiles_pieces n true).run
    (fun o k => if k = 16 then [ldp scratch cycleTemp src o, stp scratch cycleTemp dst o]
      else [load (ofBytes k) false scratch src o, store (ofBytes k) scratch dst o])
    (fun o s' => s.Writes (s.base dst) (fun i => s.memory (s.base src + BitVec.ofNat 64 i))
      [scratch, cycleTemp] o s') (fun o k s' hk hle hI => ?_) s (writes_none ..)
  have hfrom := hI.base hsrc
  have hto := hI.base hdst
  -- the bytes that are still to be copied have not been written
  have hkept : ∀ i < k, s'.memory (s.base src + BitVec.ofNat 64 (o + i)) =
      s.memory (s.base src + BitVec.ofNat 64 (o + i)) := by
    intro i hi
    rw [hI.memory]
    apply if_neg
    intro hlt
    rcases hapart with heq | hne
    · bv_omega
    · refine hne (o + i) (by omega) _ (hlt.trans_le (by omega)) ?_
      bv_omega
  apply hI.grow (by omega)
  rw [← hto]
  refine (writes_copyPiece origin s' hk hdst src o).congr fun i hi => ?_
  rw [hfrom]
  exact hkept i hi

theorem byte_ubfm (x : BitVec 64) {o i : Nat} (h : o + i < 8) :
    (Bitfield.ubfm.apply x (o * 8) 63).extractLsb' (8 * i) 8 = x.extractLsb' (8 * (o + i)) 8 := by
  apply eq_of_getLsbD_eq
  intro j hj
  have hle : o * 8 ≤ 63 := by omega
  have hbit : 8 * i + j < 64 - o * 8 := by omega
  have hword : 8 * i + j < 64 := by omega
  have hindex : o * 8 + (8 * i + j) = 8 * (o + i) + j := by omega
  simp [Bitfield.apply, hle, hj, hbit, hword, hindex]

theorem ofNat_load_add (s : Machine) (a : BitVec 64) (o k : Nat) :
    BitVec.ofNat 64 (s.load a o) + BitVec.ofNat 64 (s.load (a + BitVec.ofNat 64 o) k) <<< (o * 8) =
      BitVec.ofNat 64 (s.load a (o + k)) := by
  apply eq_of_toNat_eq
  rw [load_add, toNat_add, toNat_shiftLeft, Nat.shiftLeft_eq, Nat.mul_comm o 8, Nat.pow_mul,
    Nat.mul_comm _ ((2 ^ 8) ^ o)]
  simp [Nat.add_mod, Nat.mul_mod]

/-- Storing a word piece by piece, where all but the first are shifted down beforehand. -/
theorem writes_storePieces {r base : Reg} (hr : r ≠ scratch) (hbase : base ≠ scratch) (start : Nat)
    (hn : n ≤ 8) : s.Writes (s.base base + BitVec.ofNat 64 start) (fun i => (s.x r).extractLsb' (8 * i) 8)
      [scratch] n (execAll origin (storePieces r base start n) s) := by
  refine (tiles_pieces n false).run (fun o k => if o = 0 then [store (ofBytes k) r base (start + o)]
      else [bitfield .ubfm scratch r (o * 8) 63, store (ofBytes k) scratch base (start + o)])
    (fun o s' => s.Writes (s.base base + BitVec.ofNat 64 start) (fun i => (s.x r).extractLsb' (8 * i) 8)
      [scratch] o s') (fun o k s' hk hle hI => ?_) s (writes_none ..)
  have hto := hI.base (by simpa using hbase)
  have hval : s'.x r = s.x r := Machine.Differs.others hI r (by simpa using hr)
  apply hI.grow (by omega)
  rw [BitVec.add_assoc, ← ofNat_add, ← hto]
  split
  · rename_i hzero
    subst hzero
    refine Machine.Writes.congr (Machine.Differs.mono (writes_store origin s' hk r base (start + 0)) (by simp)) ?_
    intro i _
    rw [hval, Nat.zero_add]
  · -- the byte that comes next is brought to the bottom of the scratch register
    obtain ⟨hshift, hdiff⟩ : s'.Sets scratch (Bitfield.ubfm.apply (s'.x r) (o * 8) 63) [scratch]
      ((bitfield .ubfm scratch r (o * 8) 63).exec origin s') := sets_exec rfl (by decide)
    have hstore := writes_store origin ((bitfield .ubfm scratch r (o * 8) 63).exec origin s') hk scratch base
      (start + o)
    rw [hdiff.base (by simpa using hbase), hshift, hval] at hstore
    refine (hstore.after hdiff (by simp)).congr fun i hi => ?_
    exact byte_ubfm _ (by omega)

/-- Loading a word piece by piece, where all but the first are shifted up and added. -/
theorem sets_loadPieces {base : Reg} (hrd : rd ≠ xzr) (hne : rd ≠ scratch)
    (hbase : base ∉ [rd, scratch]) (start : Nat) (hpos : 0 < n) :
    s.Sets rd (BitVec.ofNat 64 (s.load (s.base base + BitVec.ofNat 64 start) n)) [rd, scratch]
      (execAll origin (loadPieces rd base start n) s) := by
  refine ((tiles_pieces n false).run (fun o k => if o = 0 then [load (ofBytes k) false rd base (start + o)]
      else [load (ofBytes k) false scratch base (start + o), addSubReg .add rd rd scratch (o * 8)])
    (fun o s' => s.Differs s' [rd, scratch] ∧ (0 < o →
      s'.x rd = BitVec.ofNat 64 (s.load (s.base base + BitVec.ofNat 64 start) o)))
    (fun o k s' hk _ hI => ?_) s ⟨.refl .., fun h => absurd h (by decide)⟩).symm.imp_left (· hpos)
  obtain ⟨hdiff, hval⟩ := hI
  have hload : ∀ k, s'.load (s'.base base + BitVec.ofNat 64 (start + o)) k =
      s.load (s.base base + BitVec.ofNat 64 start + BitVec.ofNat 64 o) k := by
    intro k
    rw [hdiff.base hbase, ofNat_add, ← BitVec.add_assoc, load_congr fun _ _ => congrFun hdiff.memory _]
  split
  · rename_i hzero
    subst hzero
    obtain ⟨hfirst, hdiff'⟩ := sets_loadZero origin s' hk hrd base (start + 0)
    refine ⟨hdiff.trans (hdiff'.mono (by simp)), fun _ => hfirst.trans ?_⟩
    rw [hload, BitVec.add_zero, Nat.zero_add]
  · obtain ⟨hnext, hdiff1⟩ := sets_loadZero origin s' hk (show scratch ≠ xzr by decide) base (start + o)
    change s.Differs ((addSubReg .add rd rd scratch (o * 8)).exec origin _) _ ∧
      (_ → ((addSubReg .add rd rd scratch (o * 8)).exec origin _).x rd = _)
    generalize (load (ofBytes k) false scratch base (start + o)).exec origin s' = s1 at hnext hdiff1 ⊢
    obtain ⟨hsum, hdiff2⟩ : s1.Sets rd (s1.x rd + s1.x scratch <<< (o * 8)) [rd]
        ((addSubReg .add rd rd scratch (o * 8)).exec origin s1) := by
      apply sets_exec _ hrd
      rfl
    refine ⟨(hdiff.trans (hdiff1.mono (by simp))).trans (hdiff2.mono (by simp)), fun _ => hsum.trans ?_⟩
    rw [hdiff1.others rd (by simpa using hne), hval (by omega), hnext, hload, ofNat_load_add]

end Instr

/-! Whole values. -/

/-- A word of the value of `size` bytes at `a`, extended to a register. -/
def Machine.word (s : Machine) (signed : Bool) (size : Nat) (a : BitVec 64) (part : Nat) : BitVec 64 :=
  widen signed (BitVec.ofNat (8 * min 8 (size - 8 * part))
    (s.load (a + BitVec.ofNat 64 (8 * part)) (min 8 (size - 8 * part))))

theorem Machine.word_unsigned (s : Machine) (size : Nat) (a : BitVec 64) (part : Nat) :
    s.word false size a part = BitVec.ofNat 64 (s.load (a + BitVec.ofNat 64 (8 * part)) (min 8 (size - 8 * part))) := by
  have hlt := s.load_lt (a + BitVec.ofNat 64 (8 * part)) (min 8 (size - 8 * part))
  rw [show (256 : Nat) = 2 ^ 8 from rfl, ← Nat.pow_mul] at hlt
  apply eq_of_toNat_eq
  change ((BitVec.ofNat _ _).setWidth 64).toNat = _
  rw [toNat_setWidth, toNat_ofNat, toNat_ofNat, Nat.mod_eq_of_lt hlt]

theorem wordBytes_eq {size part : Nat} (h : 8 * part < size) : wordBytes size part = min 8 (size - 8 * part) := by
  rw [wordBytes, wordSize, if_pos (by omega), Nat.mul_comm, Nat.min_comm]

/-- A register that is neither of the two that code uses for itself. -/
def Reg.IsFree (r : Reg) : Prop := r ≠ scratch ∧ r ≠ cycleTemp ∧ r ≠ xzr

theorem Machine.base_eq_x (s : Machine) {r : Reg} (h : r ≠ xzr) : s.base r = s.x r := by
  have hsp : r ≠ Reg.sp := h
  rw [base, x, if_neg h, if_neg hsp]

/-- The registers have room for a value of that size, and none of them is left over. -/
def FillsWords (size : Nat) (rs : List Reg) : Prop := 0 < size ∧ size ≤ 16 ∧ rs.length = (size + 7) / 8

namespace Instr

variable {rs : List Reg} {ptr : Reg} {s' : Machine}

variable (origin : BitVec 64) (s : Machine) {size : Nat}

theorem loads_words {base : Reg} (hbase : base ≠ scratch) : ∀ {rs : List Reg} (k : Nat) (s : Machine),
    rs.Nodup → (∀ r ∈ rs, r ≠ xzr ∧ r ≠ scratch) → base ∉ rs → (∀ i < rs.length, 8 * (k + i) < size) →
    ∀ s', execAll origin ((rs.zipIdx k).flatMap fun p =>
      loadPieces p.1 base (p.2 * wordSize) (wordBytes size p.2)) s = s' →
    s.Differs s' (scratch :: rs) ∧ ∀ (i : Nat) rd, rs[i]? = some rd →
      s'.x rd = s.word false size (s.base base) (k + i) := by
  intro rs
  induction rs with
  | nil =>
    rintro k s - - - - s' rfl
    exact ⟨.refl .., fun i rd h => by cases h⟩
  | cons r rs ih =>
    rintro k s hnd hfree hnot hsize s' rfl
    obtain ⟨hr, hscratch⟩ := hfree r mem_cons_self
    obtain ⟨hnotr, hnot⟩ := not_or.mp (mem_cons.not.mp hnot)
    obtain ⟨hnew, hnd⟩ := nodup_cons.mp hnd
    have hk : 8 * k < size := hsize 0 (Nat.succ_pos _)
    rw [zipIdx_cons, flatMap_cons, execAll_append]
    obtain ⟨hval, hdiff⟩ := sets_loadPieces origin s hr hscratch (show base ∉ [r, scratch] by simp [hnotr, hbase])
      (k * wordSize) (n := wordBytes size k) (by rw [wordBytes_eq hk]; omega)
    generalize execAll origin (loadPieces r base (k * wordSize) (wordBytes size k)) s = s1 at hval hdiff ⊢
    -- the rest reads what was there before, through the same pointer
    obtain ⟨hrest, hvals⟩ := ih (k + 1) s1 hnd (fun q hq => hfree q (mem_cons_of_mem r hq)) hnot
      (fun i hi => by have := hsize (i + 1) (Nat.succ_lt_succ hi); omega) _ rfl
    refine ⟨(hdiff.mono (by simp)).trans (hrest.mono (by simp +contextual)), fun i rd hi => ?_⟩
    cases i with
    | zero =>
      obtain rfl := Option.some.inj hi
      rw [hrest.others r (by simp [hscratch, hnew]), hval, word_unsigned, wordBytes_eq hk]
      rw [Nat.mul_comm k]
      rfl
    | succ i =>
      rw [hvals i rd hi, word_unsigned, word_unsigned, hdiff.base (by simp [hnotr, hbase]),
        load_congr fun _ _ => congrFun hdiff.memory _, show k + 1 + i = k + (i + 1) by omega]

/-- Loading word by word. If the pointer would be overwritten, a copy of it is used. -/
def loadWords (size : Nat) (rs : List Reg) (ptr : Reg) : List Instr :=
  (if rs.contains ptr then [mov cycleTemp ptr] else []) ++
    rs.zipIdx.flatMap fun p => loadPieces p.1 (if rs.contains ptr then cycleTemp else ptr)
      (p.2 * wordSize) (wordBytes size p.2)

def storeWords (size : Nat) (rs : List Reg) (ptr : Reg) : List Instr :=
  rs.zipIdx.flatMap fun p => storePieces p.1 ptr (p.2 * wordSize) (wordBytes size p.2)

theorem loadValue_cases (types : TypeTable) (ty : TypeId) (rs : List Reg) (ptr : Reg) :
    (∃ r, rs = [r] ∧ isAccessSize (types.size ty) ∧
      loadValue types ty rs ptr = [load (.ofBytes (types.size ty)) (types.isSigned ty) r ptr 0]) ∨
    (∃ lo hi, rs = [lo, hi] ∧ types.size ty = 16 ∧ loadValue types ty rs ptr = [ldp lo hi ptr 0]) ∨
    (∀ r, rs = [r] → ¬isAccessSize (types.size ty)) ∧
      loadValue types ty rs ptr = loadWords (types.size ty) rs ptr := by
  fun_cases loadValue types ty rs ptr with
  | case1 _ r h => exact .inl ⟨r, rfl, h, rfl⟩
  | case2 _ _ h _ => exact .inr (.inr ⟨fun _ _ => h, rfl⟩)
  | case3 _ lo hi h => exact .inr (.inl ⟨lo, hi, rfl, h, rfl⟩)
  | case4 => exact .inr (.inr ⟨fun q hq => by simp at hq, rfl⟩)
  | case5 _ _ _ h _ => exact .inr (.inr ⟨fun q hq => absurd hq (h q), rfl⟩)

theorem storeValue_cases (size : Nat) (rs : List Reg) (ptr : Reg) :
    (∃ r, rs = [r] ∧ isAccessSize size ∧ storeValue size rs ptr = [store (.ofBytes size) r ptr 0]) ∨
    (∃ lo hi, rs = [lo, hi] ∧ size = 16 ∧ storeValue size rs ptr = [stp lo hi ptr 0]) ∨
    storeValue size rs ptr = storeWords size rs ptr := by
  fun_cases storeValue size rs ptr with
  | case1 r h => exact .inl ⟨r, rfl, h, rfl⟩
  | case3 lo hi h => exact .inr (.inl ⟨lo, hi, rfl, h, rfl⟩)
  | _ => exact .inr (.inr rfl)

theorem loads_general (hvalue : FillsWords size rs) (hnd : rs.Nodup) (hfree : ∀ r ∈ rs, r.IsFree)
    (hptr : ptr.IsFree) (hs' : execAll origin (loadWords size rs ptr) s = s') :
    (∀ (i : Nat) rd, rs[i]? = some rd → s'.x rd = s.word false size (s.x ptr) i) ∧
      s.Differs s' (scratch :: cycleTemp :: rs) := by
  obtain ⟨-, -, hlen⟩ := hvalue
  have hfree' : ∀ r ∈ rs, r ≠ xzr ∧ r ≠ scratch := fun r hr => ⟨(hfree r hr).2.2, (hfree r hr).1⟩
  have hsize : ∀ i < rs.length, 8 * (0 + i) < size := by omega
  rw [loadWords] at hs'
  by_cases hmem : ptr ∈ rs
  · rw [if_pos (contains_iff_mem.mpr hmem), if_pos (contains_iff_mem.mpr hmem)] at hs'
    obtain ⟨hcopy, hdiff⟩ := sets_mov origin s (show cycleTemp ≠ xzr by decide) hptr.2.2
    obtain ⟨hrest, hvals⟩ := loads_words origin (show cycleTemp ≠ scratch by decide) 0 _ hnd hfree'
      (fun hr => (hfree _ hr).2.1 rfl) hsize _ hs'
    refine ⟨fun i rd hi => ?_, (hdiff.mono (by simp)).trans (hrest.mono (by simp +contextual))⟩
    rw [hvals i rd hi, Nat.zero_add, word_unsigned, word_unsigned]
    change BitVec.ofNat 64 (Machine.load ((mov cycleTemp ptr).exec origin s)
      (((mov cycleTemp ptr).exec origin s).x cycleTemp + _) _) = _
    rw [hcopy, load_congr fun _ _ => congrFun hdiff.memory _]
  · have hnot : ¬rs.contains ptr := fun h => hmem (contains_iff_mem.mp h)
    rw [if_neg hnot, if_neg hnot] at hs'
    obtain ⟨hrest, hvals⟩ := loads_words origin hptr.1 0 s hnd hfree' hmem hsize _ hs'
    refine ⟨fun i rd hi => ?_, hrest.mono (by simp +contextual)⟩
    rw [hvals i rd hi, Nat.zero_add, base_eq_x _ hptr.2.2]

theorem loads_value {types : TypeTable} {ty : TypeId}
    (hsigned : types.isSigned ty → isAccessSize (types.size ty) ∧ types.size ty ≤ 8)
    (hvalue : FillsWords (types.size ty) rs) (hnd : rs.Nodup) (hfree : ∀ r ∈ rs, r.IsFree)
    (hptr : ptr.IsFree) (hs' : execAll origin (loadValue types ty rs ptr) s = s') :
    (∀ (i : Nat) rd, rs[i]? = some rd → s'.x rd = s.word (types.isSigned ty) (types.size ty) (s.x ptr) i) ∧
    s.Differs s' (scratch :: cycleTemp :: rs) := by
  obtain ⟨hpos, hle, hlen⟩ := id hvalue
  have hbase := s.base_eq_x hptr.2.2
  have hunsigned : ¬(isAccessSize (types.size ty) ∧ types.size ty ≤ 8) → types.isSigned ty = false :=
    fun h => Bool.eq_false_iff.mpr fun heq => h (hsigned heq)
  obtain ⟨r, rfl, haccess, hcode⟩ | ⟨lo, hi, rfl, hsize, hcode⟩ | ⟨hnot, hcode⟩ := loadValue_cases types ty rs ptr <;>
    rw [hcode] at hs'
  · have hsmall : types.size ty ≤ 8 := by
      rw [length_singleton] at hlen
      omega
    have hbytes := (bytes_ofBytes _ (mem_pieceSizes_of_isAccessSize _ hsmall haccess)).1
    obtain ⟨hval, hdiff⟩ : s.Sets r _ [r]
      ((load (.ofBytes (types.size ty)) (types.isSigned ty) r ptr 0).exec origin s) :=
      sets_load (hfree r mem_cons_self).2.2
    rw [setWidth_wordAt _ _ (by rw [hbytes]; exact hsmall), hbytes, hbase] at hval
    change (load _ _ _ _ _).exec origin s = s' at hs'
    rw [hs'] at hval hdiff
    refine ⟨fun i rd hi => ?_, hdiff.mono (by simp)⟩
    cases i with
    | zero =>
      obtain rfl := Option.some.inj hi
      rw [hval, word, show min 8 (types.size ty - 8 * 0) = types.size ty by omega]
    | succ i => cases hi
  · rw [hunsigned (by omega)]
    obtain ⟨hlo, hhi, hdiff⟩ := loads_ldp origin s (hfree lo (by simp)).2.2 (hfree hi (by simp)).2.2
      (by simpa using hnd) ptr 0 rfl hs'
    refine ⟨fun i rd hi => ?_, hdiff.mono (by simp +contextual)⟩
    rw [hsize, ← hbase]
    rcases i with _ | _ | i
    · obtain rfl := Option.some.inj hi
      exact hlo
    · obtain rfl := Option.some.inj hi
      rw [hhi, BitVec.add_zero]
      rfl
    · cases hi
  · have hfalse := hunsigned fun h => by
      obtain ⟨r, hr⟩ := length_eq_one_iff.mp (show rs.length = 1 by omega)
      exact hnot r hr h.1
    rw [hfalse]
    exact loads_general origin s hvalue hnd hfree hptr hs'

theorem writes_value (hvalue : FillsWords size rs) (hfree : ∀ r ∈ rs, r ≠ scratch) (hptr : ptr ≠ scratch) :
    s.Writes (s.base ptr) (byteOf (rs.map s.x)) [scratch] size (execAll origin (storeValue size rs ptr) s) := by
  obtain ⟨hpos, hle, hlen⟩ := hvalue
  have hfirst : ∀ (r : Reg) (ws : List (BitVec 64)), r ≠ scratch →
      s.Writes (s.base ptr) (byteOf (s.x r :: ws)) [scratch] (min 8 size)
        (execAll origin (storePieces r ptr (0 * wordSize) (wordBytes size 0)) s) := by
    intro r ws hr
    have hstore := writes_storePieces origin s hr hptr (0 * wordSize) (n := min 8 size) (by omega)
    rw [Nat.zero_mul, BitVec.add_zero] at hstore
    rw [wordBytes_eq hpos]
    exact hstore.congr fun i hi => (byteOf_cons _ _ (by omega)).symm
  obtain ⟨r, rfl, haccess, hcode⟩ | ⟨lo, hi, rfl, h16, hcode⟩ | hcode := storeValue_cases size rs ptr <;>
    rw [hcode]
  · rw [length_singleton] at hlen
    have hstore := writes_store origin s (mem_pieceSizes_of_isAccessSize _ (by omega) haccess) r ptr 0
    rw [BitVec.add_zero] at hstore
    exact Machine.Writes.congr (Machine.Differs.mono hstore (by simp)) fun i hi => (byteOf_cons _ _ (by omega)).symm
  · have hstore := writes_stp origin s lo hi ptr 0
    rw [BitVec.add_zero] at hstore
    rw [h16]
    exact Machine.Differs.mono hstore (by simp)
  · rcases rs with _ | ⟨r, _ | ⟨q, _ | ⟨_, _⟩⟩⟩ <;> simp only [length_cons, length_nil] at hlen
    · omega
    · have hall := hfirst r [] (hfree r mem_cons_self)
      rw [show min 8 size = size by omega] at hall
      simpa [storeWords] using hall
    · have hlow := hfirst r [s.x q] (hfree r mem_cons_self)
      rw [show min 8 size = 8 by omega] at hlow
      have hbase := hlow.base (by simpa using hptr)
      have hval : _ = s.x q := Machine.Differs.others hlow q (by simpa using hfree q (by simp))
      have hhigh := writes_storePieces origin (execAll origin (storePieces r ptr (0 * wordSize) (wordBytes size 0)) s)
        (hfree q (by simp)) hptr (1 * wordSize) (n := wordBytes size 1) (by rw [wordBytes_eq (by omega)]; omega)
      rw [hbase, hval] at hhigh
      have hboth := hlow.grow (by rw [wordBytes_eq (by omega)]; omega) (hhigh.congr fun i hi => ?_)
      · rw [show 8 + wordBytes size 1 = size by rw [wordBytes_eq (by omega)]; omega, ← execAll_append] at hboth
        simpa [storeWords] using hboth
      · rw [byteOf_cons_add, byteOf_cons]
        rw [wordBytes_eq (by omega)] at hi
        omega
    · omega

end Instr

/-- What has been stored can be loaded again. -/
theorem Machine.word_of_writes {s s' : Machine} {a x : BitVec 64} {words : List (BitVec 64)} {rs : List Reg}
    {size part : Nat} (h : s.Writes a (byteOf words) rs size s') (hsize : size ≤ 16) (hx : words[part]? = some x)
    (signed : Bool) : s'.word signed size a part = widen signed (x.setWidth (8 * min 8 (size - 8 * part))) := by
  rw [word]
  generalize hk : min 8 (size - 8 * part) = k
  have hload := load_eq_of_bytes x k 0 (a + BitVec.ofNat 64 (8 * part)) fun j hj => by
    have hoff : (a + BitVec.ofNat 64 (8 * part) + BitVec.ofNat 64 j - a).toNat = 8 * part + j := by bv_omega
    rw [h.memory]
    change (if _ then _ else _) = _
    rw [hoff, if_pos (by omega), byteOf, Nat.mul_add_div (by decide), Nat.mul_add_mod, Nat.div_eq_of_lt (by omega),
      Nat.mod_eq_of_lt (by omega), Nat.add_zero, Nat.zero_add, getD_eq_getElem?_getD, hx]
    rfl
  have hcut : BitVec.ofNat (8 * k) (s'.load (a + BitVec.ofNat 64 (8 * part)) k) = x.setWidth (8 * k) := by
    apply eq_of_toNat_eq
    rw [hload, toNat_ofNat, toNat_setWidth, Nat.pow_zero, Nat.div_one, Nat.pow_mul]
    exact Nat.mod_mod _ _
  rw [hcut]

/-! What is emitted. -/

namespace Instr

variable {i : Instr} {r q base ptr : Reg} {n start : Nat} {rs : List Reg}

theorem direct_of_mem_clearBytes (hi : i ∈ clearBytes n ptr) : i.Direct := by
  obtain ⟨p, -, rfl⟩ := mem_map.mp hi
  dsimp only
  split
  · exact direct_pair ..
  · exact direct_store ..

theorem direct_of_mem_copyBytes (hi : i ∈ copyBytes n q r) : i.Direct := by
  obtain ⟨p, -, hi⟩ := mem_flatMap.mp hi
  dsimp only at hi
  split at hi <;> simp only [mem_cons, not_mem_nil, or_false] at hi <;> rcases hi with rfl | rfl
  · exact direct_pair ..
  · exact direct_pair ..
  · exact direct_load ..
  · exact direct_store ..

theorem fits_piece : ∀ n ≤ 8, ∀ p ∈ pieces n false, ∀ start ∈ [0, 8],
    ((ofBytes p.2).bytes ∣ start + p.1 ∧ start + p.1 < 4096 * (ofBytes p.2).bytes) ∧ p.1 * 8 < 64 := by decide

theorem emits_of_mem_loadPieces (hi : i ∈ loadPieces r base start n) :
    i.Direct ∧ (n ≤ 8 → start ∈ [0, 8] → i.Fits) := by
  obtain ⟨p, hp, hi⟩ := mem_flatMap.mp hi
  dsimp only at hi
  split at hi <;> simp only [mem_cons, not_mem_nil, or_false] at hi
  · exact hi ▸ ⟨direct_load .., fun hn hstart => (fits_piece n hn p hp start hstart).1⟩
  · rcases hi with rfl | rfl
    · exact ⟨direct_load .., fun hn hstart => (fits_piece n hn p hp start hstart).1⟩
    · exact ⟨direct_of_isData rfl, fun hn hstart => (fits_piece n hn p hp start hstart).2⟩

theorem emits_of_mem_storePieces (hi : i ∈ storePieces r base start n) :
    i.Direct ∧ (n ≤ 8 → start ∈ [0, 8] → i.Fits) := by
  obtain ⟨p, hp, hi⟩ := mem_flatMap.mp hi
  dsimp only at hi
  split at hi <;> simp only [mem_cons, not_mem_nil, or_false] at hi
  · exact hi ▸ ⟨direct_store .., fun hn hstart => (fits_piece n hn p hp start hstart).1⟩
  · rcases hi with rfl | rfl
    · exact ⟨direct_of_isData rfl, fun hn hstart => ⟨(fits_piece n hn p hp start hstart).2, by decide⟩⟩
    · exact ⟨direct_store .., fun hn hstart => (fits_piece n hn p hp start hstart).1⟩

theorem wordBytes_le (size part : Nat) : wordBytes size part ≤ 8 := by
  rw [wordBytes]
  split
  · exact Nat.min_le_right ..
  · exact le_refl 8

theorem fits_zero (size : MemSize) : size.bytes ∣ 0 ∧ 0 < 4096 * size.bytes := by
  cases size <;> decide

theorem start_of_mem_zipIdx {size : Nat} (hvalue : FillsWords size rs) {p : Reg × Nat} (hp : p ∈ rs.zipIdx) :
    p.2 * wordSize ∈ [0, 8] := by
  obtain ⟨-, hle, hlen⟩ := hvalue
  have hlt : p.2 < 2 := (snd_lt_of_mem_zipIdx hp).trans_le (by omega)
  rcases hpart : p.2 with _ | _ | _
  · decide
  · decide
  · omega

theorem emits_of_mem_loadValue {types : TypeTable} {ty : TypeId} (hi : i ∈ loadValue types ty rs ptr) :
    i.Direct ∧ (FillsWords (types.size ty) rs → i.Fits) := by
  obtain ⟨_, -, -, hcode⟩ | ⟨_, _, -, -, hcode⟩ | ⟨-, hcode⟩ := loadValue_cases types ty rs ptr <;>
    rw [hcode] at hi
  · exact mem_singleton.mp hi ▸ ⟨direct_load .., fun _ => fits_zero _⟩
  · exact mem_singleton.mp hi ▸ ⟨direct_pair .., fun _ => ⟨by decide, by decide, by decide⟩⟩
  · rcases mem_append.mp hi with hi | hi
    · split at hi
      · obtain ⟨hdata, hfits⟩ := emits_mov cycleTemp ptr
        exact mem_singleton.mp hi ▸ ⟨direct_of_isData hdata, fun _ => hfits⟩
      · cases hi
    · obtain ⟨p, hp, hi⟩ := mem_flatMap.mp hi
      exact (emits_of_mem_loadPieces hi).imp_right fun hfits hvalue =>
        hfits (wordBytes_le ..) (start_of_mem_zipIdx hvalue hp)

theorem emits_of_mem_storeValue {size : Nat} (hi : i ∈ storeValue size rs ptr) :
    i.Direct ∧ (FillsWords size rs → i.Fits) := by
  obtain ⟨_, -, -, hcode⟩ | ⟨_, _, -, -, hcode⟩ | hcode := storeValue_cases size rs ptr <;> rw [hcode] at hi
  · exact mem_singleton.mp hi ▸ ⟨direct_store .., fun _ => fits_zero _⟩
  · exact mem_singleton.mp hi ▸ ⟨direct_pair .., fun _ => ⟨by decide, by decide, by decide⟩⟩
  · obtain ⟨p, hp, hi⟩ := mem_flatMap.mp hi
    exact (emits_of_mem_storePieces hi).imp_right fun hfits hvalue =>
      hfits (wordBytes_le ..) (start_of_mem_zipIdx hvalue hp)

end Instr

theorem TypeTable.Made.access_of_isSigned {types : TypeTable} {ty : TypeId} (h : types.Made)
    (hty : types.isSigned ty) : isAccessSize (types.size ty) ∧ types.size ty ≤ 8 := by
  have hall : ∀ ty < TypeTable.builtins.count, TypeTable.builtins.isSigned ty →
      isAccessSize (TypeTable.builtins.size ty) ∧ TypeTable.builtins.size ty ≤ 8 := by decide
  have hinteger : types.isInteger ty := by
    rw [isSigned] at hty
    rw [isInteger]
    split at hty
    · rename_i hkind
      rw [hkind]
    · cases hty
  have hlt := h.builtin_of_isInteger hinteger
  rw [isSigned, h.kind_builtin hlt] at hty
  rw [h.size_builtin hlt]
  exact hall ty hlt hty

namespace Target

variable {t : Target} {v w : ValueId} {rs : List Reg} {ptr : Reg}

theorem regs_eq (h : t.InRegs v rs) : t.regs v = pure rs := by
  obtain ⟨l, hl, hreg, rfl⟩ := h
  rw [regs, location_eq hl, pure_bind, if_pos hreg]

/-- The value is of a type that registers hold, and it is in as many of them as the type has words. -/
structure Carries (t : Target) (v : ValueId) (rs : List Reg) : Prop where
  inRegs : t.InRegs v rs
  value : t.types.isRegisterValue (t.func.value v).ty = true
  words : rs.length = t.types.parts (t.func.value v).ty
  free : ∀ r ∈ rs, r.IsFree

theorem Carries.fillsWords (h : t.Carries v rs) : FillsWords (t.types.size (t.func.value v).ty) rs := by
  have hvalue := of_decide_eq_true h.value
  rw [FillsWords, h.words]
  revert hvalue
  rw [TypeTable.parts]
  generalize t.types.size (t.func.value v).ty = size
  split
  · exact fun hvalue => absurd hvalue (lt_irrefl 0)
  · exact fun hvalue => absurd hvalue (lt_irrefl 0)
  · by_cases hsize : size = 0 ∨ maxRegisterSize < size
    · rw [if_pos hsize]
      exact fun hvalue => absurd hvalue (lt_irrefl 0)
    · rw [if_neg hsize]
      obtain ⟨hzero, hmax⟩ := not_or.mp hsize
      exact fun _ => ⟨Nat.pos_of_ne_zero hzero, not_lt.mp hmax, rfl⟩

/-- The operand is a pointer in the register. -/
def Points (t : Target) (v : ValueId) (r : Reg) : Prop := t.InReg v r ∧ r.IsFree

theorem emitLoad_eq (hrs : t.InRegs v rs) (hptr : t.InReg (t.func.arg v 0) ptr) :
    t.emitLoad v = emitAll (loadValue t.types (t.func.value v).ty rs ptr) := by
  rw [emitLoad, regs_eq hrs, pure_bind, reg_eq hptr, pure_bind]

theorem emitStore_eq (hrs : t.InRegs (t.func.arg v 1) rs) (hptr : t.InReg (t.func.arg v 0) ptr) :
    t.emitStore v = emitAll (storeValue (t.types.size (t.func.value (t.func.arg v 1)).ty) rs ptr) := by
  rw [emitStore, reg_eq hptr, pure_bind]
  dsimp only
  rw [regs_eq hrs, pure_bind]

theorem natPayload_eq {k : Int} (h : (t.func.value v).payload = .int k) :
    t.natPayload v = pure (k % 0x100000000).toNat := by
  rw [natPayload, intPayload, h]
  exact pure_bind _ _

theorem achieves_emitLoad (htypes : t.types.Made) (h : t.Carries v rs) (hnd : rs.Nodup)
    (hptr : t.Points (t.func.arg v 0) ptr) : Succeeds (t.emitLoad v) ∧ Achieves (t.emitLoad v) fun s s' =>
      (∀ (part : Nat) rd, rs[part]? = some rd → s'.x rd = s.word (t.types.isSigned (t.func.value v).ty)
        (t.types.size (t.func.value v).ty) (s.x ptr) part) ∧ s.Differs s' (scratch :: cycleTemp :: rs) := by
  rw [emitLoad_eq h.inRegs hptr.1]
  refine ⟨succeeds_emitAll fun i hi => (emits_of_mem_loadValue hi).2 h.fillsWords,
    achieves_emitAll (fun i hi => (emits_of_mem_loadValue hi).1) fun origin s => ?_⟩
  exact loads_value origin s htypes.access_of_isSigned h.fillsWords hnd h.free hptr.2 rfl

theorem achieves_emitStore (h : t.Carries (t.func.arg v 1) rs) (hptr : t.Points (t.func.arg v 0) ptr) :
    Succeeds (t.emitStore v) ∧ Achieves (t.emitStore v) fun s s' =>
      s.Writes (s.x ptr) (byteOf (rs.map s.x)) [scratch] (t.types.size (t.func.value (t.func.arg v 1)).ty) s' := by
  rw [emitStore_eq h.inRegs hptr.1]
  refine ⟨succeeds_emitAll fun i hi => (emits_of_mem_storeValue hi).2 h.fillsWords,
    achieves_emitAll (fun i hi => (emits_of_mem_storeValue hi).1) fun origin s => ?_⟩
  rw [← s.base_eq_x hptr.2.2.2]
  exact writes_value origin s h.fillsWords (fun r hr => (h.free r hr).1) hptr.2.1

end Target

/-- Memory is moved to the byte. A load fills its registers with the bytes of the value, extended to whole
words, and leaves memory alone. A store writes the bytes of the value, clearing writes zeros, and copying
writes what was in the other area; no other byte changes. A load after a store finds what was stored. -/
theorem memory_moved_exactly {t : Target} (htypes : t.types.Made) (v : ValueId) :
    (∀ rs ptr, t.Carries v rs → rs.Nodup → t.Points (t.func.arg v 0) ptr →
      Succeeds (t.emitLoad v) ∧ Achieves (t.emitLoad v) fun s s' =>
        (∀ (part : Nat) rd, rs[part]? = some rd → s'.x rd = s.word (t.types.isSigned (t.func.value v).ty)
          (t.types.size (t.func.value v).ty) (s.x ptr) part) ∧ s.Differs s' (scratch :: cycleTemp :: rs)) ∧
    (∀ rs ptr, t.Carries (t.func.arg v 1) rs → t.Points (t.func.arg v 0) ptr →
      Succeeds (t.emitStore v) ∧ Achieves (t.emitStore v) fun s s' => s.Writes (s.x ptr)
        (byteOf (rs.map s.x)) [scratch] (t.types.size (t.func.value (t.func.arg v 1)).ty) s') ∧
    (∀ k n ptr, (t.func.value v).payload = .int k → n = (k % 0x100000000).toNat →
      t.Points (t.func.arg v 0) ptr → Achieves (t.emitZero v) fun s s' =>
        s.Writes (s.x ptr) (fun _ => 0) [] n s') ∧
    (∀ k n dst src, (t.func.value v).payload = .int k → n = (k % 0x100000000).toNat →
      t.Points (t.func.arg v 0) dst → t.Points (t.func.arg v 1) src → Achieves (t.emitMove v) fun s s' =>
        (s.x src = s.x dst ∨ ∀ i < n, ∀ j < n, s.x src + BitVec.ofNat 64 i ≠ s.x dst + BitVec.ofNat 64 j) →
        s.Writes (s.x dst) (fun i => s.memory (s.x src + BitVec.ofNat 64 i)) [scratch, cycleTemp] n s') ∧
    ∀ w rs qs ptr ptr', t.Carries (t.func.arg v 1) rs → t.Points (t.func.arg v 0) ptr → t.Carries w qs →
      qs.Nodup → t.Points (t.func.arg w 0) ptr' → (t.func.value w).ty = (t.func.value (t.func.arg v 1)).ty →
      Achieves (do t.emitStore v; t.emitLoad w) fun s s' => s.x ptr' = s.x ptr →
        ∀ (part : Nat) r rd, rs[part]? = some r → qs[part]? = some rd →
          s'.x rd = widen (t.types.isSigned (t.func.value w).ty)
            ((s.x r).setWidth (8 * min 8 (t.types.size (t.func.value w).ty - 8 * part))) := by
  refine ⟨fun rs ptr => Target.achieves_emitLoad htypes, fun rs ptr => Target.achieves_emitStore, ?_, ?_, ?_⟩
  · rintro k n ptr hpayload rfl hptr
    rw [Target.emitZero, Target.reg_eq hptr.1, pure_bind, Target.natPayload_eq hpayload, pure_bind]
    refine achieves_emitAll (fun i hi => direct_of_mem_clearBytes hi) fun origin s => ?_
    rw [← s.base_eq_x hptr.2.2.2]
    exact writes_clearBytes origin s (by omega) ptr
  · rintro k n dst src hpayload rfl hdst hsrc
    rw [Target.emitMove, Target.reg_eq hdst.1, pure_bind, Target.reg_eq hsrc.1, pure_bind]
    split
    · rename_i heq
      rw [heq]
      exact achieves_pure fun s _ => Machine.writes_self ..
    · rw [Target.natPayload_eq hpayload, pure_bind]
      refine achieves_emitAll (fun i hi => direct_of_mem_copyBytes hi) fun origin s hapart => ?_
      rw [← s.base_eq_x hdst.2.2.2, ← s.base_eq_x hsrc.2.2.2] at hapart ⊢
      exact writes_copyBytes origin s (by omega) (by simp [hdst.2.1, hdst.2.2.1])
        (by simp [hsrc.2.1, hsrc.2.2.1]) hapart
  · intro w rs qs ptr ptr' hstored hptr hloaded hnd hptr' hty
    have hcode : (do t.emitStore v; t.emitLoad w : Emit Unit) = emitAll
        (storeValue (t.types.size (t.func.value (t.func.arg v 1)).ty) rs ptr ++
          loadValue t.types (t.func.value w).ty qs ptr') := by
      rw [Target.emitStore_eq hstored.inRegs hptr.1, Target.emitLoad_eq hloaded.inRegs hptr'.1]
      exact List.forM_append.symm
    rw [hcode]
    refine achieves_emitAll (fun i hi => (List.mem_append.mp hi).elim (fun hi => (emits_of_mem_storeValue hi).1)
      fun hi => (emits_of_mem_loadValue hi).1) fun origin s hsame part r rd hr hrd => ?_
    have hwrites := writes_value origin s hstored.fillsWords (fun r hr => (hstored.free r hr).1) hptr.2.1
    rw [execAll_append]
    generalize execAll origin (storeValue _ rs ptr) s = s₁ at hwrites ⊢
    have hptr₁ : s₁.x ptr' = s.base ptr := by
      rw [s.base_eq_x hptr.2.2.2, ← hsame]
      exact Machine.Differs.others hwrites ptr' (by simpa using hptr'.2.1)
    rw [(loads_value origin s₁ htypes.access_of_isSigned hloaded.fillsWords hnd hloaded.free hptr'.2 rfl).1 part rd hrd,
      hptr₁, hty]
    exact Machine.word_of_writes hwrites hstored.fillsWords.2.1 (by rw [List.getElem?_map, hr]; rfl) _

/-- Three bytes are loaded into the register that their address is in. -/
def threeBytes : Target where
  func := { Func.new "bytes" [TypeId.ptr] TypeId.void with
      values := #[⟨.arg, TypeId.ptr, ⟨0, 0⟩, .int 0, 1, 0, some (.reg 0)⟩,
        ⟨.load, TypeTable.builtins.count, ⟨0, 1⟩, .none, 1, 0, some (.reg 0)⟩]
      operands := #[0] }
  types := (TypeTable.builtins.internStruct [TypeId.u8, TypeId.u8, TypeId.u8]).2
  frame := .layout [] 0 0 false false
  edgeMoves := #[]

theorem threeBytes_moved_exactly : threeBytes.types.Made ∧ threeBytes.Carries 1 [0] ∧ threeBytes.Points 0 0 ∧
    Succeeds (threeBytes.emitLoad 1) ∧ Achieves (threeBytes.emitLoad 1) fun s s' =>
      s'.x 0 = (BitVec.ofNat 24 (s.load (s.x 0) 3)).setWidth 64 ∧ s'.memory = s.memory := by
  have hmade : threeBytes.types.Made := .internStruct .builtins _
  have hfree : Reg.IsFree 0 := by unfold Reg.IsFree; decide
  have hcarries : threeBytes.Carries 1 [0] :=
    ⟨⟨.reg 0, rfl, rfl, rfl⟩, by decide +kernel, by decide +kernel, by simpa using hfree⟩
  have hpoints : threeBytes.Points 0 0 := ⟨⟨[0], ⟨.reg 0, rfl, rfl, rfl⟩, rfl⟩, hfree⟩
  obtain ⟨hsucceeds, hachieves⟩ := (memory_moved_exactly hmade 1).1 [0] 0 hcarries (by simp) hpoints
  refine ⟨hmade, hcarries, hpoints, hsucceeds, hachieves.mono fun s s' h => ⟨?_, h.2.memory⟩⟩
  have hsize : threeBytes.types.size (threeBytes.func.value 1).ty = 3 := by decide +kernel
  have hsigned : threeBytes.types.isSigned (threeBytes.func.value 1).ty = false := by decide +kernel
  rw [h.1 0 0 rfl, hsize, hsigned, Machine.word, BitVec.add_zero]
  rfl

end SsaCodegen
