import SsaCodegen.Proofs.Emission.Directness
import SsaCodegen.Proofs.Moves.Sequence

/-! Words on their way between registers and the stack. Each move reads one word and writes one, so that a
sequence of moves has on the machine the effect that it has on locations. -/

namespace SsaCodegen

open List BitVec Machine Instr

theorem Machine.Writes.wordAt {s s' : Machine} {a v : BitVec 64} {rs : List Reg}
    (h : s.Writes a (fun i => v.extractLsb' (8 * i) 8) rs 8 s') : s'.wordAt a = v := by
  refine word_eq_of_bytes fun i hi => (congrFun h.memory _).trans ?_
  have hoff : (a + BitVec.ofNat 64 i - a).toNat = i := by bv_omega
  change (if _ then _ else _) = _
  rw [hoff, if_pos hi]

namespace Frame

variable {fr : Frame} {s s' s'' : Machine} {slot slot' : StackSlot} {l src dst : WordLoc}
  {ds es : List WordLoc} {is : List Instr} {r : Reg} {v origin : BitVec 64}

/-- A frame as functions have it, smaller than four gigabytes. -/
def Laid (fr : Frame) : Prop :=
  (∃ locals spillSize outgoing calls incoming, fr = layout locals spillSize outgoing calls incoming) ∧
    fr.bodySize < 2 ^ 32

/-- The word lies in an area of the frame, or among the words that the caller passed. -/
def Holds (fr : Frame) : StackSlot → Prop
  | .outgoing o => 8 ∣ o ∧ o + 8 ≤ fr.outgoingSize
  | .spill o => 8 ∣ o ∧ o + 8 ≤ fr.spillSize
  | .incoming o => 8 ∣ o ∧ fr.hasRecord ∧ o < 2 ^ 32

/-- Bytes from the stack pointer up to a slot. -/
def height (fr : Frame) : StackSlot → Nat
  | .outgoing o => o
  | .spill o => fr.outgoingSize + fr.localsSize + o
  | .incoming o => fr.bodySize + (frameRecordSize + o)

theorem Laid.bounds (h : fr.Laid) : 8 ∣ fr.outgoingSize ∧ 8 ∣ fr.localsSize ∧ 8 ∣ fr.bodySize ∧
    fr.outgoingSize + fr.localsSize + fr.spillSize ≤ fr.bodySize := by
  obtain ⟨⟨locals, spillSize, outgoing, calls, incoming, rfl⟩, -⟩ := h
  have hword : ∀ n, 8 ∣ alignTo n stackAlign := fun n => Nat.dvd_trans (by decide) (alignTo_stackAlign n).1
  exact ⟨hword _, (alignTo_wordSize _).1, hword _, (alignTo_stackAlign _).2⟩

theorem Laid.height_apart (h : fr.Laid) (hslot : fr.Holds slot) (hslot' : fr.Holds slot') (hne : slot ≠ slot') :
    fr.height slot < 2 ^ 34 ∧ fr.height slot' < 2 ^ 34 ∧
      (fr.height slot + 8 ≤ fr.height slot' ∨ fr.height slot' + 8 ≤ fr.height slot) := by
  obtain ⟨hout, hlocals, hbody, hle⟩ := h.bounds
  have hlt := h.2
  have hrecord : frameRecordSize = 16 := rfl
  cases slot <;> cases slot' <;> simp only [Holds, height, ne_eq, StackSlot.outgoing.injEq,
    StackSlot.spill.injEq, StackSlot.incoming.injEq] at * <;> omega

def place (fr : Frame) (s : Machine) (slot : StackSlot) : BitVec 64 :=
  s.base (fr.address slot).1 + BitVec.ofNat 64 (fr.address slot).2

/-- What a location holds. -/
def word (fr : Frame) (s : Machine) : WordLoc → BitVec 64
  | .reg r => s.x r
  | .stack slot => s.wordAt (fr.place s slot)
  | .imm k => BitVec.ofInt 64 k

/-- The frame pointer is where the function has set it up. -/
def Stands (fr : Frame) (s : Machine) : Prop :=
  fr.hasRecord → s.x Reg.fp = s.sp + BitVec.ofNat 64 fr.bodySize

/-- Moves may read and write the location. -/
def Movable (fr : Frame) : WordLoc → Prop
  | .reg r => r ∉ [scratch, Reg.fp, Reg.sp]
  | .stack slot => fr.Holds slot
  | .imm _ => True

/-- A location that a move may name; the moves themselves take `x16` and `x17` for intermediate steps. -/
def Usable (fr : Frame) (l : WordLoc) : Prop := fr.Movable l ∧ l ≠ .reg cycleTemp

/-- Nothing has changed but the locations listed. -/
structure Alters (fr : Frame) (ds : List WordLoc) (s s' : Machine) : Prop where
  others : ∀ r, .reg r ∉ ds → s'.x r = s.x r
  sp : s'.sp = s.sp
  flags : s'.flags = s.flags
  memory : ∀ b, (∀ slot, .stack slot ∈ ds → 8 ≤ (b - fr.place s slot).toNat) → s'.memory b = s.memory b

theorem place_eq (hs : fr.Stands s) (hslot : fr.Holds slot) :
    fr.place s slot = s.sp + BitVec.ofNat 64 (fr.height slot) := by
  cases slot with
  | outgoing | spill => rfl
  | incoming o =>
    rw [height, ofNat_add, ← BitVec.add_assoc, ← hs hslot.2.1]
    rfl

theorem place_congr (hsp : s'.sp = s.sp) (hfp : s'.x Reg.fp = s.x Reg.fp) (slot : StackSlot) :
    fr.place s' slot = fr.place s slot := by
  cases slot with
  | outgoing | spill => exact congrArg (· + _) hsp
  | incoming => exact congrArg (· + _) (hfp : s'.base Reg.fp = s.base Reg.fp)

theorem alters_of_differs {rs : List Reg} (h : s.Differs s' rs) (hrs : ∀ r ∈ rs, .reg r ∈ ds) : fr.Alters ds s s' :=
  ⟨fun r hr => h.others r fun hmem => hr (hrs r hmem), h.sp, h.flags, fun b _ => congrFun h.memory b⟩

section

variable (h : fr.Alters ds s s')

include h

theorem Alters.mono (hsub : ds ⊆ es) : fr.Alters es s s' :=
  ⟨fun r hr => h.others r fun hmem => hr (hsub hmem), h.sp, h.flags,
    fun b hb => h.memory b fun slot hmem => hb slot (hsub hmem)⟩

variable (hfp : .reg Reg.fp ∉ ds)

include hfp

theorem Alters.place (slot : StackSlot) : fr.place s' slot = fr.place s slot :=
  place_congr h.sp (h.others _ hfp) slot

theorem Alters.trans (h' : fr.Alters ds s' s'') : fr.Alters ds s s'' where
  others r hr := (h'.others r hr).trans (h.others r hr)
  sp := h'.sp.trans h.sp
  flags := h'.flags.trans h.flags
  memory b hb := (h'.memory b fun slot hmem => by
    rw [h.place hfp]
    exact hb slot hmem).trans (h.memory b hb)

theorem Alters.stands (hs : fr.Stands s) : fr.Stands s' := by
  intro hrecord
  rw [h.others _ hfp, h.sp]
  exact hs hrecord

end

theorem fp_not_mem (hds : ∀ d ∈ ds, fr.Movable d) : .reg Reg.fp ∉ .reg scratch :: ds := by
  intro hmem
  rcases mem_cons.mp hmem with heq | hmem
  · exact absurd heq (by decide)
  · exact hds _ hmem (mem_cons_of_mem _ mem_cons_self)

/-- A location that is not listed holds what it held. -/
theorem Alters.word (h : fr.Alters (.reg scratch :: ds) s s') (hfr : fr.Laid) (hs : fr.Stands s)
    (hds : ∀ d ∈ ds, fr.Movable d) (hl : fr.Movable l) (hnot : l ∉ ds) : fr.word s' l = fr.word s l := by
  cases l with
  | imm => rfl
  | reg r =>
    refine h.others r fun hmem => (mem_cons.mp hmem).elim (fun heq => hl ?_) hnot
    exact mem_cons.mpr (.inl (WordLoc.reg.inj heq))
  | stack slot =>
    rw [Frame.word, Frame.word, h.place (fp_not_mem hds), wordAt, wordAt,
      load_congr fun i hi => h.memory _ fun slot' hmem => ?_]
    replace hmem := (mem_cons.mp hmem).resolve_left (by simp)
    obtain ⟨hlt, hlt', hapart⟩ := hfr.height_apart hl (hds _ hmem) fun heq => hnot (heq ▸ hmem)
    rw [place_eq hs hl, place_eq hs (hds _ hmem)]
    bv_omega

theorem alters_storeSlot (hsets : s.Sets r v [scratch] s') :
    fr.word ((fr.storeSlot r slot).exec origin s') (.stack slot) = v ∧
      fr.Alters [.reg scratch, .stack slot] s ((fr.storeSlot r slot).exec origin s') := by
  obtain ⟨hval, hdiff⟩ := hsets
  have hplace : fr.place s' slot = fr.place s slot :=
    place_congr hdiff.sp (hdiff.others _ (by decide)) slot
  have hwrites := writes_store origin s' (show 8 ∈ pieceSizes false by decide) r (fr.address slot).1
    (fr.address slot).2
  rw [hval] at hwrites
  refine ⟨?_, fun r hr => ?_, hwrites.sp.trans hdiff.sp, hwrites.flags.trans hdiff.flags, fun b hb => ?_⟩
  · exact hwrites.wordAt
  · exact (hwrites.others r not_mem_nil).trans (hdiff.others r fun hmem => hr (by simp_all))
  · refine (congrFun hwrites.memory b).trans ((if_neg ?_).trans (congrFun hdiff.memory b))
    have hout := hb slot (by simp)
    rw [← hplace] at hout
    exact not_lt.mpr hout

theorem Movable.ne_sp (h : fr.Movable (.reg r)) : r ≠ Reg.sp := by
  rintro rfl
  exact h (by decide)

theorem usable_reg (h : r.val < 10) : fr.Usable (.reg r) := by
  have hall : ∀ r : Reg, r.val < 10 → r ∉ [scratch, Reg.fp, Reg.sp] ∧ r ≠ cycleTemp := by decide
  exact ⟨(hall r h).1, fun heq => (hall r h).2 (WordLoc.reg.inj heq)⟩

theorem word_moveWord (h : fr.moveWord src dst = some is) (hsrc : fr.Movable src) (hdst : fr.Movable dst) :
    fr.word (execAll origin is s) dst = fr.word s src ∧ fr.Alters [.reg scratch, dst] s (execAll origin is s) := by
  have hset : ∀ {b v is}, dst = .reg b → s.Sets b v [b] (execAll origin is s) →
      fr.word (execAll origin is s) dst = v ∧ fr.Alters [.reg scratch, dst] s (execAll origin is s) := by
    rintro b v is rfl ⟨hval, hdiff⟩
    exact ⟨hval, alters_of_differs hdiff (by simp)⟩
  have hload : ∀ {b slot}, b ≠ Reg.xzr →
      s.Sets b (fr.word s (.stack slot)) [b] ((fr.loadSlot b slot).exec origin s) :=
    fun hb => sets_loadZero origin s (show 8 ∈ pieceSizes false by decide) hb _ _
  cases src <;> cases dst <;> cases h
  case reg.reg a b =>
    refine hset rfl ?_
    split
    · next heq => exact ⟨congrArg s.x heq.symm, .refl s _⟩
    · exact sets_mov origin s hdst.ne_sp hsrc.ne_sp
  case reg.stack a u => exact alters_storeSlot ⟨rfl, .refl s _⟩
  case stack.reg u b => exact hset rfl (hload hdst.ne_sp)
  case imm.reg k b => exact hset rfl (sets_movImm hdst.ne_sp _ s)
  case stack.stack u u' =>
    split
    · next heq => exact ⟨congrArg (fr.word s ∘ .stack) heq.symm, alters_of_differs (.refl s []) (by simp)⟩
    · exact alters_storeSlot (hload (by decide))
  case imm.stack k u =>
    split
    · next hk =>
      rw [hk]
      exact alters_storeSlot ⟨x_xzr s, .refl s _⟩
    · rw [execAll_append]
      exact alters_storeSlot (sets_movImm (by decide) _ s)

end Frame

namespace Target

variable {t : Target} {c c' : Code} {u : PUnit} {moves : List WordMove}

/-- Moves one after the other do to the machine what they do to its words. -/
theorem runs_moves (hfr : t.frame.Laid) : ∀ {ms : List WordMove} {c : Code},
    (∀ m ∈ ms, t.frame.Movable m.src ∧ t.frame.Movable m.dst) →
    Runs (ms.forM fun m => t.moveWord m.src m.dst) c u c' →
    ∃ is, c.Appends (Item.whole is) c' ∧ (∀ i ∈ is, i.Direct) ∧ ∀ origin s, t.frame.Stands s →
      t.frame.Alters (.reg scratch :: ms.map WordMove.dst) s (execAll origin is s) ∧
      ∀ σ, (∀ l, t.frame.Movable l → t.frame.word s l = σ l) →
        ∀ l, t.frame.Movable l → t.frame.word (execAll origin is s) l = Moves.run σ ms l := by
  intro ms
  induction ms with
  | nil =>
    intro c _ hrun
    rw [runs_forM_nil.mp hrun]
    exact ⟨[], .refl c, forall_mem_nil _, fun origin s _ =>
      ⟨Frame.alters_of_differs (.refl s []) (forall_mem_nil _), fun σ hσ => hσ⟩⟩
  | cons m ms ih =>
    intro c hms hrun
    obtain ⟨hm, hms⟩ := forall_mem_cons.mp hms
    obtain ⟨c₁, hfirst, hrest⟩ := runs_forM_cons.mp hrun
    rw [moveWord] at hfirst
    split at hfirst
    · next is hcode =>
      obtain ⟨js, happ, hdirect, heffect⟩ := ih hms hrest
      refine ⟨is ++ js, ?_, ?_, fun origin s hs => ?_⟩
      · rw [Item.whole_append]
        exact (appends_of_emitAll hfirst).trans happ
      · exact forall_mem_append.mpr ⟨Frame.direct_of_mem_moveWord hcode, hdirect⟩
      · rw [execAll_append]
        obtain ⟨hval, halters⟩ := @Frame.word_moveWord _ s _ _ is origin hcode hm.1 hm.2
        have hone := forall_mem_singleton.mpr hm.2
        have hall : ∀ d ∈ (m :: ms).map WordMove.dst, t.frame.Movable d :=
          forall_mem_map.mpr (forall_mem_cons.mpr ⟨hm.2, fun m hm => (hms m hm).2⟩)
        obtain ⟨halters', hrun⟩ := heffect origin _ (halters.stands (Frame.fp_not_mem hone) hs)
        refine ⟨(halters.mono (by simp)).trans (Frame.fp_not_mem hall) (halters'.mono (by simp)), fun σ hσ => ?_⟩
        refine hrun (Function.update σ m.dst (σ m.src)) fun l hl => ?_
        by_cases heq : l = m.dst
        · rw [heq, hval, Function.update_self]
          exact hσ _ hm.1
        · rw [Function.update_of_ne heq, halters.word hfr hs hone hl (mem_singleton.not.mpr heq)]
          exact hσ l hl
    · exact absurd (runs_throw.mp hfirst) id

theorem movable_sequentialize (hmoves : ∀ m ∈ moves, t.frame.Usable m.src ∧ t.frame.Usable m.dst) :
    ∀ m ∈ Moves.sequentialize moves (.reg cycleTemp), t.frame.Movable m.src ∧ t.frame.Movable m.dst := by
  have htemp : t.frame.Movable (.reg cycleTemp) := show cycleTemp ∉ _ by decide
  exact fun m hm => Moves.uses_of_mem_sequentialize ⟨htemp, htemp⟩ trivial
    (fun m hm _ => ⟨(hmoves m hm).1.1, (hmoves m hm).2.1⟩) hm

theorem achieves_moveAll (hfr : t.frame.Laid) (hdst : (moves.map WordMove.dst).Nodup)
    (hmoves : ∀ m ∈ moves, t.frame.Usable m.src ∧ t.frame.Usable m.dst) :
    Achieves (t.moveAll moves) fun s s' => t.frame.Stands s →
      (∀ m ∈ moves, t.frame.word s' m.dst = t.frame.word s m.src) ∧
        t.frame.Alters (.reg scratch :: .reg cycleTemp :: moves.map WordMove.dst) s s' := by
  refine achieves_of_appends fun c c' hrun => ?_
  obtain ⟨is, happ, hdirect, heffect⟩ := runs_moves hfr (movable_sequentialize hmoves) hrun
  refine ⟨is, happ, hdirect, fun origin s hs => ?_⟩
  obtain ⟨halters, hword⟩ := heffect origin s hs
  obtain ⟨hrun, hwrites⟩ := Moves.run_sequentialize hdst
    (fun m hm => ⟨(hmoves m hm).1.2, (hmoves m hm).2.2⟩) (t.frame.word s)
  refine ⟨fun m hm => (hword _ (fun _ _ => rfl) _ (hmoves m hm).2.1).trans (hrun m hm), halters.mono ?_⟩
  refine cons_subset_cons _ fun l hl => ?_
  obtain ⟨m, hm, rfl⟩ := mem_map.mp hl
  rcases hwrites m hm with heq | ⟨m', hm', -, heq⟩
  · rw [heq]
    exact mem_cons_self
  · rw [← heq]
    exact mem_cons_of_mem _ (mem_map_of_mem hm')

end Target

theorem Moves.run_of_mem {α : Type*} {ms : List WordMove} (hdst : (ms.map WordMove.dst).Nodup)
    (hsrc : ∀ m ∈ ms, ∀ m' ∈ ms, m.src ≠ m'.dst) (σ : WordLoc → α) : ∀ m ∈ ms, run σ ms m.dst = σ m.src := by
  induction ms generalizing σ with
  | nil => exact forall_mem_nil _
  | cons m ms ih =>
    obtain ⟨hnot, hdst⟩ := nodup_cons.mp hdst
    refine forall_mem_cons.mpr ⟨?_, fun m' hm' => ?_⟩
    · have hrest := @run_of_not_mem α m.dst ms (fun m' hm' heq => hnot (heq ▸ mem_map_of_mem hm'))
        (Function.update σ m.dst (σ m.src))
      exact hrest.trans (Function.update_self ..)
    · refine (ih hdst (fun x hx y hy => hsrc x (mem_cons_of_mem m hx) y (mem_cons_of_mem m hy)) _ m' hm').trans ?_
      exact Function.update_of_ne (hsrc m' (mem_cons_of_mem m hm') m mem_cons_self) _ _

/-- Some moves may come first, if nothing is read where they write, and then all others at once. -/
theorem Moves.run_filter {α : Type*} {ms : List WordMove} {temp : WordLoc} (early : WordMove → Bool)
    (hdst : (ms.map WordMove.dst).Nodup) (htemp : ∀ m ∈ ms, m.src ≠ temp ∧ m.dst ≠ temp)
    (hapart : ∀ m ∈ ms, ∀ m' ∈ ms.filter early, m.src ≠ m'.dst) (σ : WordLoc → α) :
    ∀ m ∈ ms, run σ (ms.filter early ++ sequentialize (ms.filter (!early ·)) temp) m.dst = σ m.src := by
  intro m hm
  rw [run, foldl_append, ← run, ← run]
  obtain ⟨hrun, hwrites⟩ := run_sequentialize (hdst.sublist (filter_sublist.map _))
    (fun m hm => htemp m (mem_filter.mp hm).1) (run σ (ms.filter early))
  by_cases hearly : early m
  · refine (run_of_not_mem (fun m' hm' heq => ?_) _).trans (run_of_mem (hdst.sublist (filter_sublist.map _))
      (fun m hm => hapart m (mem_filter.mp hm).1) _ m (mem_filter.mpr ⟨hm, hearly⟩))
    rcases hwrites m' hm' with heq' | ⟨m'', hm'', -, heq'⟩
    · exact (htemp m hm).2 (heq.symm.trans heq')
    · obtain ⟨hmem, hnot⟩ := mem_filter.mp hm''
      rw [inj_on_of_nodup_map hdst hmem hm (heq'.trans heq), hearly] at hnot
      cases hnot
  · refine (hrun m (mem_filter.mpr ⟨hm, by rw [Bool.eq_false_iff.mpr hearly]; rfl⟩)).trans ?_
    exact run_of_not_mem (fun m' hm' heq => hapart m hm m' hm' heq.symm) _

def WordLoc.isStack : WordLoc → Bool
  | stack _ => true
  | _ => false

namespace Target

variable {t : Target} {c c' : Code} {u : PUnit} {moves : List WordMove} {words : List ArgWord}

/-- What a call does before the branch. -/
def passArgs (t : Target) (words : List ArgWord) : Emit Unit := do
  let moves ← words.mapM t.emitStackArg
  t.moveAll moves.flatten

def argMove (t : Target) (w : ArgWord) : WordMove :=
  ⟨((t.func.value w.value).loc.getD (.imm 0)).part w.part, w.dest⟩

theorem runs_stackArgs : ∀ {words : List ArgWord} {c : Code} {mss : List (List WordMove)},
    Runs (words.mapM t.emitStackArg) c mss c' →
    Runs (((words.map t.argMove).filter (·.dst.isStack)).forM fun m => t.moveWord m.src m.dst) c u c' ∧
      mss.flatten = (words.map t.argMove).filter (!·.dst.isStack) := by
  intro words
  induction words with
  | nil =>
    intro c mss h
    obtain ⟨rfl, rfl⟩ := runs_mapM_nil.mp h
    exact ⟨runs_forM_nil.mpr rfl, rfl⟩
  | cons w words ih =>
    intro c mss h
    obtain ⟨ms, c₁, mss, hfirst, hrest, rfl⟩ := runs_mapM_cons.mp h
    obtain ⟨hstack, hflat⟩ := ih hrest
    obtain ⟨l, hl, hfirst⟩ := runs_location hfirst
    have hmove : t.argMove w = ⟨l.part w.part, w.dest⟩ := by
      rw [argMove, show _ = some l from hl]
      rfl
    rw [map_cons, hmove]
    split at hfirst
    · next slot hdest =>
      obtain ⟨_, hword, rfl⟩ := runs_bind_pure.mp hfirst
      rw [filter_cons_of_pos (by rw [hdest]; rfl), filter_cons_of_neg (by rw [hdest]; simp [WordLoc.isStack])]
      exact ⟨runs_forM_cons.mpr ⟨c₁, hword, hstack⟩, hflat⟩
    · next hdest =>
      obtain ⟨rfl, rfl⟩ := runs_pure.mp hfirst
      have hnot : w.dest.isStack = false := by
        cases hw : w.dest with
        | stack slot => exact absurd hw (hdest slot)
        | reg | imm => rfl
      rw [filter_cons_of_neg (by rw [hnot]; decide), filter_cons_of_pos (by rw [hnot]; rfl)]
      exact ⟨hstack, congrArg _ hflat⟩

/-- The words on the stack come first, and then all registers at once. -/
theorem achieves_passArgs (hfr : t.frame.Laid) (hdest : (words.map ArgWord.dest).Nodup)
    (hwords : ∀ w ∈ words, t.frame.Usable w.dest ∧ ∀ slot, w.dest = .stack slot → ∃ o, slot = .outgoing o)
    (hsrc : ∀ w ∈ words, t.frame.Usable (t.argMove w).src ∧ ∀ o, (t.argMove w).src ≠ .stack (.outgoing o)) :
    Achieves (t.passArgs words) fun s s' => t.frame.Stands s →
      ∀ w ∈ words, t.frame.word s' w.dest = t.frame.word s (t.argMove w).src := by
  refine achieves_of_appends fun c c' hrun => ?_
  obtain ⟨mss, c₁, hargs, hmoves⟩ := runs_bind.mp hrun
  obtain ⟨hstack, hflat⟩ := runs_stackArgs hargs
  rw [hflat] at hmoves
  have hall : ∀ m ∈ words.map t.argMove, t.frame.Usable m.src ∧ t.frame.Usable m.dst :=
    forall_mem_map.mpr fun w hw => ⟨(hsrc w hw).1, (hwords w hw).1⟩
  have hnodup : ((words.map t.argMove).map WordMove.dst).Nodup := by
    rw [map_map]
    exact hdest
  -- nothing is read in the outgoing area, where all words on the stack go
  have hapart : ∀ m ∈ words.map t.argMove, ∀ m' ∈ (words.map t.argMove).filter (·.dst.isStack), m.src ≠ m'.dst := by
    intro m hm m' hm'
    obtain ⟨w, hw, rfl⟩ := mem_map.mp hm
    obtain ⟨hmem, his⟩ := mem_filter.mp hm'
    obtain ⟨w', hw', rfl⟩ := mem_map.mp hmem
    cases hd : w'.dest with
    | stack slot =>
      obtain ⟨o, rfl⟩ := (hwords w' hw').2 slot hd
      exact fun heq => (hsrc w hw).2 o (heq.trans hd)
    | reg | imm =>
      rw [argMove, hd] at his
      cases his
  obtain ⟨is, happ, hdirect, heffect⟩ := runs_moves hfr (forall_mem_append.mpr
    ⟨fun m hm => ⟨(hall m (mem_filter.mp hm).1).1.1, (hall m (mem_filter.mp hm).1).2.1⟩,
      movable_sequentialize fun m hm => hall m (mem_filter.mp hm).1⟩) (runs_forM_append.mpr ⟨c₁, hstack, hmoves⟩)
  refine ⟨is, happ, hdirect, fun origin s hs w hw => ?_⟩
  refine ((heffect origin s hs).2 _ (fun _ _ => rfl) _ (hwords w hw).1.1).trans ?_
  exact Moves.run_filter (·.dst.isStack) hnodup (fun m hm => ⟨(hall m hm).1.2, (hall m hm).2.2⟩) hapart _
    (t.argMove w) (mem_map_of_mem hw)

/-- Moves that are meant to happen at once leave in every destination what its source held, and change nothing
else but `x16` and `x17`. A call starts with every word of its arguments where the callee expects it. -/
theorem transfers_words (t : Target) (hfr : t.frame.Laid) : (∀ moves : List WordMove, (moves.map WordMove.dst).Nodup →
      (∀ m ∈ moves, t.frame.Usable m.src ∧ t.frame.Usable m.dst) →
      Achieves (t.moveAll moves) fun s s' => t.frame.Stands s →
        (∀ m ∈ moves, t.frame.word s' m.dst = t.frame.word s m.src) ∧
          t.frame.Alters (.reg scratch :: .reg cycleTemp :: moves.map WordMove.dst) s s') ∧
    ∀ v callee layout, (t.func.value v).payload = .callee callee → CallLayout.of t.func t.types v = .ok layout →
      layout.stackSize ≤ t.frame.outgoingSize →
      (∀ a ∈ t.func.dataArgs v, ∃ l, t.At a l ∧ ∀ i < t.types.parts (t.func.value a).ty,
        t.frame.Usable (l.part i) ∧ ∀ o, l.part i ≠ .stack (.outgoing o)) →
      (∃ rest, t.emitCall v = (do t.passArgs layout.words; emitReloc (.bl 0) callee.symbol .call; rest)) ∧
      Achieves (t.passArgs layout.words) fun s s' => t.frame.Stands s →
        ∀ w ∈ layout.words, ∀ l, t.At w.value l → t.frame.word s' w.dest = t.frame.word s (l.part w.part) := by
  refine ⟨fun moves hdst hmoves => achieves_moveAll hfr hdst hmoves, ?_⟩
  intro v callee layout hpayload hlayout hsize hargs
  obtain ⟨hnodup, hwords⟩ := CallLayout.words_of hlayout
  refine ⟨?_, (achieves_passArgs hfr hnodup (fun w hw => ?_) fun w hw => ?_).mono fun s s' h hs w hw l hl => ?_⟩
  · rw [emitCall, hpayload]
    dsimp only
    rw [hlayout]
    simp only [passArgs, bind_assoc]
    exact ⟨_, rfl⟩
  · obtain ⟨-, -, ⟨r, hr, -, hlt⟩ | ⟨o, ho, -, hword, hle⟩⟩ := hwords w hw
    · rw [hr]
      exact ⟨Frame.usable_reg hlt, by simp⟩
    · rw [ho]
      exact ⟨⟨⟨hword, hle.trans hsize⟩, by simp⟩, fun slot hslot => ⟨o, (WordLoc.stack.inj hslot).symm⟩⟩
  · obtain ⟨hmem, hpart, -⟩ := hwords w hw
    obtain ⟨l, hl, hparts⟩ := hargs w.value hmem
    rw [argMove, show _ = some l from hl]
    exact hparts w.part hpart
  · refine (h hs w hw).trans ?_
    rw [argMove, show _ = some l from hl]
    rfl

/-- A call of a variadic function whose first two arguments are in each other's registers. -/
def crossed : Target where
  func := { Func.new "crossed" [] TypeId.void with
    values := #[
      ⟨.initMem, TypeId.mem, ⟨0, 0⟩, .none, 1, 0, none⟩,
      ⟨.load, TypeId.i64, ⟨0, 0⟩, .none, 1, 0, some (.reg 1)⟩,
      ⟨.load, TypeId.i64, ⟨0, 0⟩, .none, 1, 0, some (.reg 0)⟩,
      ⟨.const, TypeId.i64, ⟨0, 0⟩, .int 7, 1, 0, some (.imm 7)⟩,
      ⟨.call, TypeId.void, ⟨0, 4⟩, .callee ⟨"print", 2, false⟩, 0, 0, none⟩]
    operands := #[1, 2, 3, 0] }
  types := .builtins
  frame := .layout [] 0 16 true false
  edgeMoves := #[]

theorem crossed_transfers_words : crossed.frame.Laid ∧ Achieves (crossed.passArgs
    [⟨1, 0, .reg 0⟩, ⟨2, 0, .reg 1⟩, ⟨3, 0, .stack (.outgoing 0)⟩]) fun s s' => crossed.frame.Stands s →
      s'.x 0 = s.x 1 ∧ s'.x 1 = s.x 0 ∧ s'.wordAt (crossed.frame.place s' (.outgoing 0)) = 7 := by
  have hfr : crossed.frame.Laid := ⟨⟨[], 0, 16, true, false, rfl⟩, by decide⟩
  have hargs : ∀ a ∈ [1, 2, 3], ∃ l, crossed.At a l ∧ ∀ i < crossed.types.parts (crossed.func.value a).ty,
      crossed.frame.Usable (l.part i) ∧ ∀ o, l.part i ≠ .stack (.outgoing o) := by
    refine forall_mem_cons.mpr ⟨⟨.reg 1, rfl, fun i _ => ⟨Frame.usable_reg (by decide), fun o h => by cases h⟩⟩,
      forall_mem_cons.mpr ⟨⟨.reg 0, rfl, fun i _ => ⟨Frame.usable_reg (by decide), fun o h => by cases h⟩⟩,
        forall_mem_singleton.mpr ⟨.imm 7, rfl, fun i _ => ⟨⟨trivial, fun h => by cases h⟩, fun o h => by cases h⟩⟩⟩⟩
  obtain ⟨-, hachieves⟩ := (transfers_words crossed hfr).2 4 ⟨"print", 2, false⟩
    ⟨[⟨1, 0, .reg 0⟩, ⟨2, 0, .reg 1⟩, ⟨3, 0, .stack (.outgoing 0)⟩], 16, none⟩ rfl rfl (by decide) hargs
  refine ⟨hfr, hachieves.mono fun s s' h hs => ?_⟩
  exact ⟨h hs ⟨1, 0, .reg 0⟩ (by simp) (.reg 1) rfl, h hs ⟨2, 0, .reg 1⟩ (by simp) (.reg 0) rfl,
    h hs ⟨3, 0, .stack (.outgoing 0)⟩ (by simp) (.imm 7) rfl⟩

end Target

end SsaCodegen
