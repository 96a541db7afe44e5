import SsaCodegen.Proofs.Emission.Lookups

/-! Branches go to blocks that have a place, so emission never stops with a fault of the compiler's own. The
encoding of a branch holds one displacement that patching refuses: the lowest one. -/

namespace SsaCodegen

/-- The instruction is a branch of this kind. -/
def BranchKind.Suits : BranchKind → Instr → Prop
  | jump, .branch .. | cond, .branchCond .. | compare, .compareBranch .. => True
  | _, _ => False

variable {kind : BranchKind} {i : Instr} {d : Int}

theorem BranchKind.Suits.plain (h : kind.Suits i) : (i.withOffset d).plain = i.withOffset d := by
  cases kind <;> cases i <;> first | rfl | cases h

theorem BranchKind.Suits.fits_iff (h : kind.Suits i) (hd : 4 ∣ d) :
    (i.withOffset d).Fits ↔ -(kind.range : Int) ≤ d ∧ d < kind.range := by
  have hreach : ∀ bits, FitsSigned d 4 bits ↔
      -((Nat.pow 2 (bits - 1) * 4 : Nat) : Int) ≤ d ∧ d < (Nat.pow 2 (bits - 1) * 4 : Nat) := by
    intro bits
    rw [FitsSigned, and_iff_right (by exact_mod_cast hd)]
    push_cast
    rw [Int.neg_mul]
  cases kind <;> cases i <;> first | exact hreach _ | cases h

theorem encodes_iff : (∃ w, i.encode = .ok w) ↔ i.Fits :=
  ⟨fun ⟨_, h⟩ => (Instr.encode_eq_ok.mp h).1, fun h => ⟨_, Instr.encode_eq_ok.mpr ⟨h, rfl⟩⟩⟩

/-- A branch is out of range if the instruction cannot be encoded with the displacement, or if the displacement
is the lowest that can be encoded. In all other cases the word of the branch gets the displacement, and no other
word changes. -/
theorem patchBranch_is_exact {words : Array Word} {p : PendingBranch} (func : String)
    (hkind : p.kind.Suits p.instr) (hp : p.offset / 4 < words.size) (hd : 4 ∣ d) :
    (patchBranch words p d func = .error (.branchOutOfRange func p.offset d p.kind) ↔
      (¬∃ w, (p.instr.withOffset d).encode = .ok w) ∨ d = -(p.kind.range : Int)) ∧
    ((∃ w, (p.instr.withOffset d).encode = .ok w) → d ≠ -(p.kind.range : Int) →
      ∃ words', patchBranch words p d func = .ok words' ∧ words'.size = words.size ∧
        words'[p.offset / 4]?.bind Instr.decode? = some (p.instr.withOffset d) ∧
        ∀ n, n ≠ p.offset / 4 → words'[n]? = words[n]?) := by
  have hfits := encodes_iff.trans (hkind.fits_iff hd)
  have hpos : 0 < p.kind.range := by cases p.kind <;> decide
  rw [patchBranch]
  split
  · refine ⟨iff_of_true rfl ?_, fun henc hne => ?_⟩
    · rw [hfits]
      omega
    · rw [hfits] at henc
      omega
  · have henc : ∃ w, (p.instr.withOffset d).encode = .ok w := by
      rw [hfits]
      omega
    obtain ⟨w, hw⟩ := henc
    rw [hw]
    refine ⟨iff_of_false (fun h => by cases h) ?_, fun _ _ => ⟨_, rfl, Array.size_setIfInBounds, ?_, fun n hn => ?_⟩⟩
    · rintro (hnone | rfl)
      · exact hnone ⟨w, rfl⟩
      · omega
    · rw [Array.getElem?_setIfInBounds_self_of_lt hp, Option.bind_some, Instr.decode?_of_encode hw, hkind.plain]
    · exact Array.getElem?_setIfInBounds_ne hn.symm

/-- A loop of 2 ^ 20 bytes cannot go back to its start, though `cbz` can encode that. -/
theorem patchBranch_refuses_lowest : ∃ w, (Instr.compareBranch false 0 (-0x100000)).encode = .ok w ∧
    patchBranch #[0] ⟨0, 0, .compareBranch false 0 0, .compare⟩ (-0x100000) "" =
      .error (.branchOutOfRange "" 0 (-0x100000) .compare) := ⟨_, rfl, rfl⟩

theorem patchBranch_reaches_next : BranchKind.compare.Suits (.compareBranch false 0 0) ∧
    ∃ words', patchBranch #[0, 7] ⟨0, 0, .compareBranch false 0 0, .compare⟩ (-0xffffc) "" = .ok words' ∧
      words'[0]?.bind Instr.decode? = some (.compareBranch false 0 (-0xffffc)) ∧ words'[1]? = some 7 := by
  have hp : 0 / 4 < (#[0, 7] : Array Word).size := by decide
  obtain ⟨words', hok, -, hword, hother⟩ := (patchBranch_is_exact (p := ⟨0, 0, .compareBranch false 0 0, .compare⟩)
    (d := -0xffffc) "" trivial hp (by decide)).2 ⟨_, rfl⟩ (by decide)
  exact ⟨trivial, words', hok, hword, hother 1 (by decide)⟩

open List

variable {s : BlockId} {it : Item}

theorem Target.Ending.mem_succs {t : Target} {b : BlockId} {next : Option BlockId} {items : List Item}
    {kind : BranchKind} (h : t.Ending b next items)
    (hlen : (t.func.block b).succs.length = Func.successorsOf (t.func.block b).kind) (hit : it ∈ items)
    (hfix : it.fixup = .block s kind) : s ∈ (t.func.block b).succs := by
  rcases h.branches_or_leaves with hbranch | hstraight
  · obtain ⟨k, hk, ⟨kind', hto⟩, -⟩ := hbranch it hit
    cases hfix.symm.trans hto
    rw [← hlen] at hk
    rw [getD_eq_getElem?_getD, getElem?_eq_getElem hk]
    exact getElem_mem hk
  · exact absurd hfix ((hstraight it hit).2 s kind)

theorem Target.Built.exists_start {t : Target} {c c' : Code} {bs : List BlockId} {ks : List BlockCode}
    {kind : BranchKind} (h : t.Built c bs ks c') (hnd : bs.Nodup) (hlt : ∀ b ∈ bs, b < c.starts.size)
    (hlen : ∀ b ∈ bs, (t.func.block b).succs.length = Func.successorsOf (t.func.block b).kind)
    (hsuccs : ∀ b ∈ bs, ∀ s ∈ (t.func.block b).succs, s ∈ bs) (hit : it ∈ ks.flatMap BlockCode.items)
    (hfix : it.fixup = .block s kind) : ∃ start, c'.starts.getD s none = some start := by
  obtain ⟨k, hk, hit⟩ := mem_flatMap.mp hit
  obtain ⟨next, hcode⟩ := h.codeFor hk
  have hb := h.blocks ▸ mem_map_of_mem hk
  have hs : s ∈ bs := by
    rcases mem_append.mp hit with hbody | hend
    · exact absurd hfix ((hcode.straight it hbody).2 s kind)
    · exact hsuccs _ hb s (hcode.ending.mem_succs (hlen _ hb) hend hfix)
  rw [← h.blocks] at hs
  obtain ⟨k', hk', rfl⟩ := mem_map.mp hs
  obtain ⟨j, hj⟩ := mem_iff_getElem?.mp hk'
  exact ⟨_, (h.block_at hnd hlt hj).2.2.1⟩

theorem error_patched {starts : Array (Option Nat)} {func : String} :
    ∀ {branches : List PendingBranch} {words : Array Word} {e : CompileError},
    (∀ p ∈ branches, ∃ start, starts.getD p.target none = some start) → branches.foldlM (fun words branch =>
      match starts.getD branch.target none with
      | none => throw (.registerAllocation func (.unplacedTarget branch.target))
      | some start => patchBranch words branch ((start : Int) - branch.offset) func) words =
        (.error e : Except CompileError (Array Word)) → ¬e.Internal
  | [], words, e, _, h => by cases h
  | p :: ps, words, e, hall, h => by
    obtain ⟨start, hstart⟩ := hall p mem_cons_self
    rw [foldlM_cons, hstart] at h
    dsimp only at h
    cases hp : patchBranch words p ((start : Int) - p.offset) func with
    | ok mid =>
      rw [hp] at h
      exact error_patched (fun q hq => hall q (mem_cons_of_mem p hq)) h
    | error e' =>
      rw [hp] at h
      cases h
      rw [patchBranch] at hp
      split at hp
      · cases hp
        exact id
      · split at hp
        · cases hp
        · cases hp
          exact id

namespace Setting.Resolved

variable {c : Setting} {allowed : RegSet} {f : Func} {t : Outline} {ir : Ir.Func} {a : Allocation}

section

variable (h : Resolved c allowed f a.edgeMoves t) (hf : f.Prepared c.types) (hty : f.Typed ir c.types)
  (hvoid : ¬ir.ReadsVoid) (htypes : c.types.Made)

include h hf hty hvoid htypes

theorem serves_emitBlocks : ∀ {bs : List BlockId}, (∀ b ∈ bs, b < f.blocks.size) →
    Serves ((a.target t.func c.types).emitBlocks bs)
  | [], _ => yields_pure trivial
  | b :: bs, hbs => by
    have hblock : Serves ((a.target t.func c.types).emitBlock b bs.head?) := (serves_modify _).bind fun _ _ =>
        (serves_forM fun v hv => h.serves_emitValue hf hty hvoid htypes hv).bind fun _ _ =>
          h.serves_emitControl hf hty hvoid (hbs b mem_cons_self) _
    exact hblock.bind fun _ _ => serves_emitBlocks fun b hb => hbs b (mem_cons_of_mem _ hb)

theorem serves_emitFunction {layout : List BlockId} (hlayout : ∀ b ∈ layout, b < f.blocks.size) :
    Serves ((a.target t.func c.types).emitFunction layout) := by
  have hpro : Serves (a.target t.func c.types).emitPrologue := by
    rw [Target.emitPrologue]
    split
    · refine (serves_emitAll _).bind fun _ _ => ?_
      rw [adjustStack]
      split
      · exact fun _ => id
      · exact serves_emitAll _
    · exact yields_pure trivial
  exact hpro.bind fun _ _ => h.serves_emitBlocks hf hty hvoid htypes hlayout

/-- The code of an allocated function is emitted and linked, or the input is at fault. -/
theorem error_generate {e : CompileError} (hlayout : a.layout = f.reversePostorder)
    (he : generate t.func c.types a = .error e) : ¬e.Internal := by
  have hgraph := h.consistent.graph
  have hmem : ∀ {b}, b ∈ a.layout ↔ b < f.blocks.size := by
    rw [hlayout]
    exact hf.ssa.flow.mem_reversePostorder
  rw [generate] at he
  obtain hrun | ⟨⟨u, code⟩, hrun, hrest⟩ := except_bind_eq_error.mp he
  · exact (h.serves_emitFunction hf hty hvoid htypes (fun b => hmem.mp) (.empty _)).of_error hrun
  obtain hpatch | ⟨code', -, hpure⟩ := except_bind_eq_error.mp hrest
  · replace hrun : Runs ((a.target t.func c.types).emitFunction a.layout) (.empty t.func.blocks.size) u code :=
      hrun
    obtain ⟨u', entry, hpro, hblocks⟩ := runs_bind.mp (by exact hrun)
    have hsetup := appends_of_emitPrologue hpro
    obtain ⟨ks, hks⟩ := Target.built_of_emitBlocks hblocks
    obtain hfold | ⟨words, -, hpure⟩ := except_bind_eq_error.mp hpatch
    · refine error_patched (fun p hp => ?_) hfold
      have hbranches := (hsetup.trans hks.appends).branches
      rw [hbranches] at hp
      obtain ⟨n, it, hn, hleft⟩ := mem_openIn.mp hp
      have hfix := (Item.offset_of_branch? hleft).2.2
      rcases mem_append.mp (mem_of_getElem? hn) with hit | hit
      · cases hfix.symm.trans (Item.mem_whole.mp hit).2
      · refine hks.exists_start ?_ (fun b hb => ?_) (fun b hb => ?_) (fun b hb s hs => ?_) hit hfix
        · rw [hlayout]
          exact Func.reversePostorder_nodup _
        · rw [hsetup.starts]
          exact (hmem.mp hb).trans_eq (hgraph.size.symm.trans Array.size_replicate.symm)
        · exact (congrArg _ (hgraph.succs b)).trans
            ((hf.ssa.flow.kind b (hmem.mp hb)).trans (congrArg _ (hgraph.kind b).symm))
        · rw [show ((a.target t.func c.types).func.block b).succs = _ from hgraph.succs b] at hs
          exact hmem.mpr (hf.ssa.flow.succ_lt b s hs)
    · cases hpure
  · cases hpure

end

end Setting.Resolved

/-- Register allocation leaves nothing for emission to complain about: if the function reads nothing of
type `void`, every operand and every result is where its emitter looks for it, every block that branches or
returns has its control value, and every branch goes to a block that has a place. -/
theorem generate_finds_locations {ir : Ir.Func} {types : TypeTable} {built : Built} {n : Nat} {a : Allocation}
    {g : Func} (htypes : types.Made) (hvoid : ¬ir.ReadsVoid) (hbuilt : buildSsa ir types = .ok built)
    (hmin : 4 ≤ n)
    (h : allocate built.func.splitCriticalEdges types (RegSet.firstN n) = .ok (a, g)) (func : String)
    (fault : AllocationFault) : generate g types a ≠ .error (.registerAllocation func fault) := by
  have hf := prepared_of_buildSsa htypes hbuilt
  obtain ⟨c, t, rfl, -, -, hlayout, rfl, hres⟩ := allocate_spec hf (RegSet.contains_firstN_of_lt_two hmin) h
  intro he
  exact hres.recount.error_generate hf (typed_of_buildSsa htypes hbuilt) hvoid htypes hlayout he trivial

/-- A function that reads a local of type `void`. -/
def voidLocal : Ir.Func where
  name := "void_local"
  params := []
  result := TypeId.void
  locals := #[⟨"x", TypeId.void⟩]
  blocks := #[⟨"entry", [0], some (.ret none)⟩]
  nodes := #[⟨TypeId.void, .loadLocal 0⟩]

theorem voidLocal_finds_no_location : voidLocal.validate .builtins = .ok () ∧
    ∃ built a g, buildSsa voidLocal .builtins = .ok built ∧
      allocate built.func.splitCriticalEdges .builtins (RegSet.firstN 4) = .ok (a, g) ∧
      generate g .builtins a = .error (.registerAllocation "void_local" (.noLocation 2)) := by
  refine ⟨by decide +kernel, ?_⟩
  have hok : ((buildSsa voidLocal .builtins).toOption.any fun built =>
      (allocate built.func.splitCriticalEdges .builtins (RegSet.firstN 4)).toOption.any fun r =>
        decide ((generate r.2 .builtins r.1).map (fun _ => ()) =
          .error (.registerAllocation "void_local" (.noLocation 2)))) := by
    decide +kernel
  obtain ⟨built, hbuilt, h⟩ := exists_ok_of_any hok
  obtain ⟨⟨a, g⟩, h, hg⟩ := exists_ok_of_any h
  refine ⟨built, a, g, hbuilt, h, ?_⟩
  cases he : generate g .builtins a with
  | error e =>
    rw [he, decide_eq_true_eq] at hg
    cases hg
    rfl
  | ok e =>
    rw [he] at hg
    cases of_decide_eq_true hg

/-- The loop of `countdown`. -/
theorem countdown_finds_locations : ¬countdown.ReadsVoid ∧ ∃ built a g, buildSsa countdown .builtins = .ok built ∧
    allocate built.func.splitCriticalEdges .builtins (RegSet.firstN 4) = .ok (a, g) ∧
    ∀ func fault, generate g .builtins a ≠ .error (.registerAllocation func fault) := by
  have hvoid : ¬countdown.ReadsVoid := by decide +kernel
  obtain ⟨built, a, g, hbuilt, h⟩ := exists_allocate_countdown
  exact ⟨hvoid, built, a, g, hbuilt, h, fun func fault =>
    generate_finds_locations .builtins hvoid hbuilt (Nat.le_refl 4) h func fault⟩

end SsaCodegen
