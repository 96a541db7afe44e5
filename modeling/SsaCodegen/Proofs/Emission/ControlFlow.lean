import SsaCodegen.Proofs.Allocation.Sound
import SsaCodegen.Proofs.Emission.Listing

/-! Control flow of the emitted code. Execution leaves a block only at its end, for the successor that the
control value chooses. -/

namespace SsaCodegen

open List

variable {fr : Frame} {b : BlockId}

open Instr

variable {t : Target} {items : List Item} {i : Instr} {it : Item}

theorem Item.Straight.linked (h : it.Straight) (starts : Array (Option Nat)) (n : Nat) :
    it.linked starts n = it.instr := by
  unfold Item.linked
  split
  · rename_i target kind hblock
    exact absurd hblock (h.2 target kind)
  · rfl

def Item.BranchTo (it : Item) (b : BlockId) : Prop :=
  (∃ kind, it.fixup = .block b kind) ∧ (it.instr = .b 0 ∨ ∃ r, it.instr = .cbz r 0 ∨ it.instr = .cbnz r 0)

theorem Item.BranchTo.jump (h : it.BranchTo b) (offset : Int) :
    (it.instr.withOffset offset).plain.jump? = some offset := by
  rcases h.2 with h | ⟨r, h | h⟩ <;> rw [h] <;> rfl

theorem Instr.jump?_plain (i : Instr) : i.plain.jump? = i.jump? := by
  rw [plain.eq_def]
  split <;> rfl

theorem plain_of_mem_setup (hi : i ∈ fr.setup) : i.jump? = none ∧ i.isLinked = false := by
  rw [Frame.setup] at hi
  split at hi
  · rcases mem_append.mp hi with hi | hi
    · rcases mem_cons.mp hi with rfl | hi
      · exact ⟨rfl, rfl⟩
      · rw [mem_singleton.mp hi]
        exact ⟨rfl, rfl⟩
    · have hdirect := direct_of_isData (data_of_mem_addSubSteps hi).1
      exact ⟨hdirect.1.1, hdirect.2.2⟩
  · cases hi

theorem Target.Ending.branches_or_leaves {next : Option BlockId} (h : t.Ending b next items) :
    (∀ it ∈ items, ∃ k < Func.successorsOf (t.func.block b).kind,
        it.BranchTo ((t.func.block b).succs.getD k 0)) ∨ ∀ it ∈ items, it.Straight := by
  cases h with
  | fall => exact .inl fun it hit => absurd hit not_mem_nil
  | jump hkind hsuccs =>
    refine .inl fun it hit => ?_
    rw [mem_singleton.mp hit, hkind, hsuccs]
    exact ⟨0, Nat.one_pos, ⟨_, rfl⟩, .inl rfl⟩
  | choice hkind =>
    refine .inl fun it hit => ?_
    rw [Target.choiceItems] at hit
    rw [hkind]
    split at hit
    · rw [mem_singleton.mp hit]
      exact ⟨1, Nat.one_lt_two, ⟨_, rfl⟩, .inr ⟨_, .inl rfl⟩⟩
    · rcases mem_append.mp hit with hit | hit
      · rw [mem_singleton.mp hit]
        exact ⟨0, Nat.two_pos, ⟨_, rfl⟩, .inr ⟨_, .inr rfl⟩⟩
      · split at hit
        · cases hit
        · rw [mem_singleton.mp hit]
          exact ⟨1, Nat.one_lt_two, ⟨_, rfl⟩, .inl rfl⟩
  | leave _ hstraight => exact .inr hstraight

theorem fetch_word (words : List Word) (n : Nat) : fetch words (4 * n : Nat) = words[n]?.bind Instr.decode? := by
  rw [fetch, if_pos (by omega)]
  congr 2
  omega

theorem getElem?_flatMap {α β : Type} {f : α → List β} {x : α} {y : β} {j r : Nat} :
    ∀ {xs : List α}, xs[j]? = some x → (f x)[r]? = some y →
      (xs.flatMap f)[((xs.take j).flatMap f).length + r]? = some y := by
  intro xs hx hy
  obtain ⟨hj, rfl⟩ := List.getElem?_eq_some_iff.mp hx
  have hsplit : xs.flatMap f = (xs.take j).flatMap f ++ (f xs[j] ++ (xs.drop (j + 1)).flatMap f) := by
    rw [← flatMap_cons, ← drop_eq_getElem_cons hj, ← flatMap_append, take_append_drop]
  rw [hsplit, getElem?_append_right (Nat.le_add_right _ _), Nat.add_sub_cancel_left,
    getElem?_append_left (List.getElem?_eq_some_iff.mp hy).1]
  exact hy

namespace Listing

variable {layout : List BlockId} {words : List Word} (L : Listing t layout words) {n j r : Nat}
  {pc : Int} {k : BlockCode} {s : BlockId}

theorem fetch_item (hn : L.items[n]? = some it) :
    fetch words (4 * n : Nat) = some (it.linked L.code.starts n).plain := by
  obtain ⟨w, hw, henc⟩ := L.word_of_item hn
  rw [fetch_word, hw]
  exact decode?_of_encode henc

theorem exists_item (h : fetch words pc = some i) :
    ∃ n it, pc = (4 * n : Nat) ∧ L.items[n]? = some it ∧ i = (it.linked L.code.starts n).plain := by
  obtain ⟨n, rfl⟩ : ∃ n : Nat, pc = (4 * n : Nat) := by
    rw [fetch] at h
    split at h
    · exact ⟨(pc / 4).toNat, by omega⟩
    · cases h
  have hlt : n < L.items.length := by
    rw [← L.length_words]
    by_contra hge
    rw [fetch_word, getElem?_eq_none (not_lt.mp hge)] at h
    cases h
  have hn := getElem?_eq_getElem hlt
  refine ⟨n, _, rfl, hn, ?_⟩
  rw [L.fetch_item hn, Option.some_inj] at h
  exact h.symm

theorem size_entry : L.entry.words.size = t.frame.setup.length := by
  rw [L.setup.size, Item.length_whole]
  exact Nat.zero_add _

theorem mem_of_start {b : BlockId} {p : Nat} (h : L.code.starts.getD b none = some p) : b ∈ layout := by
  by_contra hb
  have hnone : (Code.empty t.func.blocks.size).starts.getD b none = none := getD_replicate ..
  rw [L.built.starts_other.2 b hb, L.setup.starts, hnone] at h
  cases h

section

variable (hnd : layout.Nodup) (hlt : ∀ b ∈ layout, b < t.func.blocks.size)

include hnd hlt

section

variable (hj : L.blocks[j]? = some k)

include hj

theorem block_at : t.CodeFor layout[j + 1]? k ∧
      k.start.words.size = t.frame.setup.length + ((L.blocks.take j).flatMap BlockCode.items).length ∧
      L.code.starts.getD k.block none = some (4 * k.start.words.size) ∧
      ∀ n < k.stop.words.size, L.code.words[n]? = k.stop.words[n]? := by
  have hsize : L.entry.starts.size = t.func.blocks.size := by
    rw [L.setup.starts]
    exact Array.size_replicate
  rw [← L.size_entry]
  exact L.built.block_at hnd (fun b hb => hsize ▸ hlt b hb) hj

theorem getElem?_block (hr : k.items[r]? = some it) : L.items[k.start.words.size + r]? = some it := by
  obtain ⟨-, hstart, -, -⟩ := L.block_at hnd hlt hj
  rw [Listing.items, hstart, Nat.add_assoc,
    getElem?_append_right (by rw [Item.length_whole]; exact Nat.le_add_right _ _),
    Item.length_whole, Nat.add_sub_cancel_left]
  exact getElem?_flatMap hj hr

theorem getElem?_ending (hr : k.ending[r]? = some it) : L.items[k.stop.words.size + r]? = some it := by
  rw [(L.block_at hnd hlt hj).1.appends.size, Nat.add_assoc]
  refine L.getElem?_block hnd hlt hj ?_
  rw [BlockCode.items, getElem?_append_right (Nat.le_add_right _ _), Nat.add_sub_cancel_left]
  exact hr

theorem getElem?_body (hlo : k.start.words.size ≤ n)
    (hhi : n < k.stop.words.size) : words[n]? = k.stop.words[n]? := by
  obtain ⟨hk, -, -, hwords⟩ := L.block_at hnd hlt hj
  rw [← hwords n hhi]
  rw [hk.appends.size] at hhi
  obtain ⟨r, rfl⟩ := Nat.exists_eq_add_of_le hlo
  have hr := Nat.lt_of_add_lt_add_left hhi
  have hget : k.items[r]? = some k.body[r] := by
    rw [BlockCode.items, getElem?_append_left hr, getElem?_eq_getElem hr]
  have hstraight := hk.straight _ (getElem_mem hr)
  exact L.unpatched_of_item (L.getElem?_block hnd hlt hj hget) hstraight.2

theorem start_of_next (hs : layout[j + 1]? = some s) :
    L.code.starts.getD s none = some (4 * (k.stop.words.size + k.ending.length)) := by
  obtain ⟨hk, hstart, -, -⟩ := L.block_at hnd hlt hj
  rw [← L.built.blocks, getElem?_map, Option.map_eq_some_iff] at hs
  obtain ⟨k', hj', rfl⟩ := hs
  obtain ⟨-, hstart', hplace, -⟩ := L.block_at hnd hlt hj'
  obtain ⟨hlt', rfl⟩ := List.getElem?_eq_some_iff.mp hj
  rw [hplace, hstart', ← take_append_getElem hlt', flatMap_append, length_append,
    hk.appends.size, flatMap_singleton, BlockCode.items, length_append]
  congr 2
  omega

end

end

theorem executes_branch {kind : BranchKind} (hn : L.items[n]? = some ⟨.b 0, .block s kind⟩) :
    ∃ p : Nat, L.code.starts.getD s none = some p ∧ ∀ (origin : BitVec 64) (m : Machine),
      m.pc = (4 * n : Nat) → Executes origin words m { m with pc := p } := by
  obtain ⟨p, -, hp, -, -⟩ := L.exists_start hn rfl
  refine ⟨p, hp, fun origin m hpc => .single ⟨_, hpc ▸ L.fetch_item hn, ?_⟩⟩
  have hlinked : (Item.linked L.code.starts n ⟨.b 0, .block s kind⟩).plain =
      .branch false ((p : Int) - (4 * n : Nat)) := by
    rw [Item.linked]
    dsimp only
    rw [hp]
    rfl
  rw [hlinked]
  change _ = { m with pc := m.pc + ((p : Int) - (4 * n : Nat)) }
  congr 1
  omega

theorem executes_compare {kind : BranchKind} {nonzero : Bool} {r : Reg}
    (hn : L.items[n]? = some ⟨.compareBranch nonzero r 0, .block s kind⟩) :
    ∃ p : Nat, L.code.starts.getD s none = some p ∧ ∀ (origin : BitVec 64) (m : Machine),
      m.pc = (4 * n : Nat) → Executes origin words m
        { m with pc := if (m.x r != 0) == nonzero then (p : Int) else (4 * (n + 1) : Nat) } := by
  obtain ⟨p, -, hp, -, -⟩ := L.exists_start hn rfl
  refine ⟨p, hp, fun origin m hpc => .single ⟨_, hpc ▸ L.fetch_item hn, ?_⟩⟩
  have hlinked : (Item.linked L.code.starts n ⟨.compareBranch nonzero r 0, .block s kind⟩).plain =
      .compareBranch nonzero r ((p : Int) - (4 * n : Nat)) := by
    rw [Item.linked]
    dsimp only
    rw [hp]
    rfl
  rw [hlinked]
  change _ = { m with pc := if (m.x r != 0) == nonzero then m.pc + ((p : Int) - (4 * n : Nat)) else m.pc + 4 }
  congr 1
  split
  · omega
  · omega

theorem straight_or_branch (hit : it ∈ L.items) : it.Straight ∨ ∃ b, it.BranchTo b := by
  rcases mem_append.mp hit with hit | hit
  · exact .inl (Item.straight_of_whole (fun i hi => (plain_of_mem_setup hi).1) hit)
  · obtain ⟨k, hk, hit⟩ := mem_flatMap.mp hit
    obtain ⟨next, hcode⟩ := L.built.codeFor hk
    rcases mem_append.mp hit with hit | hit
    · exact .inl (hcode.straight it hit)
    · rcases hcode.ending.branches_or_leaves with hbranch | hstraight
      · obtain ⟨_, -, hto⟩ := hbranch it hit
        exact .inr ⟨_, hto⟩
      · exact .inl (hstraight it hit)

theorem jump_target {offset : Int} (hi : fetch words pc = some i) (hjump : i.jump? = some offset) :
    ∃ b ∈ layout, ∃ p : Nat, L.code.starts.getD b none = some p ∧ pc + offset = p := by
  obtain ⟨n, it, rfl, hn, rfl⟩ := L.exists_item hi
  rcases L.straight_or_branch (mem_of_getElem? hn) with hstraight | ⟨b, hb⟩
  · rw [hstraight.linked, jump?_plain, hstraight.1] at hjump
    cases hjump
  · obtain ⟨kind, hfix⟩ := hb.1
    obtain ⟨p, -, hp, -, -⟩ := L.exists_start hn hfix
    have hlinked : it.linked L.code.starts n = it.instr.withOffset ((p : Int) - (4 * n : Nat)) := by
      rw [Item.linked, hfix]
      dsimp only
      rw [hp]
      rfl
    rw [hlinked, hb.jump, Option.some_inj] at hjump
    exact ⟨b, L.mem_of_start hp, p, hp, by omega⟩

end Listing

/-- From the position `stop`, execution reaches the place of the successor with which a block goes on. -/
structure Target.Continues (t : Target) (starts : Array (Option Nat)) (words : List Word) (b : BlockId)
    (stop : Nat) : Prop where
  plain : (t.func.block b).kind = .plain → ∀ s, (t.func.block b).succs[0]? = some s →
    ∃ p : Nat, starts.getD s none = some p ∧ ∀ (origin : BitVec 64) (m : Machine), m.pc = stop →
      Executes origin words m { m with pc := p }
  choice : (t.func.block b).kind = .branch → ∀ yes no, (t.func.block b).succs[0]? = some yes →
    (t.func.block b).succs[1]? = some no →
    ∃ v cond, (t.func.block b).control = some v ∧ t.InReg v cond ∧
      ∃ p q : Nat, starts.getD yes none = some p ∧ starts.getD no none = some q ∧
        ∀ (origin : BitVec 64) (m : Machine), m.pc = stop →
          Executes origin words m { m with pc := if m.x cond ≠ 0 then (p : Int) else q }

namespace Listing

variable {layout : List BlockId} {words : List Word} (L : Listing t layout words)
  (hnd : layout.Nodup) (hlt : ∀ b ∈ layout, b < t.func.blocks.size) {j : Nat} {k : BlockCode}

include hnd hlt

theorem executes_choice {cond : Reg} {yes no : BlockId} (hj : L.blocks[j]? = some k)
    (hend : k.ending = Target.choiceItems cond yes no layout[j + 1]?) :
    ∃ p q : Nat, L.code.starts.getD yes none = some p ∧ L.code.starts.getD no none = some q ∧
      ∀ (origin : BitVec 64) (m : Machine), m.pc = k.stop.offset →
        Executes origin words m { m with pc := if m.x cond ≠ 0 then (p : Int) else q } := by
  rw [Target.choiceItems] at hend
  split at hend
  · -- the branch is taken if the register is zero
    rename_i hyes
    obtain ⟨q, hq, hexec⟩ := L.executes_compare (L.getElem?_ending hnd hlt (r := 0) hj (by rw [hend]; rfl))
    refine ⟨_, q, L.start_of_next hnd hlt hj hyes, hq, fun origin m hpc => ?_⟩
    have hrun := hexec origin m hpc
    rw [hend]
    by_cases hx : m.x cond = 0#64
    · simpa [hx] using hrun
    · simpa [hx] using hrun
  · obtain ⟨p, hp, hexec⟩ := L.executes_compare (L.getElem?_ending hnd hlt (r := 0) hj (by rw [hend]; rfl))
    split at hend
    · rename_i hno
      refine ⟨p, _, hp, L.start_of_next hnd hlt hj hno, fun origin m hpc => ?_⟩
      have hrun := hexec origin m hpc
      rw [hend]
      by_cases hx : m.x cond = 0#64
      · simpa [hx] using hrun
      · simpa [hx] using hrun
    · obtain ⟨q, hq, hexec'⟩ := L.executes_branch (L.getElem?_ending hnd hlt (r := 1) hj (by rw [hend]; rfl))
      refine ⟨p, q, hp, hq, fun origin m hpc => ?_⟩
      have hrun := hexec origin m hpc
      by_cases hx : m.x cond = 0#64
      · -- the first branch is not taken, and the second one always is
        have hrun' := hexec' origin { m with pc := (4 * (k.stop.words.size + 1) : Nat) } rfl
        have hskip : Executes origin words m { m with pc := (4 * (k.stop.words.size + 1) : Nat) } := by
          simpa [hx] using hrun
        have hall : Executes origin words m { m with pc := q } := hskip.trans hrun'
        simpa [hx] using hall
      · simpa [hx] using hrun

/-- From the end of a block execution goes on at the start of a successor, or returns. -/
theorem continues (hj : L.blocks[j]? = some k) : t.Continues L.code.starts words k.block k.stop.offset := by
  have hend := (L.block_at hnd hlt hj).1.ending
  generalize hitems : k.ending = items at hend
  cases hend with
  | @fall s rest hkind hsuccs hnext =>
    refine ⟨fun _ s' hs' => ?_, fun hbranch => ?_⟩
    · rw [hsuccs, getElem?_cons_zero, Option.some_inj] at hs'
      subst hs'
      refine ⟨_, L.start_of_next hnd hlt hj hnext, fun origin m hpc => ?_⟩
      rw [hitems]
      have hsame : m = { m with pc := ((4 * (k.stop.words.size + 0) : Nat) : Int) } := by
        exact congrArg (fun pc => { m with pc }) hpc
      rw [length_nil, ← hsame]
      exact .refl
    · rw [hkind] at hbranch
      cases hbranch
  | @jump s rest hkind hsuccs =>
    refine ⟨fun _ s' hs' => ?_, fun hbranch => ?_⟩
    · rw [hsuccs, getElem?_cons_zero, Option.some_inj] at hs'
      subst hs'
      exact L.executes_branch (L.getElem?_ending hnd hlt (r := 0) hj (by rw [hitems]; rfl))
    · rw [hkind] at hbranch
      cases hbranch
  | @choice v cond hkind hcontrol hloc =>
    refine ⟨fun hplain => ?_, fun _ yes no hyes hno => ?_⟩
    · rw [hkind] at hplain
      cases hplain
    · refine ⟨v, cond, hcontrol, hloc, L.executes_choice hnd hlt hj ?_⟩
      rw [hitems, getD_eq_getElem?_getD, getD_eq_getElem?_getD, hyes, hno]
      rfl
  | leave hkind =>
    refine ⟨fun hplain => ?_, fun hbranch => ?_⟩
    · rw [hkind] at hplain
      cases hplain
    · rw [hkind] at hbranch
      cases hbranch

end Listing

/-- The emitted words realize the control flow of the function. Before patching, they are the words that
`emitFunction` appends. The body of each block starts where the block was placed and is not patched. From
the end of the body, execution reaches the place of the successor that the control value chooses. All
jumps go to places of blocks, and patching changes only the words of pending branches. -/
theorem generate_realizes_control_flow {f : Func} {types : TypeTable} {a : Allocation} {e : Emitted}
    (h : generate f types a = .ok e) (hnd : a.layout.Nodup) (hlt : ∀ b ∈ a.layout, b < f.blocks.size) :
    ∃ code : Code, Runs ((a.target f types).emitFunction a.layout) (.empty f.blocks.size) () code ∧
      (wordsOfBytes e.code).length = code.words.size ∧
      (∀ n, (∀ p ∈ code.branches, p.offset / 4 ≠ n) → (wordsOfBytes e.code)[n]? = code.words[n]?) ∧
      (∀ b ∈ a.layout, ∃ start stop : Code, code.starts.getD b none = some start.offset ∧
        Runs ((a.target f types).emitBody b) start () stop ∧
        (∀ n, start.words.size ≤ n → n < stop.words.size → (wordsOfBytes e.code)[n]? = stop.words[n]?) ∧
        (a.target f types).Continues code.starts (wordsOfBytes e.code) b stop.offset) ∧
      ∀ pc i offset, fetch (wordsOfBytes e.code) pc = some i → i.jump? = some offset →
        ∃ b ∈ a.layout, ∃ p : Nat, code.starts.getD b none = some p ∧ pc + offset = p := by
  obtain ⟨L, -⟩ := exists_listing h
  refine ⟨L.code, L.run, L.length, L.unpatched, fun b hb => ?_, fun pc i offset => L.jump_target⟩
  obtain ⟨j, hj⟩ := List.mem_iff_getElem?.mp hb
  rw [← L.built.blocks, List.getElem?_map, Option.map_eq_some_iff] at hj
  obtain ⟨k, hk, rfl⟩ := hj
  obtain ⟨hcode, -, hplace, -⟩ := L.block_at hnd hlt hk
  exact ⟨k.start, k.stop, hplace, hcode.run, fun n => L.getElem?_body hnd hlt hk, L.continues hnd hlt hk⟩

theorem exists_generate_countdown : ∃ built a g e, buildSsa countdown .builtins = .ok built ∧
    allocate built.func.splitCriticalEdges .builtins (RegSet.firstN 4) = .ok (a, g) ∧
    generate g .builtins a = .ok e ∧ a.layout.Nodup ∧ ∀ b ∈ a.layout, b < g.blocks.size := by
  have hok : ((buildSsa countdown .builtins).toOption.any fun built =>
      (allocate built.func.splitCriticalEdges .builtins (RegSet.firstN 4)).toOption.any fun r =>
        (generate r.2 .builtins r.1).toOption.any fun _ => decide r.1.layout.Nodup &&
          r.1.layout.all fun b => decide (b < r.2.blocks.size)) := by
    decide +kernel
  obtain ⟨built, hbuilt, h⟩ := exists_ok_of_any hok
  obtain ⟨⟨a, g⟩, h, hg⟩ := exists_ok_of_any h
  obtain ⟨e, he, hlayout⟩ := exists_ok_of_any hg
  simp only [Bool.and_eq_true, decide_eq_true_eq, all_eq_true] at hlayout
  exact ⟨built, a, g, e, hbuilt, h, he, hlayout⟩

/-- The blocks of `countdown`, with the loop and its exit. -/
theorem countdown_realizes_control_flow : ∃ built a g e code, buildSsa countdown .builtins = .ok built ∧
    allocate built.func.splitCriticalEdges .builtins (RegSet.firstN 4) = .ok (a, g) ∧
    generate g .builtins a = .ok e ∧ a.layout.Nodup ∧ (∀ b ∈ a.layout, b < g.blocks.size) ∧
    Runs ((a.target g .builtins).emitFunction a.layout) (.empty g.blocks.size) () code ∧
    ∀ b ∈ a.layout, ∃ stop : Code,
      (a.target g .builtins).Continues code.starts (wordsOfBytes e.code) b stop.offset := by
  obtain ⟨built, a, g, e, hbuilt, h, he, hnd, hlt⟩ := exists_generate_countdown
  obtain ⟨code, hrun, -, -, hblocks, -⟩ := generate_realizes_control_flow he hnd hlt
  refine ⟨built, a, g, e, code, hbuilt, h, he, hnd, hlt, hrun, fun b hb => ?_⟩
  obtain ⟨start, stop, -, -, -, hcont⟩ := hblocks b hb
  exact ⟨stop, hcont⟩

end SsaCodegen
