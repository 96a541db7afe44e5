import SsaCodegen.Emission
import SsaCodegen.Proofs.Emission.Values

/-! The code of a function, block by block. -/

namespace SsaCodegen

open List

def Code.placed (c : Code) (b : BlockId) : Code :=
  { c with starts := c.starts.setIfInBounds b (some c.offset) }

namespace Target

def emitBody (t : Target) (b : BlockId) : Emit Unit := do
  (t.func.block b).values.forM t.emitValue
  if (t.func.block b).kind = .plain then t.moveAll (t.edgeMoves.getD b [])

def choiceItems (cond : Reg) (yes no : BlockId) (next : Option BlockId) : List Item :=
  if next = some yes then [⟨.cbz cond 0, .block no .compare⟩]
  else [⟨.cbnz cond 0, .block yes .compare⟩] ++
    if next = some no then [] else [⟨.b 0, .block no .jump⟩]

/-- The items at the end of a block that `next` follows. -/
inductive Ending (t : Target) (b : BlockId) (next : Option BlockId) : List Item → Prop
  | fall {s : BlockId} {rest : List BlockId} (kind : (t.func.block b).kind = .plain)
      (succs : (t.func.block b).succs = s :: rest) (follows : next = some s) : t.Ending b next []
  | jump {s : BlockId} {rest : List BlockId} (kind : (t.func.block b).kind = .plain)
      (succs : (t.func.block b).succs = s :: rest) : t.Ending b next [⟨.b 0, .block s .jump⟩]
  | choice {v : ValueId} {cond : Reg} (kind : (t.func.block b).kind = .branch)
      (control : (t.func.block b).control = some v) (loc : t.InReg v cond) :
      t.Ending b next (choiceItems cond ((t.func.block b).succs.getD 0 0) ((t.func.block b).succs.getD 1 0) next)
  | leave {items : List Item} (kind : (t.func.block b).kind = .ret) (straight : ∀ it ∈ items, it.Straight)
      (linked : Linked items []) :
      t.Ending b next items

variable {t : Target} {b : BlockId} {next : Option BlockId} {c c' : Code} {u : Unit}

theorem makes_emitBody (t : Target) (b : BlockId) :
    Makes (t.emitBody b) ((t.func.block b).values.flatMap t.func.calls) := by
  rw [← append_nil (flatMap _ _)]
  refine (makes_forM t.makes_emitValue _).bind fun _ => ?_
  split
  · exact t.straight_moveAll _
  · exact straight_pure _

theorem plain_of_mem_leave {fr : Frame} {i : Instr} (hi : i ∈ fr.leave) : i.jump? = none ∧ i.isLinked = false := by
  rcases mem_append.mp hi with hi | hi
  · split at hi
    · rcases mem_append.mp hi with hi | hi
      · split at hi
        · rw [mem_singleton.mp hi]
          exact ⟨rfl, rfl⟩
        · cases hi
      · rw [mem_singleton.mp hi]
        exact ⟨rfl, rfl⟩
    · cases hi
  · rw [mem_singleton.mp hi]
    exact ⟨rfl, rfl⟩

theorem straight_emitReturn (t : Target) (v : ValueId) : StraightCode (t.emitReturn v) := by
  have hleave : ∀ moves, StraightCode (do t.moveAll moves; emitAll t.frame.leave) := fun moves =>
    (t.straight_moveAll moves).bind fun _ => straight_emitAll fun _ => plain_of_mem_leave
  rw [emitReturn]
  split
  · exact (straight_pure _).bind hleave
  · exact (t.straight_location _).bind fun _ => (straight_pure _).bind hleave

theorem appends_of_emitChoice {cond : Reg} {yes no : BlockId} (h : Runs (emitChoice cond yes no next) c u c') :
    c.Appends (choiceItems cond yes no next) c' := by
  rw [choiceItems]
  rcases runs_ite.mp h with ⟨hyes, h⟩ | ⟨hyes, h⟩
  · rw [if_pos hyes]
    exact appends_of_emitBranch h
  · rw [if_neg hyes]
    obtain ⟨u', s, hbranch, hrest⟩ := runs_bind.mp h
    refine (appends_of_emitBranch hbranch).trans ?_
    rcases runs_ite.mp hrest with ⟨hno, hrest⟩ | ⟨hno, hrest⟩
    · rw [if_neg hno]
      exact appends_of_emitBranch hrest
    · rw [if_pos (not_not.mp hno)]
      obtain ⟨-, rfl⟩ := runs_pure.mp hrest
      exact .refl _

/-- After its values, a block goes on with the copies for its successor, if it has any, and its end. -/
theorem code_of_emitBlock (h : Runs (t.emitBlock b next) c u c') :
    ∃ stop ending, Runs (t.emitBody b) (c.placed b) () stop ∧ t.Ending b next ending ∧ stop.Appends ending c' := by
  obtain ⟨u1, s, hplace, hrest⟩ := runs_bind.mp h
  rw [placeBlock, runs_modify] at hplace
  subst hplace
  obtain ⟨u2, s', hvalues, hcontrol⟩ := runs_bind.mp hrest
  rw [emitControl] at hcontrol
  have hbody : (t.func.block b).kind ≠ .plain → Runs (t.emitBody b) (c.placed b) () s' := by
    intro hne
    exact runs_bind.mpr ⟨u2, s', hvalues, runs_ite.mpr (.inr ⟨hne, runs_pure.mpr ⟨rfl, rfl⟩⟩)⟩
  split at hcontrol
  · rename_i control hkind
    obtain ⟨u3, s'', hmoves, hend⟩ := runs_bind.mp hcontrol
    refine ⟨s'', ?_⟩
    have hrun : Runs (t.emitBody b) (c.placed b) () s'' := by
      exact runs_bind.mpr ⟨u2, s', hvalues, runs_ite.mpr (.inl ⟨hkind, hmoves⟩)⟩
    split at hend
    · exact absurd (runs_throw.mp hend) id
    · rename_i succ rest hsuccs
      rcases runs_ite.mp hend with ⟨hnext, hend⟩ | ⟨hnext, hend⟩
      · exact ⟨_, hrun, .jump hkind hsuccs, appends_of_emitBranch hend⟩
      · obtain ⟨-, rfl⟩ := runs_pure.mp hend
        exact ⟨[], hrun, .fall hkind hsuccs (not_not.mp hnext), .refl _⟩
  · rename_i v hkind hctl
    have hne : (t.func.block b).kind ≠ .plain := by rw [hkind]; decide
    split at hcontrol
    · obtain ⟨u3, s'', hthrow, -⟩ := runs_bind.mp hcontrol
      exact absurd (runs_throw.mp hthrow) id
    · obtain ⟨cond, hcond, hchoice⟩ := runs_reg hcontrol
      exact ⟨s', _, hbody hne, .choice hkind hctl hcond, appends_of_emitChoice hchoice⟩
  · rename_i v hkind _
    have hne : (t.func.block b).kind ≠ .plain := by rw [hkind]; decide
    obtain ⟨items, hitems, hlinked, happ⟩ := t.straight_emitReturn v _ _ _ hcontrol
    exact ⟨s', items, hbody hne, .leave hkind hitems hlinked, happ⟩
  · exact absurd (runs_throw.mp hcontrol) id

end Target

/-! The listing of a function: which item stands at which word of the code. Patching touches the branches to
blocks alone. -/

variable {p : PendingBranch}

/-- A block in the listing. -/
structure BlockCode where
  block : BlockId
  /-- The code when the block has been placed. -/
  start : Code
  /-- The code up to what ends the block. -/
  stop : Code
  body : List Item
  ending : List Item

def BlockCode.items (k : BlockCode) : List Item := k.body ++ k.ending

namespace Target

variable {k : BlockCode}

/-- The code is that of the block, and `next` follows. -/
structure CodeFor (t : Target) (next : Option BlockId) (k : BlockCode) : Prop where
  run : Runs (t.emitBody k.block) k.start () k.stop
  straight : ∀ it ∈ k.body, it.Straight
  linked : Linked k.body ((t.func.block k.block).values.flatMap t.func.calls)
  appends : k.start.Appends k.body k.stop
  ending : t.Ending k.block next k.ending

/-- Blocks are emitted one after the other. -/
inductive Built (t : Target) : Code → List BlockId → List BlockCode → Code → Prop
  | nil (c : Code) : t.Built c [] [] c
  | cons {c c' c'' : Code} {bs : List BlockId} {k : BlockCode} {ks : List BlockCode}
      (start : k.start = c.placed k.block) (code : t.CodeFor bs.head? k)
      (ending : k.stop.Appends k.ending c') (rest : t.Built c' bs ks c'') :
      t.Built c (k.block :: bs) (k :: ks) c''

variable {t : Target} {c c' : Code} {bs : List BlockId} {ks : List BlockCode}

theorem built_of_emitBlocks : ∀ {bs : List BlockId} {c : Code} {u : Unit},
    Runs (t.emitBlocks bs) c u c' → ∃ ks, t.Built c bs ks c'
  | [], c, u, h => by
    obtain ⟨-, rfl⟩ := runs_pure.mp h
    exact ⟨[], .nil _⟩
  | b :: bs, c, u, h => by
    obtain ⟨u', s, hblock, hrest⟩ := runs_bind.mp h
    obtain ⟨stop, ending, hbody, hend, happ⟩ := code_of_emitBlock hblock
    obtain ⟨body, hcode, hlinked, happ'⟩ := t.makes_emitBody b _ _ _ hbody
    obtain ⟨ks, hks⟩ := built_of_emitBlocks hrest
    let k : BlockCode := ⟨b, c.placed b, stop, body, ending⟩
    exact ⟨k :: ks, .cons (k := k) rfl ⟨hbody, hcode, hlinked, happ', hend⟩ happ hks⟩

theorem Built.cons_appends {next : Option BlockId} (hstart : k.start = c.placed k.block)
    (hcode : t.CodeFor next k) (hend : k.stop.Appends k.ending c') :
    (c.placed k.block).Appends k.items c' := by
  rw [← hstart]
  exact hcode.appends.trans hend

section

variable (h : t.Built c bs ks c')

include h

theorem Built.blocks : ks.map BlockCode.block = bs := by
  induction h with
  | nil => rfl
  | cons _ _ _ _ ih => rw [map_cons, ih]

theorem Built.codeFor (hk : k ∈ ks) : ∃ next, t.CodeFor next k := by
  induction h with
  | nil => cases hk
  | cons _ hcode _ _ ih =>
    rcases mem_cons.mp hk with rfl | hk
    · exact ⟨_, hcode⟩
    · exact ih hk

theorem Built.appends : c.Appends (ks.flatMap BlockCode.items) { c' with starts := c.starts } := by
  induction h with
  | nil c => exact .refl c
  | @cons c c1 c2 bs k ks hstart hcode hend hrest ih =>
    have hfirst := Built.cons_appends hstart hcode hend
    obtain ⟨ws, hws, hall⟩ := hfirst.words
    obtain ⟨ws', hws', hall'⟩ := ih.words
    refine ⟨⟨ws ++ ws', ?_, ?_⟩, ?_, ?_, rfl⟩
    · exact hws'.trans (by rw [hws, append_assoc]; rfl)
    · exact rel_append hall hall'
    · rw [flatMap_cons, openIn_append]
      exact ih.relocs.trans (by rw [hfirst.relocs, hfirst.size, append_assoc]; rfl)
    · rw [flatMap_cons, openIn_append]
      exact ih.branches.trans (by rw [hfirst.branches, hfirst.size, append_assoc]; rfl)

theorem Built.starts_other :
    c'.starts.size = c.starts.size ∧ ∀ b, b ∉ bs → c'.starts.getD b none = c.starts.getD b none := by
  induction h with
  | nil => exact ⟨rfl, fun _ _ => rfl⟩
  | @cons c c1 c2 bs k ks hstart hcode hend hrest ih =>
    have hstarts : c1.starts = c.starts.setIfInBounds k.block (some c.offset) :=
      (Built.cons_appends hstart hcode hend).starts
    refine ⟨?_, fun b hb => ?_⟩
    · rw [ih.1, hstarts, Array.size_setIfInBounds]
    · rw [mem_cons, not_or] at hb
      rw [ih.2 b hb.2, hstarts, getD_setIfInBounds_ne hb.1]

/-- Where a block stands in the listing: its first word follows the words of all blocks before it, and that
is where branches to it go. -/
theorem Built.block_at (hnd : bs.Nodup) (hlt : ∀ b ∈ bs, b < c.starts.size) {j : Nat} (hj : ks[j]? = some k) :
    t.CodeFor bs[j + 1]? k ∧ k.start.words.size = c.words.size + ((ks.take j).flatMap BlockCode.items).length ∧
      c'.starts.getD k.block none = some (4 * k.start.words.size) ∧
      ∀ n < k.stop.words.size, c'.words[n]? = k.stop.words[n]? := by
  induction h generalizing j with
  | nil => cases hj
  | @cons c c1 c2 bs k0 ks hstart hcode hend hrest ih =>
    have hfirst := Built.cons_appends hstart hcode hend
    have hnd' := nodup_cons.mp hnd
    cases j with
    | zero =>
      cases hj
      refine ⟨?_, ?_, ?_, fun n hn => ?_⟩
      · rw [getElem?_cons_succ, ← head?_eq_getElem?]
        exact hcode
      · rw [hstart]
        rfl
      · -- no later block moves the place of this one
        rw [hrest.starts_other.2 _ hnd'.1, hfirst.starts, hstart]
        change (c.starts.setIfInBounds k.block (some c.offset)).getD k.block none = _
        rw [getD_setIfInBounds (hlt k.block mem_cons_self), if_pos rfl]
        rfl
      · have hn' : n < c1.words.size := hn.trans_le (by rw [hend.size]; omega)
        exact (hrest.appends.getElem?_old hn').trans (hend.getElem?_old hn)
    | succ j =>
      have hsize : c1.starts.size = c.starts.size := by
        rw [hfirst.starts]
        exact Array.size_setIfInBounds
      obtain ⟨hk, hat, hstarts, hwords⟩ := ih hnd'.2 (fun b hb => hsize ▸ hlt b (mem_cons_of_mem _ hb)) hj
      refine ⟨?_, ?_, hstarts, hwords⟩
      · exact hk
      · rw [hat, hfirst.size, take_succ_cons, flatMap_cons, length_append]
        exact Nat.add_assoc ..

end

end Target

def Item.linked (starts : Array (Option Nat)) (n : Nat) (it : Item) : Instr :=
  match it.fixup with
  | .block target _ => it.instr.withOffset (((starts.getD target none).getD 0 : Int) - (4 * n : Nat))
  | _ => it.instr

theorem patchBranch_eq_ok {words words' : Array Word} {d : Int} {func : String}
    (h : patchBranch words p d func = .ok words') :
    ∃ w, (p.instr.withOffset d).encode = .ok w ∧ words' = words.setIfInBounds (p.offset / 4) w := by
  rw [patchBranch] at h
  split at h
  · cases h
  · split at h
    · rename_i w hw
      cases h
      exact ⟨w, hw, rfl⟩
    · cases h

theorem patched_words {starts : Array (Option Nat)} {func : String} :
    ∀ {branches : List PendingBranch} {words words' : Array Word}, branches.foldlM (fun words branch =>
      match starts.getD branch.target none with
      | none => throw (.registerAllocation func (.unplacedTarget branch.target))
      | some start => patchBranch words branch ((start : Int) - branch.offset) func) words =
        (.ok words' : Except CompileError (Array Word)) →
    (branches.map fun p => p.offset / 4).Nodup →
    words'.size = words.size ∧ (∀ n, (∀ p ∈ branches, p.offset / 4 ≠ n) → words'[n]? = words[n]?) ∧
      ∀ p ∈ branches, p.offset / 4 < words.size → ∃ (start : Nat) (w : Word), starts.getD p.target none = some start ∧
        (p.instr.withOffset ((start : Int) - p.offset)).encode = .ok w ∧ words'[p.offset / 4]? = some w
  | [], words, words', h, _ => by
    cases h
    exact ⟨rfl, fun _ _ => rfl, forall_mem_nil _⟩
  | p :: ps, words, words', h, hnd => by
    rw [foldlM_cons, except_bind_eq_ok] at h
    obtain ⟨mid, hfirst, hrest⟩ := h
    rw [map_cons, nodup_cons] at hnd
    obtain ⟨start, w, hstart, hw, rfl⟩ : ∃ (start : Nat) (w : Word), starts.getD p.target none = some start ∧
        (p.instr.withOffset ((start : Int) - p.offset)).encode = .ok w ∧
        mid = words.setIfInBounds (p.offset / 4) w := by
      split at hfirst
      · cases hfirst
      · rename_i start hstart
        obtain ⟨w, hw, hmid⟩ := patchBranch_eq_ok hfirst
        exact ⟨start, w, hstart, hw, hmid⟩
    obtain ⟨hsize, hother, hall⟩ := patched_words hrest hnd.2
    refine ⟨hsize.trans Array.size_setIfInBounds, fun n hn => ?_, fun q hq hlt => ?_⟩
    · rw [hother n fun q hq => hn q (mem_cons_of_mem p hq), Array.getElem?_setIfInBounds_ne (hn p mem_cons_self)]
    · rcases mem_cons.mp hq with rfl | hq
      · refine ⟨start, w, hstart, hw, ?_⟩
        rw [hother _ fun q' hq' heq => hnd.1 (mem_map.mpr ⟨q', hq', heq⟩),
          Array.getElem?_setIfInBounds_self_of_lt hlt]
      · exact hall q hq (by rwa [Array.size_setIfInBounds])

theorem openIn_cons {α : Type} (left : Item → Nat → Option α) (n : Nat) (it : Item) (items : List Item) :
    openIn left n (it :: items) = (left it n).toList ++ openIn left (n + 1) items := by
  rw [openIn, zipIdx_cons, filterMap_cons]
  cases left it n <;> rfl

theorem Item.offset_of_branch? {it : Item} {n : Nat} (h : it.branch? n = some p) :
    p.offset = 4 * n ∧ p.instr = it.instr ∧ it.fixup = .block p.target p.kind := by
  rw [Item.branch?] at h
  split at h
  · rename_i target kind hfix
    cases h
    exact ⟨rfl, rfl, hfix⟩
  · cases h

theorem pairwise_openIn {α : Type} {left : Item → Nat → Option α} {w : α → Nat}
    (hword : ∀ {it n a}, left it n = some a → w a = n) : ∀ (items : List Item) (n : Nat),
    (openIn left n items).Pairwise fun a b => w a < w b
  | [], n => .nil
  | it :: items, n => by
    rw [openIn_cons]
    refine pairwise_append.mpr ⟨?_, pairwise_openIn hword items (n + 1), fun a ha b hb => ?_⟩
    · cases left it n with
      | none => exact .nil
      | some a => exact pairwise_singleton _ _
    · obtain ⟨k, it', -, hleft⟩ := mem_openIn.mp hb
      rw [hword (Option.mem_toList.mp ha), hword hleft]
      omega

theorem nodup_branches (items : List Item) (n : Nat) :
    ((openIn Item.branch? n items).map fun p => p.offset / 4).Nodup := by
  refine pairwise_map.mpr ((pairwise_openIn (w := fun p : PendingBranch => p.offset / 4) ?_ items n).imp Nat.ne_of_lt)
  intro it n p h
  rw [(Item.offset_of_branch? h).1, Nat.mul_div_cancel_left n (by decide)]

theorem Word.ofBytes_bytes (w : Word) : Word.ofBytes w.bytes = w := by
  have hbyte : ∀ k, (UInt8.ofNat (w.field k 8)).toNat = w.toNat / Nat.pow 2 k % 256 := by
    intro k
    exact Nat.mod_mod _ _
  apply BitVec.eq_of_toNat_eq
  simp only [Word.ofBytes, Word.bytes, range_succ, range_zero, nil_append,
    map_cons, map_nil, cons_append, take_succ_cons, take_zero, foldr_cons,
    foldr_nil, hbyte, BitVec.toNat_ofNat]
  rw [show Nat.pow 2 (8 * 0) = 1 from rfl, show Nat.pow 2 (8 * 1) = 256 from rfl,
    show Nat.pow 2 (8 * 2) = 65536 from rfl, show Nat.pow 2 (8 * 3) = 16777216 from rfl]
  omega

theorem wordsOfBytes_flatMap : ∀ ws : List Word, wordsOfBytes (ws.flatMap Word.bytes) = ws
  | [] => rfl
  | w :: ws => by
    change Word.ofBytes w.bytes :: wordsOfBytes (ws.flatMap Word.bytes) = w :: ws
    rw [w.ofBytes_bytes, wordsOfBytes_flatMap ws]

def Code.empty (n : Nat) : Code :=
  { words := #[], relocs := [], branches := [], starts := Array.replicate n none }

def Allocation.target (a : Allocation) (f : Func) (types : TypeTable) : Target :=
  { func := f, types, frame := a.frame f types, edgeMoves := a.edgeMoves }

def Frame.setup (fr : Frame) : List Instr :=
  if fr.hasRecord then Frame.saveRecord ++ Instr.addSubSteps .sub Reg.sp Reg.sp fr.bodySize else []

theorem appends_of_emitPrologue {t : Target} {c c' : Code} {u : Unit} (h : Runs t.emitPrologue c u c') :
    c.Appends (Item.whole t.frame.setup) c' := by
  rw [Frame.setup]
  rcases runs_ite.mp h with ⟨hrecord, h⟩ | ⟨hrecord, h⟩
  · obtain ⟨u', s, hsave, hrest⟩ := runs_bind.mp h
    rcases runs_ite.mp hrest with ⟨-, hrest⟩ | ⟨-, hrest⟩
    · obtain ⟨u2, s2, hthrow, -⟩ := runs_bind.mp hrest
      exact absurd (runs_throw.mp hthrow) id
    · rw [if_pos hrecord]
      exact (appends_of_emitAll hsave).trans (appends_of_emitAll hrest)
  · obtain ⟨-, rfl⟩ := runs_pure.mp h
    rw [if_neg hrecord]
    exact .refl _

/-- The code of a function, item by item. -/
structure Listing (t : Target) (layout : List BlockId) (words : List Word) where
  blocks : List BlockCode
  /-- The code when the frame has been set up. -/
  entry : Code
  /-- The code before branches are patched. -/
  code : Code
  run : Runs (t.emitFunction layout) (.empty t.func.blocks.size) () code
  setup : (Code.empty t.func.blocks.size).Appends (Item.whole t.frame.setup) entry
  built : t.Built entry layout blocks code
  length : words.length = code.words.size
  unpatched : ∀ n, (∀ p ∈ code.branches, p.offset / 4 ≠ n) → words[n]? = code.words[n]?
  patched : ∀ p ∈ code.branches, p.offset / 4 < code.words.size → ∃ (start : Nat) (w : Word),
    code.starts.getD p.target none = some start ∧
    (p.instr.withOffset ((start : Int) - p.offset)).encode = .ok w ∧ words[p.offset / 4]? = some w

theorem exists_listing {f : Func} {types : TypeTable} {a : Allocation} {e : Emitted}
    (h : generate f types a = .ok e) :
    ∃ L : Listing (a.target f types) a.layout (wordsOfBytes e.code), e.relocs = L.code.relocs := by
  rw [generate] at h
  obtain ⟨⟨u, c⟩, hrun, hrest⟩ := except_bind_eq_ok.mp h
  obtain ⟨c', hpatch, hpure⟩ := except_bind_eq_ok.mp hrest
  cases hpure
  obtain ⟨u', entry, hpro, hblocks⟩ := runs_bind.mp (by exact hrun)
  have hsetup := appends_of_emitPrologue hpro
  obtain ⟨ks, hks⟩ := Target.built_of_emitBlocks hblocks
  obtain ⟨words, hfold, hpure⟩ := except_bind_eq_ok.mp hpatch
  cases hpure
  have hbranches : c.branches = openIn Item.branch? 0
      (Item.whole (a.frame f types).setup ++ ks.flatMap BlockCode.items) := by
    have happ := hsetup.trans hks.appends
    exact happ.branches.trans (nil_append _)
  obtain ⟨hsize, hother, hall⟩ := patched_words hfold (by rw [hbranches]; exact nodup_branches _ _)
  have hwords : wordsOfBytes (Code.bytes { c with words }) = words.toList := wordsOfBytes_flatMap _
  rw [hwords]
  refine ⟨⟨ks, entry, c, hrun, hsetup, hks, ?_, fun n hn => ?_, fun p hp hlt => ?_⟩, rfl⟩
  · rw [Array.length_toList, hsize]
  · rw [Array.getElem?_toList, hother n hn]
  · obtain ⟨start, w, hstart, hw, hget⟩ := hall p hp hlt
    exact ⟨start, w, hstart, hw, by rw [Array.getElem?_toList, hget]⟩

namespace Listing

variable {t : Target} {layout : List BlockId} {words : List Word} (L : Listing t layout words)
  {n : Nat} {it : Item}

def items : List Item := Item.whole t.frame.setup ++ L.blocks.flatMap BlockCode.items

theorem appends : (Code.empty t.func.blocks.size).Appends L.items
    { L.code with starts := L.entry.starts } := L.setup.trans L.built.appends

theorem size_code : L.code.words.size = L.items.length := L.appends.size.trans (Nat.zero_add _)

theorem length_words : words.length = L.items.length := L.length.trans L.size_code

theorem branches : L.code.branches = openIn Item.branch? 0 L.items :=
  L.appends.branches.trans (nil_append _)

theorem relocs : L.code.relocs = openIn Item.reloc? 0 L.items := L.appends.relocs.trans (nil_append _)

section

variable (hn : L.items[n]? = some it)

include hn

theorem getElem?_code : ∃ w, L.code.words[n]? = some w ∧ it.instr.encode = .ok w := by
  obtain ⟨w, hw, henc⟩ := L.appends.getElem?_new hn
  rw [show (Code.empty t.func.blocks.size).words.size + n = n from Nat.zero_add n] at hw
  exact ⟨w, hw, henc⟩

theorem unpatched_of_item (hfix : ∀ b kind, it.fixup ≠ .block b kind) : words[n]? = L.code.words[n]? := by
  refine L.unpatched n fun p hp heq => ?_
  rw [L.branches] at hp
  obtain ⟨k, it', hk, hleft⟩ := mem_openIn.mp hp
  obtain ⟨hoff, -, hfix'⟩ := Item.offset_of_branch? hleft
  obtain rfl : n = k := by omega
  rw [hn, Option.some_inj] at hk
  subst hk
  exact hfix _ _ hfix'

theorem exists_start {b : BlockId} {kind : BranchKind}
    (hfix : it.fixup = .block b kind) : ∃ start w, L.code.starts.getD b none = some start ∧
      (it.instr.withOffset ((start : Int) - (4 * n : Nat))).encode = .ok w ∧ words[n]? = some w := by
  have hleft : it.branch? (0 + n) = some ⟨4 * n, b, it.instr, kind⟩ := by
    rw [Item.branch?, hfix, Nat.zero_add]
  have hp : (⟨4 * n, b, it.instr, kind⟩ : PendingBranch) ∈ L.code.branches := by
    rw [L.branches]
    exact mem_openIn.mpr ⟨n, it, hn, hleft⟩
  have hdiv : 4 * n / 4 = n := Nat.mul_div_cancel_left n (by decide)
  have hlt : n < L.code.words.size := by
    rw [L.size_code]
    exact (List.getElem?_eq_some_iff.mp hn).1
  obtain ⟨start, w, hstart, hw, hget⟩ := L.patched _ hp (hdiv.le.trans_lt hlt)
  exact ⟨start, w, hstart, hw, by rw [← hget]; exact congrArg (words[·]?) hdiv.symm⟩

theorem word_of_item : ∃ w, words[n]? = some w ∧ (it.linked L.code.starts n).encode = .ok w := by
  cases hfix : it.fixup with
  | block b kind =>
    obtain ⟨start, w, hstart, hw, hget⟩ := L.exists_start hn hfix
    refine ⟨w, hget, ?_⟩
    rw [Item.linked, hfix]
    dsimp only
    rw [hstart]
    exact hw
  | none | symbol name kind =>
    obtain ⟨w, hw, henc⟩ := L.getElem?_code hn
    refine ⟨w, (L.unpatched_of_item hn (by simp [hfix])).trans hw, ?_⟩
    rw [Item.linked, hfix]
    exact henc

end

end Listing

end SsaCodegen
