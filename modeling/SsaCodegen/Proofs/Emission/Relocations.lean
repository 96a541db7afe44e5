import SsaCodegen.Proofs.Emission.ControlFlow

/-! Relocations. Calls and addresses are the only instructions that the linker completes, and each has a note. -/

namespace SsaCodegen

open List Instr

variable {items : List Item} {calls : List String} {name : String} {kind : RelocKind} {i : Instr} {k : Nat}
  {it : Item} {r : Reloc}

theorem Instr.isLinked_plain (i : Instr) : i.plain.isLinked = i.isLinked := by
  rw [plain.eq_def]
  split <;> rfl

theorem Instr.isLinked_withOffset (i : Instr) (offset : Int) : (i.withOffset offset).isLinked = i.isLinked := by
  cases i <;> rfl

/-- The instruction `i` at the word `k` is completed with the symbol. -/
inductive Completed (items : List Item) (name : String) : Nat → RelocKind → Instr → Prop
  | call {k : Nat} : Completed items name k .call (.bl 0)
  | page {k : Nat} {rd : Reg} (next : items[k + 1]? = some ⟨.addImm rd rd 0, .symbol name .pageOffset⟩) :
      Completed items name k .page (.adrp rd 0)
  | pageOffset {k : Nat} {rd : Reg} (last : items[k]? = some ⟨.adrp rd 0, .symbol name .page⟩) :
      Completed items name (k + 1) .pageOffset (.addImm rd rd 0)

theorem Completed.cons (h : Completed items name k kind i) (it : Item) :
    Completed (it :: items) name (k + 1) kind i := by
  cases h with
  | call => exact .call
  | page hnext => exact .page hnext
  | pageOffset hlast => exact .pageOffset hlast

theorem Linked.completed (h : Linked items calls) (hk : items[k]? = some it) (hfix : it.fixup = .symbol name kind) :
    Completed items name k kind it.instr := by
  induction h generalizing k with
  | nil => cases hk
  | whole hinstr hnone _ ih =>
    cases k with
    | zero =>
      cases hk
      exact absurd hfix (hnone _ _)
    | succ k => exact (ih hk).cons _
  | call callee _ ih =>
    cases k with
    | zero =>
      cases hk
      cases hfix
      exact .call
    | succ k => exact (ih hk).cons _
  | address rd symbol _ ih =>
    rcases k with _ | _ | k
    · cases hk
      cases hfix
      exact .page rfl
    · cases hk
      cases hfix
      exact .pageOffset rfl
    · exact ((ih hk).cons _).cons _

theorem Linked.exists_symbol (h : Linked items calls) (hit : it ∈ items) (hi : it.instr.isLinked) :
    ∃ name kind, it.fixup = .symbol name kind := by
  induction h with
  | nil => cases hit
  | whole hinstr _ _ ih =>
    rcases mem_cons.mp hit with rfl | hit
    · cases hinstr.symm.trans hi
    · exact ih hit
  | call callee _ ih =>
    rcases mem_cons.mp hit with rfl | hit
    · exact ⟨_, _, rfl⟩
    · exact ih hit
  | address rd symbol _ ih =>
    rcases mem_cons.mp hit with rfl | hit
    · exact ⟨_, _, rfl⟩
    · rcases mem_cons.mp hit with rfl | hit
      · exact ⟨_, _, rfl⟩
      · exact ih hit

theorem Item.reloc?_eq_some {n : Nat} : it.reloc? n = some r ↔
    ∃ name kind, it.fixup = .symbol name kind ∧ r = ⟨4 * n, name, kind, 0⟩ := by
  rw [Item.reloc?]
  cases it.fixup with
  | symbol name kind => simp [eq_comm]
  | _ => simp

theorem Linked.calls_eq (h : Linked items calls) (n : Nat) :
    ((openIn Item.reloc? n items).filter (·.kind = .call)).map (·.symbol) = calls := by
  induction h generalizing n with
  | nil => rfl
  | @whole it _ _ _ hnone _ ih =>
    have hreloc : it.reloc? n = none := by
      refine Option.eq_none_iff_forall_ne_some.mpr fun r hr => ?_
      obtain ⟨name, kind, hfix, -⟩ := Item.reloc?_eq_some.mp hr
      exact hnone name kind hfix
    rw [openIn_cons, hreloc]
    exact ih (n + 1)
  | call callee _ ih =>
    exact congrArg (callee :: ·) (ih (n + 1))
  | address rd symbol _ ih =>
    exact ih (n + 2)

/-- The relocations of a code. -/
structure Relocated (words : List Word) (relocs : List Reloc) (calls : List String) : Prop where
  increasing : relocs.Pairwise (·.offset < ·.offset)
  inside : ∀ r ∈ relocs, 4 ∣ r.offset ∧ r.offset < 4 * words.length
  calls : (relocs.filter (·.kind = .call)).map (·.symbol) = calls
  call_iff : ∀ n : Nat, (∃ d, fetch words (4 * n : Nat) = some (.branch true d)) ↔
    ∃ r ∈ relocs, r.offset = 4 * n ∧ r.kind = .call
  call : ∀ (n : Nat) d, fetch words (4 * n : Nat) = some (.branch true d) → d = 0
  page_iff : ∀ n : Nat, (∃ rd pages, fetch words (4 * n : Nat) = some (.adrp rd pages)) ↔
    ∃ r ∈ relocs, r.offset = 4 * n ∧ r.kind = .page
  page : ∀ (n : Nat) rd pages, fetch words (4 * n : Nat) = some (.adrp rd pages) → pages = 0 ∧
    fetch words (4 * (n + 1) : Nat) = some (.addImm rd rd 0) ∧
    ∃ name, ⟨4 * n, name, .page, 0⟩ ∈ relocs ∧ ⟨4 * (n + 1), name, .pageOffset, 0⟩ ∈ relocs
  pageOffset : ∀ r ∈ relocs, r.kind = .pageOffset → ∃ n, r.offset = 4 * (n + 1) ∧ ⟨4 * n, r.symbol, .page, 0⟩ ∈ relocs

namespace Target

variable {t : Target} {b : BlockId} {next : Option BlockId}

theorem Ending.linked (h : t.Ending b next items) : Linked items [] := by
  have hbranch : ∀ i target kind rest, i.isLinked = false → Linked rest [] →
      Linked (⟨i, .block target kind⟩ :: rest) [] := fun i target kind rest hi => .whole hi (by simp)
  cases h with
  | fall => exact .nil
  | jump => exact hbranch _ _ _ _ rfl .nil
  | choice =>
    rw [choiceItems]
    split
    · exact hbranch _ _ _ _ rfl .nil
    · refine hbranch _ _ _ _ rfl ?_
      split
      · exact .nil
      · exact hbranch _ _ _ _ rfl .nil
  | leave _ _ hlinked => exact hlinked

theorem Built.linked {c c' : Code} {bs : List BlockId} {ks : List BlockCode} (h : t.Built c bs ks c') :
    Linked (ks.flatMap BlockCode.items) (bs.flatMap fun b => (t.func.block b).values.flatMap t.func.calls) := by
  induction h with
  | nil => exact .nil
  | cons _ hcode _ _ ih =>
    have hblock := hcode.linked.append hcode.ending.linked
    rw [append_nil] at hblock
    exact hblock.append ih

end Target

namespace Listing

variable {t : Target} {layout : List BlockId} {words : List Word} (L : Listing t layout words) {n : Nat}

theorem linked : Linked L.items (layout.flatMap fun b => (t.func.block b).values.flatMap t.func.calls) :=
  (linked_whole fun _ hi => (plain_of_mem_setup hi).2).append L.built.linked

theorem fetch_completed (hn : L.items[n]? = some it) (hfix : it.fixup = .symbol name kind) :
    fetch words (4 * n : Nat) = some it.instr := by
  have hplain : it.instr.plain = it.instr := by
    have hc := L.linked.completed hn hfix
    revert hc
    generalize it.instr = i
    rintro (_ | _ | _) <;> rfl
  rw [L.fetch_item hn, Item.linked, hfix, hplain]

theorem mem_relocs : r ∈ L.code.relocs ↔ ∃ n it name kind, L.items[n]? = some it ∧
    it.fixup = .symbol name kind ∧ r = ⟨4 * n, name, kind, 0⟩ := by
  simp only [L.relocs, mem_openIn, Item.reloc?_eq_some, Nat.zero_add]
  constructor
  · rintro ⟨n, it, hn, name, kind, h⟩
    exact ⟨n, it, name, kind, hn, h⟩
  · rintro ⟨n, it, name, kind, hn, h⟩
    exact ⟨n, it, hn, name, kind, h⟩

theorem completed_of_mem (h : r ∈ L.code.relocs) : ∃ n i, r.offset = 4 * n ∧ n < words.length ∧
    fetch words (4 * n : Nat) = some i ∧ Completed L.items r.symbol n r.kind i := by
  obtain ⟨n, it, name, kind, hn, hfix, rfl⟩ := L.mem_relocs.mp h
  have hlt := (List.getElem?_eq_some_iff.mp hn).1
  exact ⟨n, it.instr, rfl, L.length_words ▸ hlt, L.fetch_completed hn hfix, L.linked.completed hn hfix⟩

theorem completed_of_fetch (h : fetch words (4 * n : Nat) = some i) (hi : i.isLinked) :
    ∃ name kind, Completed L.items name n kind i ∧ ⟨4 * n, name, kind, 0⟩ ∈ L.code.relocs := by
  obtain ⟨m, it, hm, hn, rfl⟩ := L.exists_item h
  obtain rfl : n = m := by omega
  have hinstr : it.instr.isLinked := by
    rw [isLinked_plain, Item.linked] at hi
    split at hi
    · rwa [isLinked_withOffset] at hi
    · exact hi
  obtain ⟨name, kind, hfix⟩ := L.linked.exists_symbol (mem_of_getElem? hn) hinstr
  rw [← Option.some.inj ((L.fetch_completed hn hfix).symm.trans h)]
  exact ⟨name, kind, L.linked.completed hn hfix, L.mem_relocs.mpr ⟨n, it, name, kind, hn, hfix, rfl⟩⟩

theorem relocated : Relocated words L.code.relocs
    (layout.flatMap fun b => (t.func.block b).values.flatMap t.func.calls) where
  increasing := by
    rw [L.relocs]
    refine (pairwise_openIn (w := fun r : Reloc => r.offset / 4) (fun h => ?_) L.items 0).imp fun h => ?_
    · obtain ⟨_, _, -, rfl⟩ := Item.reloc?_eq_some.mp h
      exact Nat.mul_div_cancel_left _ (by decide)
    · omega
  inside r hr := by
    obtain ⟨n, -, hoff, hlt, -⟩ := L.completed_of_mem hr
    exact ⟨⟨n, hoff⟩, by omega⟩
  calls := by
    rw [L.relocs]
    exact L.linked.calls_eq 0
  call_iff n := by
    constructor
    · rintro ⟨d, h⟩
      obtain ⟨name, kind, hc, hr⟩ := L.completed_of_fetch h rfl
      cases hc
      exact ⟨_, hr, rfl, rfl⟩
    · rintro ⟨r, hr, hoff, hkind⟩
      obtain ⟨m, i, hoff', -, h, hc⟩ := L.completed_of_mem hr
      obtain rfl : n = m := by omega
      rw [hkind] at hc
      cases hc
      exact ⟨0, h⟩
  call n d h := by
    obtain ⟨name, kind, hc, -⟩ := L.completed_of_fetch h rfl
    cases hc
    rfl
  page_iff n := by
    constructor
    · rintro ⟨rd, pages, h⟩
      obtain ⟨name, kind, hc, hr⟩ := L.completed_of_fetch h rfl
      cases hc
      exact ⟨_, hr, rfl, rfl⟩
    · rintro ⟨r, hr, hoff, hkind⟩
      obtain ⟨m, i, hoff', -, h, hc⟩ := L.completed_of_mem hr
      obtain rfl : n = m := by omega
      rw [hkind] at hc
      cases hc
      exact ⟨_, 0, h⟩
  page n rd pages h := by
    obtain ⟨name, kind, hc, hr⟩ := L.completed_of_fetch h rfl
    cases hc with
    | page hnext =>
      exact ⟨rfl, L.fetch_completed hnext rfl, name, hr, L.mem_relocs.mpr ⟨_, _, _, _, hnext, rfl, rfl⟩⟩
  pageOffset r hr hkind := by
    obtain ⟨m, i, hoff, -, -, hc⟩ := L.completed_of_mem hr
    rw [hkind] at hc
    cases hc with
    | pageOffset hlast => exact ⟨_, hoff, L.mem_relocs.mpr ⟨_, _, _, _, hlast, rfl, rfl⟩⟩

end Listing

/-- The relocations of generated code are those of its calls and addresses. -/
theorem generate_relocates {f : Func} {types : TypeTable} {a : Allocation} {e : Emitted}
    (h : generate f types a = .ok e) : Relocated (wordsOfBytes e.code) e.relocs
      (a.layout.flatMap fun b => (f.block b).values.flatMap f.calls) := by
  obtain ⟨L, hrelocs⟩ := exists_listing h
  rw [hrelocs]
  exact L.relocated

/-- Calls a function with the address of a table, and another one with its result. -/
def twoCalls : Ir.Func where
  name := "twoCalls"
  params := []
  result := TypeId.i64
  locals := #[]
  blocks := #[⟨"entry", [0, 1, 2], some (.ret (some 2))⟩]
  nodes := #[⟨TypeId.ptr, .global "table"⟩, ⟨TypeId.i64, .call "first" [0] 1⟩, ⟨TypeId.i64, .call "second" [1] 1⟩]

theorem twoCalls_relocates : ∃ built a g e, buildSsa twoCalls .builtins = .ok built ∧
    allocate built.func.splitCriticalEdges .builtins (RegSet.firstN 4) = .ok (a, g) ∧
    generate g .builtins a = .ok e ∧ e.relocs.map (·.kind) = [.page, .pageOffset, .call, .call] ∧
    Relocated (wordsOfBytes e.code) e.relocs ["first", "second"] := by
  have hok : ((buildSsa twoCalls .builtins).toOption.any fun built =>
      (allocate built.func.splitCriticalEdges .builtins (RegSet.firstN 4)).toOption.any fun r =>
        (generate r.2 .builtins r.1).toOption.any fun e =>
          e.relocs.map (·.kind) == [.page, .pageOffset, .call, .call] &&
          (r.1.layout.flatMap fun b => (r.2.block b).values.flatMap r.2.calls) == ["first", "second"]) := by
    decide +kernel
  obtain ⟨built, hbuilt, h⟩ := exists_ok_of_any hok
  obtain ⟨⟨a, g⟩, h, hg⟩ := exists_ok_of_any h
  obtain ⟨e, he, hcheck⟩ := exists_ok_of_any hg
  obtain ⟨hkinds, hcalls⟩ := Bool.and_eq_true_iff.mp hcheck
  refine ⟨built, a, g, e, hbuilt, h, he, beq_iff_eq.mp hkinds, ?_⟩
  rw [← beq_iff_eq.mp hcalls]
  exact generate_relocates he

end SsaCodegen
