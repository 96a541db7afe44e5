import Mathlib.Data.List.Pairwise
import SsaCodegen.Convention
import SsaCodegen.Proofs.Frame

/-! Where arguments are passed. Registers and stack words are handed out upwards. -/

namespace SsaCodegen

open List Placement

namespace Placement

variable {p : Placement} {r : Reg} {first first' low low' high high' : Nat} {role : ArgRole}

theorem regs_of_reg (h : p.reg = some r) : p.regs = (List.range p.words).map fun i => Fin.ofNat 32 (r.val + i) := by
  rw [regs, h]

theorem mem_regs (h : p.reg = some r) (hle : r.val + p.words ≤ 32) (x : Reg) :
    x ∈ p.regs ↔ r.val ≤ x.val ∧ x.val < r.val + p.words := by
  rw [regs_of_reg h, mem_map]
  constructor
  · rintro ⟨i, hi, rfl⟩
    rw [mem_range] at hi
    have hval : (Fin.ofNat 32 (r.val + i)).val = r.val + i := Nat.mod_eq_of_lt (by omega)
    omega
  · intro hx
    refine ⟨x.val - r.val, mem_range.mpr (by omega), Fin.ext ?_⟩
    change (r.val + (x.val - r.val)) % 32 = x.val
    rw [Nat.mod_eq_of_lt] <;> omega

theorem words_ofSize_pos (size align : Nat) : 0 < (ofSize size align).words :=
  Nat.lt_of_lt_of_le Nat.zero_lt_one (Nat.le_max_right _ _)

/-- The places that an argument may have, given the first argument register and the part of the stack that are
free for it. -/
inductive Within (first low high : Nat) (p : Placement) : ArgRole → Prop
  | indirect (hreg : p.reg = some Reg.x8) (hstack : p.stack = none) : p.Within first low high .structReturn
  | regs (r : Reg) (hreg : p.reg = some r) (hstack : p.stack = none) (hfirst : first ≤ r.val)
    (hlast : r.val + p.words ≤ argRegs.length) : p.Within first low high .plain
  | stack (o : Nat) {role : ArgRole} (hrole : role ≠ .structReturn) (hreg : p.reg = none)
    (hstack : p.stack = some o) (hword : wordSize ∣ o) (hwide : 2 ≤ p.words → stackAlign ∣ o)
    (hlow : low ≤ o) (hhigh : o + p.words * wordSize ≤ high) : p.Within first low high role

theorem Within.mono (h : p.Within first low high role) (hfirst : first' ≤ first) (hlow : low' ≤ low)
    (hhigh : high ≤ high') : p.Within first' low' high' role := by
  cases h with
  | indirect hreg hstack => exact .indirect hreg hstack
  | regs r hreg hstack hle hlast => exact .regs r hreg hstack (hfirst.trans hle) hlast
  | stack o hrole hreg hstack hword hwide hle hend =>
    exact .stack o hrole hreg hstack hword hwide (hlow.trans hle) (hend.trans hhigh)

theorem Within.val_of_mem (h : p.Within first low high role) (hone : role = .structReturn → p.words = 1)
    {x : Reg} (hx : x ∈ p.regs) : ∃ r, p.reg = some r ∧ r.val ≤ x.val ∧ x.val < r.val + p.words ∧
      (role = .structReturn ∧ r.val = 8 ∨ role = .plain ∧ r.val + p.words ≤ 8) := by
  cases h with
  | indirect hreg _ =>
    have hfit : Reg.x8.val + p.words ≤ 32 := hone rfl ▸ (by decide)
    obtain ⟨hle, hlt⟩ := (mem_regs hreg hfit x).mp hx
    exact ⟨_, hreg, hle, hlt, .inl ⟨rfl, rfl⟩⟩
  | regs r hreg _ _ hlast =>
    obtain ⟨hle, hlt⟩ := (mem_regs hreg (hlast.trans (by decide)) x).mp hx
    exact ⟨r, hreg, hle, hlt, .inr ⟨rfl, hlast⟩⟩
  | stack _ _ hreg =>
    rw [Placement.regs, hreg] at hx
    cases hx

end Placement

/-- What an argument says about a later one: the later one is further up, and on the stack if the earlier one
had to go there. -/
structure Earlier (x y : ArgRole × Placement) : Prop where
  stack : ∀ o o', x.2.stack = some o → y.2.stack = some o' → o + x.2.words * wordSize ≤ o'
  regs : x.1 = .plain → y.1 = .plain → ∀ r r', x.2.reg = some r → y.2.reg = some r' → r.val + x.2.words ≤ r'.val
  full : x.1 = .plain → y.1 = .plain → x.2.reg = none → y.2.reg = none

theorem getElem?_argRegs {i : Nat} (hi : i < 8) : ∃ r, argRegs[i]? = some r ∧ r.val = i := by
  have hall : ∀ i : Fin 8, ∃ r, argRegs[i.val]? = some r ∧ r.val = i.val := by decide
  exact hall ⟨i, hi⟩

namespace Assigner

variable {a : Assigner} {p : Placement} {role : ArgRole}

/-- Assigns arguments, given by role, size and alignment, in order. -/
def assignAll : Assigner → List (ArgRole × Nat × Nat) → List (ArgRole × Placement) × Assigner
  | a, [] => ([], a)
  | a, (role, size, align) :: rest =>
    let (p, a) := a.assignArg role (.ofSize size align)
    let (ps, a) := a.assignAll rest
    ((role, p) :: ps, a)

theorem assignArg_cases (a : Assigner) (role : ArgRole) (hp : 0 < p.words) :
    role = .structReturn ∧ a.assignArg role p = ({ p with reg := some Reg.x8, stack := none }, a) ∨
    role = .plain ∧ (∃ r : Reg, r.val = a.args ∧ a.args + p.words ≤ argRegs.length ∧
      a.assignArg role p = ({ p with reg := some r, stack := none }, { a with args := a.args + p.words })) ∨
    ∃ args o, (role = .plain ∧ args = argRegs.length ∨ role = .variadic ∧ args = a.args) ∧ a.stack ≤ o ∧
      wordSize ∣ o ∧ (2 ≤ p.words → stackAlign ∣ o) ∧ a.assignArg role p =
        ({ p with reg := none, stack := some o }, { a with args, stack := o + p.words * wordSize }) := by
  obtain ⟨hdvd, hle⟩ := (isLeast_alignTo a.stack (k := if 2 ≤ p.words then stackAlign else wordSize) (by
    split
    exacts [⟨4, rfl⟩, ⟨3, rfl⟩])).1
  have hword : wordSize ∣ alignTo a.stack (if 2 ≤ p.words then stackAlign else wordSize) := by
    refine Nat.dvd_trans ?_ hdvd
    split <;> decide
  have hwide : 2 ≤ p.words → stackAlign ∣ alignTo a.stack (if 2 ≤ p.words then stackAlign else wordSize) :=
    fun h => by
      rw [if_pos h]
      exact (alignTo_stackAlign _).1
  cases role with
  | structReturn => exact .inl ⟨rfl, rfl⟩
  | variadic => exact .inr (.inr ⟨a.args, _, .inr ⟨rfl, rfl⟩, hle, hword, hwide, rfl⟩)
  | plain =>
    right
    rw [assignArg]
    split
    · next hfit =>
      obtain ⟨r, hreg, hr⟩ := getElem?_argRegs ((Nat.lt_add_of_pos_right hp).trans_le hfit)
      exact .inl ⟨rfl, r, hr, hfit, by rw [hreg]⟩
    · exact .inr ⟨_, _, .inl ⟨rfl, rfl⟩, hle, hword, hwide, rfl⟩

/-- An argument gets a place past all others, and all that is handed out later lies past that. -/
theorem assignArg_earlier (role : ArgRole) (ha : a.args ≤ argRegs.length) (hp : 0 < p.words) :
    let r := a.assignArg role p
    (r.1.size = p.size ∧ r.1.align = p.align ∧ r.1.words = p.words) ∧
      (a.args ≤ r.2.args ∧ r.2.args ≤ argRegs.length ∧ a.stack ≤ r.2.stack) ∧
      r.1.Within a.args a.stack r.2.stack role ∧
      ∀ (role' : ArgRole) (q : Placement) (high : Nat), 0 < q.words →
        q.Within r.2.args r.2.stack high role' → Earlier (role, r.1) (role', q) := by
  rcases a.assignArg_cases role hp with ⟨rfl, heq⟩ | ⟨rfl, r, hr, hfit, heq⟩ |
    ⟨args, o, hrole, hle, hword, hwide, heq⟩
  · exact ⟨⟨rfl, rfl, rfl⟩, ⟨Nat.le_refl _, ha, Nat.le_refl _⟩, .indirect rfl rfl,
      fun role' q high hq hwithin => ⟨by rintro _ _ ⟨⟩, by rintro ⟨⟩, by rintro ⟨⟩⟩⟩
  · rw [heq]
    refine ⟨⟨rfl, rfl, rfl⟩, ⟨Nat.le_add_right _ _, hfit, Nat.le_refl _⟩,
      .regs r rfl rfl (Nat.le_of_eq hr.symm) (hr ▸ hfit), fun role' q high hq hwithin =>
        ⟨by rintro _ _ ⟨⟩, ?_, by rintro - - ⟨⟩⟩⟩
    rintro - rfl _ r' ⟨⟩ hr'
    cases hwithin with
    | regs r'' hreg _ hfirst _ =>
      cases hr'.symm.trans hreg
      exact hr ▸ hfirst
    | stack o _ hreg => cases hr'.symm.trans hreg
  · rw [heq]
    have hargs : a.args ≤ args ∧ args ≤ argRegs.length := by
      rcases hrole with ⟨-, rfl⟩ | ⟨-, rfl⟩
      · exact ⟨ha, Nat.le_refl _⟩
      · exact ⟨Nat.le_refl _, ha⟩
    refine ⟨⟨rfl, rfl, rfl⟩, ⟨hargs.1, hargs.2, Nat.le_trans hle (Nat.le_add_right _ _)⟩,
      .stack o ?_ rfl rfl hword hwide hle (Nat.le_refl _),
      fun role' q high hq hwithin => ⟨?_, by rintro - - _ _ ⟨⟩, ?_⟩⟩
    · rcases hrole with ⟨rfl, -⟩ | ⟨rfl, -⟩ <;> decide
    · rintro _ o' ⟨⟩ ho'
      cases hwithin with
      | indirect _ hstack => cases ho'.symm.trans hstack
      | regs _ _ hstack => cases ho'.symm.trans hstack
      | stack o'' _ _ hstack _ _ hlow _ =>
        cases ho'.symm.trans hstack
        exact hlow
    · rintro hplain rfl -
      cases hwithin with
      | regs r _ _ hfirst hlast =>
        -- no argument register is left
        rcases hrole with ⟨-, rfl⟩ | ⟨hvariadic, -⟩
        · exact absurd (Nat.le_trans (Nat.add_lt_add_of_le_of_lt hfirst hq) hlast) (Nat.lt_irrefl _)
        · cases hplain.symm.trans hvariadic
      | stack _ _ hreg => exact hreg

theorem assignAll_cons (a : Assigner) (role : ArgRole) (size align : Nat) (rest : List (ArgRole × Nat × Nat)) :
    a.assignAll ((role, size, align) :: rest) = ((role, (a.assignArg role (.ofSize size align)).1) ::
          ((a.assignArg role (.ofSize size align)).2.assignAll rest).1,
        ((a.assignArg role (.ofSize size align)).2.assignAll rest).2) := rfl

theorem assignAll_spec (args : List (ArgRole × Nat × Nat)) : ∀ {a : Assigner}, a.args ≤ argRegs.length →
    (a.assignAll args).1.map (fun x => (x.1, x.2.size, x.2.align)) = args ∧
      a.stack ≤ (a.assignAll args).2.stack ∧ (a.assignAll args).1.Pairwise Earlier ∧
      ∀ x ∈ (a.assignAll args).1, x.2.words = (ofSize x.2.size x.2.align).words ∧
        x.2.Within a.args a.stack (a.assignAll args).2.stack x.1 := by
  induction args with
  | nil => exact fun _ => ⟨rfl, le_rfl, .nil, forall_mem_nil _⟩
  | cons arg args ih =>
    intro a ha
    obtain ⟨role, size, align⟩ := arg
    obtain ⟨⟨hsize, halign, hwords⟩, ⟨hargs, ha', hstack⟩, hwithin, hlater⟩ :=
      a.assignArg_earlier role ha (words_ofSize_pos size align)
    obtain ⟨hmap, hstack', hpairs, hall⟩ := ih ha'
    rw [assignAll_cons]
    refine ⟨?_, hstack.trans hstack', .cons (fun x hx => ?_) hpairs, fun x hx => ?_⟩
    · rw [map_cons, hmap, hsize, halign]
      rfl
    · obtain ⟨hw, hx'⟩ := hall x hx
      exact hlater x.1 x.2 _ (hw ▸ words_ofSize_pos _ _) hx'
    · rcases mem_cons.mp hx with rfl | hx
      · exact ⟨hwords.trans (by rw [hsize]; rfl), hwithin.mono le_rfl le_rfl hstack'⟩
      · exact ⟨(hall x hx).1, (hall x hx).2.mono hargs hstack le_rfl⟩

/-- The address of an indirect result takes nothing from the other arguments. -/
theorem assignAll_filter (args : List (ArgRole × Nat × Nat)) : ∀ a : Assigner,
    a.assignAll (args.filter (·.1 ≠ .structReturn)) =
      ((a.assignAll args).1.filter (·.1 ≠ .structReturn), (a.assignAll args).2) := by
  induction args with
  | nil => exact fun _ => rfl
  | cons arg args ih =>
    intro a
    obtain ⟨role, size, align⟩ := arg
    cases role with
    | structReturn => exact ih a
    | plain | variadic =>
      rw [filter_cons_of_pos (by rfl), assignAll_cons, ih]
      rfl

/-- Every argument is passed whole, in registers or on the stack, and apart from the others. -/
theorem assignAll_apart (args : List (ArgRole × Nat × Nat))
    (honce : args.Pairwise fun x y => ¬(x.1 = .structReturn ∧ y.1 = .structReturn))
    (hone : ∀ x ∈ args, x.1 = .structReturn → x.2.1 ≤ wordSize) :
    let r := new.assignAll args
    r.1.map (fun x => (x.1, x.2.size, x.2.align)) = args ∧
      (∀ x ∈ r.1, x.2.words = (Placement.ofSize x.2.size x.2.align).words ∧ x.2.Within 0 0 r.2.stackSize x.1) ∧
      r.1.Pairwise (fun x y => Earlier x y ∧ x.2.regs.Disjoint y.2.regs) ∧
      new.assignAll (args.filter (·.1 ≠ .structReturn)) = (r.1.filter (·.1 ≠ .structReturn), r.2) ∧
      stackAlign ∣ r.2.stackSize := by
  intro r
  obtain ⟨hmap, -, hpairs, hall⟩ := assignAll_spec args (show new.args ≤ _ from Nat.zero_le _)
  refine ⟨hmap, fun x hx => ⟨(hall x hx).1, ?_⟩, ?_, assignAll_filter args new, (alignTo_stackAlign _).1⟩
  · exact (hall x hx).2.mono (Nat.le_refl _) (Nat.le_refl _) (alignTo_stackAlign _).2
  · have hargs : ∀ x ∈ r.1, (x.1, x.2.size, x.2.align) ∈ args := fun x hx => hmap ▸ mem_map_of_mem hx
    have hword : ∀ x ∈ r.1, x.1 = .structReturn → x.2.words = 1 := fun x hx hrole => by
      have hsize : x.2.size ≤ 8 := hone _ (hargs x hx) hrole
      rw [(hall x hx).1]
      exact Nat.max_eq_right (Nat.lt_succ_iff.mp (Nat.div_lt_of_lt_mul (Nat.add_lt_add_right
        (Nat.lt_succ_of_le hsize) 7)))
    rw [← hmap, pairwise_map] at honce
    refine (hpairs.and honce).imp_of_mem fun {x y} hx hy hxy => ⟨hxy.1, fun z hzx hzy => ?_⟩
    obtain ⟨r, hr, hle, hlt, hrole⟩ := (hall x hx).2.val_of_mem (hword x hx) hzx
    obtain ⟨r', hr', hle', hlt', hrole'⟩ := (hall y hy).2.val_of_mem (hword y hy) hzy
    rcases hrole with ⟨hrole, hval⟩ | ⟨hrole, hlast⟩ <;> rcases hrole' with ⟨hrole', hval'⟩ | ⟨hrole', hlast'⟩
    · exact hxy.2 ⟨hrole, hrole'⟩
    · omega
    · omega
    · have hahead := hxy.1.regs hrole hrole' r r' hr hr'
      omega

theorem assignAll_apart_mixed :
    (new.assignAll [(.plain, 48, 8), (.structReturn, 8, 8), (.plain, 24, 8), (.variadic, 4, 4), (.plain, 16, 16),
      (.plain, 1, 1)]).1.map (fun x => (x.2.regs, x.2.stack)) =
      [([0, 1, 2, 3, 4, 5], none), ([8], none), ([], some 0), ([], some 24), ([], some 32), ([], some 48)] ∧
    (new.assignAll [(.plain, 48, 8), (.structReturn, 8, 8), (.plain, 24, 8), (.variadic, 4, 4), (.plain, 16, 16),
      (.plain, 1, 1)]).1.Pairwise fun x y => Earlier x y ∧ x.2.regs.Disjoint y.2.regs :=
  ⟨by decide, (assignAll_apart _ (by decide) (by decide)).2.2.1⟩

end Assigner

end SsaCodegen
