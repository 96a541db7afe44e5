import Mathlib.Data.Int.ModEq
import Mathlib.Data.List.Forall2
import Mathlib.Data.Nat.Digits.Defs
import SsaCodegen.Proofs.Stateful
import SsaCodegen.Source.Reader

/-! Integer literals. A literal of any length is refused exactly if its number does not fit. The sign comes
last: a number below the lowest one of 64 bits wraps around. -/

namespace SsaCodegen

open List Text

/-- `m` is the number that the digits `ds` stand for in a base. -/
def Text.Denotes (base : Nat) (ds : List Char) (m : Nat) : Prop :=
  ds ≠ [] ∧ ∃ vs, Forall₂ (fun c v => digitValue? base c = some v) ds vs ∧ m = Nat.ofDigits base vs.reverse

namespace Source

/-- `m` is the number of a literal without its sign. Underscores count for nothing, wherever they are. -/
inductive Magnitude (text : List Char) (m : Nat) : Prop
  | decimal (digits : Denotes 10 (text.filter (· ≠ '_')) m)
  | hexadecimal {x : Char} {ds : List Char} (split : text.filter (· ≠ '_') = '0' :: x :: ds)
      (mark : x = 'x' ∨ x = 'X') (digits : Denotes 16 ds m)

/-- `n` is the number of a literal. -/
def Literal (negative : Bool) (text : List Char) (n : Int) : Prop :=
  ∃ m : Nat, Magnitude text m ∧ n = if negative then -(m : Int) else m

variable {base limit acc m : Nat} {cs text tail : List Char} {s : State} {c : Char}

theorem readDigits_eq_ok (hbase : 0 < base) (hacc : acc < limit) :
    readDigits base limit acc cs = .ok m ↔ ∃ vs, Forall₂ (fun c v => digitValue? base c = some v) cs vs ∧
      m = acc * base ^ vs.length + Nat.ofDigits base vs.reverse ∧ m < limit := by
  induction cs generalizing acc with
  | nil =>
    rw [readDigits]
    constructor
    · intro h
      obtain rfl := Except.ok.inj h
      exact ⟨[], .nil, by simp, hacc⟩
    · rintro ⟨_, ⟨⟩, rfl, -⟩
      simp
  | cons c cs ih =>
    have hnext : ∀ (v : Nat) (vs : List Nat), acc * base ^ (v :: vs).length + Nat.ofDigits base (v :: vs).reverse =
          (acc * base + v) * base ^ vs.length + Nat.ofDigits base vs.reverse := by
      intro v vs
      rw [reverse_cons, Nat.ofDigits_append, Nat.ofDigits_singleton, length_reverse, length_cons]
      ring
    rw [readDigits]
    cases hv : digitValue? base c with
    | none =>
      constructor
      · intro h
        cases h
      · rintro ⟨_, hvs, -⟩
        obtain ⟨v, _, hv', -⟩ := forall₂_cons_left_iff.mp hvs
        cases hv.symm.trans hv'
    | some v =>
      have hcons : ∀ vs, Forall₂ (fun c v => digitValue? base c = some v) (c :: cs) vs →
          ∃ ws, Forall₂ (fun c v => digitValue? base c = some v) cs ws ∧ vs = v :: ws := by
        intro vs hvs
        obtain ⟨v', ws, hv', hws, rfl⟩ := forall₂_cons_left_iff.mp hvs
        obtain rfl := Option.some.inj (hv.symm.trans hv')
        exact ⟨ws, hws, rfl⟩
      dsimp only
      split
      · next hlt =>
        rw [ih hlt]
        constructor
        · rintro ⟨vs, hvs, rfl, hm⟩
          exact ⟨v :: vs, .cons hv hvs, (hnext v vs).symm, hm⟩
        · rintro ⟨_, hvs, rfl, hm⟩
          obtain ⟨ws, hws, rfl⟩ := hcons _ hvs
          exact ⟨ws, hws, hnext v ws, hm⟩
      · next hge =>
        constructor
        · intro h
          cases h
        · rintro ⟨_, hvs, rfl, hm⟩
          obtain ⟨ws, -, rfl⟩ := hcons _ hvs
          rw [hnext] at hm
          have hgrow : acc * base + v ≤ (acc * base + v) * base ^ ws.length :=
            Nat.le_mul_of_pos_right _ (Nat.pow_pos hbase)
          omega

theorem readUnsigned_eq_ok (hbase : 0 < base) (hlimit : 0 < limit) :
    readUnsigned base limit cs = .ok m ↔ Denotes base cs m ∧ m < limit := by
  cases cs with
  | nil =>
    constructor
    · intro h
      cases h
    · exact fun h => absurd rfl h.1.1
  | cons c cs =>
    rw [readUnsigned, readDigits_eq_ok hbase hlimit, Denotes, and_iff_right (cons_ne_nil c cs)]
    · simp only [Nat.zero_mul, Nat.zero_add, ← and_assoc, exists_and_right]
    · exact cons_ne_nil c cs

/-- A literal is hexadecimal if it starts so, since neither mark is a decimal digit. -/
theorem magnitude_iff_of_mark {x : Char} (h : text.filter (· ≠ '_') = '0' :: x :: cs) (hx : x = 'x' ∨ x = 'X') :
    Magnitude text m ↔ Denotes 16 cs m := by
  constructor
  · rintro (⟨-, vs, hvs, -⟩ | ⟨hsplit, -, hds⟩)
    · rw [h] at hvs
      obtain ⟨_, _, -, hvs, -⟩ := forall₂_cons_left_iff.mp hvs
      obtain ⟨v, _, hv, -⟩ := forall₂_cons_left_iff.mp hvs
      rcases hx with rfl | rfl <;> cases hv
    · obtain ⟨-, rfl⟩ := cons.inj (cons.inj (h.symm.trans hsplit)).2
      exact hds
  · exact .hexadecimal h hx

theorem readMagnitude_eq_ok :
    readMagnitude (text.filter (· ≠ '_')) = .ok m ↔ Magnitude text m ∧ m < 0x10000000000000000 := by
  generalize hds : text.filter (· ≠ '_') = ds
  rw [readMagnitude.eq_def]
  split
  · rw [readUnsigned_eq_ok (by decide) (by decide), magnitude_iff_of_mark hds (.inl rfl)]
  · rw [readUnsigned_eq_ok (by decide) (by decide), magnitude_iff_of_mark hds (.inr rfl)]
  · next hx hX =>
    rw [readUnsigned_eq_ok (by decide) (by decide)]
    refine and_congr_left fun _ => ⟨fun h => .decimal (hds ▸ h), ?_⟩
    rintro (h | ⟨hsplit, rfl | rfl, -⟩)
    · exact hds ▸ h
    · exact (hx _ (hds.symm.trans hsplit)).elim
    · exact (hX _ (hds.symm.trans hsplit)).elim

theorem runs_skip {newlines : Bool} (h : ∀ c ∈ s.rest.head?, isBlank c = false ∧ c ≠ '\n' ∧ c ≠ ';') :
    Runs (skip newlines) s ⟨⟩ s := by
  refine runs_modify.mpr ?_
  have hskip : skipBlanks newlines false s.rest s.line = (s.rest, s.line) := by
    cases hrest : s.rest with
    | nil => rfl
    | cons c cs =>
      obtain ⟨hblank, hline, hcomment⟩ := h c (by rw [hrest]; rfl)
      simp [skipBlanks, hblank, hline, hcomment]
  simp only [hskip]

theorem of_isLiteralChar (h : isLiteralChar c) : isBlank c = false ∧ c ≠ '\n' ∧ c ≠ ';' ∧ c ≠ '-' := by
  have hbounds : 48 ≤ c.toNat ∧ c.toNat < 123 ∧ c.toNat ≠ 59 := by
    have hval : c.val.toNat = c.toNat := rfl
    change ((decide (c.val ≥ 65 ∧ c.val ≤ 90) || (decide (c.val ≥ 97) && decide (c.val ≤ 122)) ||
      (decide (c.val ≥ 48) && decide (c.val ≤ 57))) || decide (c = '_')) = true at h
    simp only [Bool.or_eq_true, Bool.and_eq_true, decide_eq_true_eq, UInt32.le_iff_toNat_le, UInt32.reduceToNat,
      ge_iff_le, hval] at h
    rcases h with ((h | h) | h) | rfl
    · omega
    · omega
    · omega
    · decide
  have hblank : ∀ n < 123, 48 ≤ n → inRuns n blankRuns = false := by decide
  refine ⟨hblank c.toNat hbounds.2.1 hbounds.1, ?_, ?_, ?_⟩ <;> rintro rfl <;> revert hbounds <;> decide

theorem runs_bind_of {σ ε α β : Type} {m : StateT σ (Except ε) α} {f : α → StateT σ (Except ε) β} {s s' s'' : σ}
    {a : α} {b : β} (h : Runs m s a s') : Runs (m >>= f) s b s'' ↔ Runs (f a) s' b s'' := by
  rw [runs_bind]
  constructor
  · rintro ⟨a', t, hm, hf⟩
    obtain ⟨rfl, rfl⟩ := Prod.mk.inj (Except.ok.inj (hm.symm.trans h))
    exact hf
  · exact fun hf => ⟨a, s', h, hf⟩

section

variable {negative : Bool} (hrest : s.rest = (if negative then ['-'] else []) ++ text ++ tail)
  (htext : ∀ c ∈ text, isLiteralChar c)
  (hend : ∀ c ∈ tail.head?, isLiteralChar c = false ∧ (text = [] → isBlank c = false ∧ c ≠ '\n' ∧ c ≠ ';' ∧ c ≠ '-'))

include htext hend

theorem head_literal : ∀ c ∈ (text ++ tail).head?, isBlank c = false ∧ c ≠ '\n' ∧ c ≠ ';' ∧ c ≠ '-' := by
  cases text with
  | nil => exact fun c hc => (hend c hc).2 rfl
  | cons d ds =>
    rintro c ⟨⟩
    exact of_isLiteralChar (htext d mem_cons_self)

theorem takeRun_literal : (text ++ tail).takeWhile isLiteralChar = text ∧
    (text ++ tail).dropWhile isLiteralChar = tail := by
  rw [takeWhile_append_of_pos htext, dropWhile_append_of_pos htext]
  cases tail with
  | nil => exact ⟨append_nil _, rfl⟩
  | cons c cs =>
    have hc := (hend c rfl).1
    rw [takeWhile_cons, dropWhile_cons, hc]
    exact ⟨append_nil _, rfl⟩

include hrest

theorem runs_tryRead_sign : Runs (tryRead '-') s negative { s with rest := text ++ tail } := by
  have hhead := head_literal htext hend
  have hskip : Runs (skip true) s ⟨⟩ s := by
    refine runs_skip fun c hc => ?_
    rw [hrest] at hc
    cases negative with
    | false =>
      obtain ⟨hblank, hline, hcomment, -⟩ := hhead c hc
      exact ⟨hblank, hline, hcomment⟩
    | true =>
      obtain rfl := Option.some.inj hc
      decide
  have hcurrent : Runs current s s.rest.head? s := rfl
  rw [tryRead, runs_bind_of hskip, accept, runs_bind_of hcurrent]
  cases negative with
  | false =>
    have hne : ¬(s.rest.head? == some '-') := by
      rw [beq_iff_eq, hrest]
      exact fun hc => (hhead '-' hc).2.2.2 rfl
    rw [if_neg hne]
    exact runs_pure.mpr ⟨rfl, by rw [show text ++ tail = s.rest from hrest.symm]⟩
  | true =>
    rw [hrest]
    exact congrArg (fun r => Except.ok (true, { s with rest := r.drop 1 })) hrest

theorem runs_readInteger {i : Int} {s' : State} : Runs readInteger s i s' ↔ ∃ m,
    (Magnitude text m ∧ m < 0x10000000000000000) ∧ i = literalValue negative m ∧ s' = { s with rest := tail } := by
  have hskip : Runs (skip false) { s with rest := text ++ tail } ⟨⟩ { s with rest := text ++ tail } := by
    refine runs_skip fun c hc => ?_
    obtain ⟨hblank, hline, hcomment, -⟩ := head_literal htext hend c hc
    exact ⟨hblank, hline, hcomment⟩
  obtain ⟨htake, hdrop⟩ := takeRun_literal htext hend
  have hrun : Runs (takeRun isLiteralChar) { s with rest := text ++ tail } text { s with rest := tail } :=
    runs_modifyGet.mpr (by rw [htake, hdrop])
  rw [readInteger, runs_bind_of (runs_tryRead_sign hrest htext hend), runs_bind_of hskip, runs_bind_of hrun]
  dsimp only
  cases hm : readMagnitude (text.filter (· ≠ '_')) with
  | error cause =>
    constructor
    · intro h
      cases h
    · rintro ⟨m, hmag, -⟩
      cases hm.symm.trans (readMagnitude_eq_ok.mpr hmag)
  | ok m =>
    refine runs_pure.trans ⟨fun h => ⟨m, readMagnitude_eq_ok.mp hm, h⟩, ?_⟩
    rintro ⟨m', hmag, h⟩
    obtain rfl := Except.ok.inj (hm.symm.trans (readMagnitude_eq_ok.mpr hmag))
    exact h

end

/-- A literal is read exactly if its number without the sign fits into 64 bits, and the result is the signed
64-bit number that is congruent to its number. -/
theorem readInteger_reads_modulo {negative : Bool}
    (hrest : s.rest = (if negative then ['-'] else []) ++ text ++ tail) (htext : ∀ c ∈ text, isLiteralChar c)
    (hend : ∀ c ∈ tail.head?, isLiteralChar c = false ∧
      (text = [] → isBlank c = false ∧ c ≠ '\n' ∧ c ≠ ';' ∧ c ≠ '-')) :
    ((∃ i s', Runs readInteger s i s') ↔ ∃ n, Literal negative text n ∧ -2 ^ 64 < n ∧ n < 2 ^ 64) ∧
    ∀ i s', Runs readInteger s i s' → s' = { s with rest := tail } ∧ -2 ^ 63 ≤ i ∧ i < 2 ^ 63 ∧
      ∃ n, Literal negative text n ∧ i ≡ n [ZMOD 2 ^ 64] := by
  have hruns := @runs_readInteger _ _ _ negative hrest htext hend
  have hrange : ∀ m : Nat, (-2 ^ 64 < (if negative then -(m : Int) else m) ∧
      (if negative then -(m : Int) else m) < 2 ^ 64) ↔ m < 0x10000000000000000 := by
    intro m
    split <;> omega
  refine ⟨⟨?_, ?_⟩, fun i s' h => ?_⟩
  · rintro ⟨i, s', h⟩
    obtain ⟨m, ⟨hmag, hlt⟩, -⟩ := hruns.mp h
    exact ⟨_, ⟨m, hmag, rfl⟩, (hrange m).mpr hlt⟩
  · rintro ⟨_, ⟨m, hmag, rfl⟩, hfit⟩
    exact ⟨_, _, hruns.mpr ⟨m, ⟨hmag, (hrange m).mp hfit⟩, rfl, rfl⟩⟩
  · obtain ⟨m, ⟨hmag, -⟩, rfl, rfl⟩ := hruns.mp h
    have hmod := Int.bmod_emod (x := if negative then -(m : Int) else m) (m := 0x10000000000000000)
    exact ⟨rfl, Int.le_bmod (by decide), Int.bmod_lt (by decide), _, ⟨m, hmag, rfl⟩, hmod⟩

/-- A reader at the start of a text. -/
def reading (text : List Char) : State where
  rest := text
  line := 1
  types := .builtins
  func := ""
  builder := .new "" [] TypeId.void
  labelled := []
  values := []

theorem lowestLiteral_reads_modulo : ∃ i s',
    Runs readInteger (reading "-0X8000_0000_0000_0000)".toList) i s' ∧ s' = reading [')'] ∧
      ∃ n, Literal true "0X8000_0000_0000_0000".toList n ∧ i ≡ n [ZMOD 2 ^ 64] := by
  have hend : ∀ c ∈ [')'].head?, isLiteralChar c = false ∧ ("0X8000_0000_0000_0000".toList = [] →
      isBlank c = false ∧ c ≠ '\n' ∧ c ≠ ';' ∧ c ≠ '-') := by
    intro c hc
    obtain rfl := Option.some.inj hc
    decide +kernel
  obtain ⟨hiff, hresult⟩ := @readInteger_reads_modulo "0X8000_0000_0000_0000".toList [')']
    (reading "-0X8000_0000_0000_0000)".toList) true rfl (List.all_eq_true.mp (by decide +kernel)) hend
  have hread : readMagnitude ("0X8000_0000_0000_0000".toList.filter (· ≠ '_')) = .ok 0x8000000000000000 := by
    decide +kernel
  obtain ⟨i, s', h⟩ := hiff.mpr ⟨_, ⟨_, (readMagnitude_eq_ok.mp hread).1, rfl⟩, by decide, by decide⟩
  obtain ⟨hs, -, -, hn⟩ := hresult i s' h
  exact ⟨i, s', h, hs, hn⟩

/-- One below the lowest number of 64 bits is read as the highest signed one. -/
theorem tooLowLiteral_wraps : Literal true "9223372036854775809".toList (-2 ^ 63 - 1) ∧
    Runs readInteger (reading "-9223372036854775809".toList) (2 ^ 63 - 1) (reading []) := by
  have hread : readMagnitude ("9223372036854775809".toList.filter (· ≠ '_')) = .ok 0x8000000000000001 := by
    decide +kernel
  exact ⟨⟨_, (readMagnitude_eq_ok.mp hread).1, by decide⟩, rfl⟩

end Source

end SsaCodegen
