import Mathlib.Tactic.Common

/-! Computations that change a state and may fail: their successful runs, and both outcomes. -/

namespace SsaCodegen

open List

section

variable {σ ε α β : Type} {u : PUnit} {a : α} {b : β} {l : List α} {bs : List β}

theorem except_bind_eq_ok {m : Except ε α} {f : α → Except ε β} : m >>= f = .ok b ↔ ∃ a, m = .ok a ∧ f a = .ok b := by
  cases m with
  | error e =>
    constructor
    · intro h
      cases h
    · rintro ⟨a, h, -⟩
      cases h
  | ok a =>
    constructor
    · intro h
      exact ⟨a, rfl, h⟩
    · rintro ⟨a', h, hf⟩
      cases h
      exact hf

theorem except_map_eq_ok {m : Except ε α} {g : α → β} : m.map g = .ok b ↔ ∃ a, m = .ok a ∧ g a = b := by
  cases m <;> simp [Except.map]

theorem except_mapError_eq_ok {m : Except ε α} {g : ε → β} : m.mapError g = .ok a ↔ m = .ok a := by
  cases m <;> simp [Except.mapError]

theorem forM_eq_ok {g : α → Except ε Unit} (xs : List α) : xs.forM g = .ok () ↔ ∀ x ∈ xs, g x = .ok () := by
  induction xs with
  | nil => exact ⟨fun _ x hx => absurd hx not_mem_nil, fun _ => rfl⟩
  | cons x xs ih =>
    rw [forall_mem_cons, ← ih]
    change (g x >>= fun _ => xs.forM g) = _ ↔ _
    rw [except_bind_eq_ok]
    constructor
    · rintro ⟨_, hx, hxs⟩
      exact ⟨hx, hxs⟩
    · rintro ⟨hx, hxs⟩
      exact ⟨_, hx, hxs⟩

theorem exists_ok_of_any {m : Except ε α} {p : α → Bool} (h : m.toOption.any p) : ∃ a, m = .ok a ∧ p a := by
  cases m with
  | error e => cases h
  | ok a => exact ⟨a, rfl, h⟩

def Runs (m : StateT σ (Except ε) α) (s : σ) (a : α) (s' : σ) : Prop := m.run s = .ok (a, s')

variable {m : StateT σ (Except ε) α} {s s' s'' : σ}

theorem runs_bind {f : α → StateT σ (Except ε) β} :
    Runs (m >>= f) s b s'' ↔ ∃ a s', Runs m s a s' ∧ Runs (f a) s' b s'' := by
  constructor
  · intro h
    change (m s >>= fun p => f p.1 p.2) = _ at h
    cases hm : m s with
    | error e =>
      rw [hm] at h
      cases h
    | ok p =>
      rw [hm] at h
      exact ⟨p.1, p.2, hm, h⟩
  · rintro ⟨a, s', hm, hf⟩
    change (m s >>= fun p => f p.1 p.2) = _
    change m s = _ at hm
    rw [hm]
    exact hf

theorem runs_pure {a b : α} : Runs (pure a : StateT σ (Except ε) α) s b s' ↔ b = a ∧ s' = s := by
  constructor
  · intro h
    cases h
    exact ⟨rfl, rfl⟩
  · rintro ⟨rfl, rfl⟩
    rfl

theorem runs_map {f : α → β} : Runs (f <$> m) s b s' ↔ ∃ a, Runs m s a s' ∧ b = f a := by
  rw [← bind_pure_comp, runs_bind]
  constructor
  · rintro ⟨a, t, hm, hp⟩
    obtain ⟨rfl, rfl⟩ := runs_pure.mp hp
    exact ⟨a, hm, rfl⟩
  · rintro ⟨a, hm, rfl⟩
    exact ⟨a, s', hm, runs_pure.mpr ⟨rfl, rfl⟩⟩

theorem runs_bind_pure {f : α → β} : Runs (m >>= fun a => pure (f a)) s b s' ↔ ∃ a, Runs m s a s' ∧ b = f a := by
  rw [bind_pure_comp, runs_map]

theorem runs_get {a : σ} : Runs (get : StateT σ (Except ε) σ) s a s' ↔ a = s ∧ s' = s := by
  constructor
  · intro h
    cases h
    exact ⟨rfl, rfl⟩
  · rintro ⟨rfl, rfl⟩
    rfl

theorem runs_get_bind {f : σ → StateT σ (Except ε) α} : Runs (get >>= f) s a s' ↔ Runs (f s) s a s' := by
  rw [runs_bind]
  constructor
  · rintro ⟨t, t', hget, hf⟩
    obtain ⟨rfl, rfl⟩ := runs_get.mp hget
    exact hf
  · intro hf
    exact ⟨s, s, runs_get.mpr ⟨rfl, rfl⟩, hf⟩

theorem runs_set {t : σ} : Runs (set t : StateT σ (Except ε) PUnit) s u s' ↔ s' = t := by
  constructor
  · intro h
    cases h
    rfl
  · rintro rfl
    rfl

theorem runs_modify {f : σ → σ} : Runs (modify f : StateT σ (Except ε) PUnit) s u s' ↔ s' = f s := by
  constructor
  · intro h
    cases h
    rfl
  · rintro rfl
    rfl

theorem runs_modifyGet {f : σ → α × σ} : Runs (modifyGet f : StateT σ (Except ε) α) s a s' ↔ f s = (a, s') := by
  constructor
  · intro h
    exact Except.ok.inj h
  · intro h
    change Except.ok (f s) = Except.ok (a, s')
    rw [h]

theorem runs_throw {e : ε} : Runs (throw e : StateT σ (Except ε) α) s a s' ↔ False := by
  constructor
  · intro h
    cases h
  · exact False.elim

theorem runs_liftM {m : Except ε α} : Runs (liftM m : StateT σ (Except ε) α) s a s' ↔ m = .ok a ∧ s' = s := by
  cases m with
  | error e =>
    constructor
    · intro h
      cases h
    · rintro ⟨h, -⟩
      cases h
  | ok b =>
    constructor
    · intro h
      cases h
      exact ⟨rfl, rfl⟩
    · rintro ⟨h, rfl⟩
      cases h
      rfl

theorem runs_ite {c : Prop} [Decidable c] {m n : StateT σ (Except ε) α} :
    Runs (if c then m else n) s a s' ↔ (c ∧ Runs m s a s') ∨ (¬c ∧ Runs n s a s') := by
  by_cases h : c
  · simp [h]
  · simp [h]

section Loops

variable {f : α → StateT σ (Except ε) PUnit}

theorem runs_forM_nil : Runs (([] : List α).forM f) s u s' ↔ s' = s := by
  rw [List.forM, runs_pure]
  exact ⟨And.right, fun h => ⟨rfl, h⟩⟩

theorem runs_forM_cons : Runs ((a :: l).forM f) s u s'' ↔ ∃ s', Runs (f a) s ⟨⟩ s' ∧ Runs (l.forM f) s' u s'' := by
  rw [List.forM, runs_bind]
  exact ⟨fun ⟨_, s', h⟩ => ⟨s', h⟩, fun ⟨s', h⟩ => ⟨⟨⟩, s', h⟩⟩

theorem runs_forM_append {l' : List α} :
    Runs ((l ++ l').forM f) s u s' ↔ ∃ t, Runs (l.forM f) s ⟨⟩ t ∧ Runs (l'.forM f) t u s' := by
  induction l generalizing s with
  | nil =>
    constructor
    · exact fun h => ⟨s, runs_forM_nil.mpr rfl, h⟩
    · rintro ⟨t, ht, h⟩
      rwa [runs_forM_nil.mp ht] at h
  | cons a l ih =>
    simp only [cons_append, runs_forM_cons, ih]
    constructor
    · rintro ⟨t, ha, t', hl, hl'⟩
      exact ⟨t', ⟨t, ha, hl⟩, hl'⟩
    · rintro ⟨t', ⟨t, ha, hl⟩, hl'⟩
      exact ⟨t, ha, t', hl, hl'⟩

/-- What holds at the start of a loop and is kept by every step holds at its end. The property may
speak of the elements that have been dealt with. -/
theorem runs_forM_invariant (I : List α → σ → Prop)
    (hstep : ∀ pre a post, l = pre ++ a :: post → ∀ t t', I pre t → Runs (f a) t ⟨⟩ t' →
      I (pre ++ [a]) t') (h0 : I [] s) (hrun : Runs (l.forM f) s u s') : I l s' := by
  have aux : ∀ (rest pre : List α) (t : σ), l = pre ++ rest → I pre t → Runs (rest.forM f) t u s' → I l s' := by
    intro rest
    induction rest with
    | nil =>
      intro pre t hl hI hr
      rw [runs_forM_nil.mp hr, hl, append_nil]
      exact hI
    | cons a rest ih =>
      intro pre t hl hI hr
      obtain ⟨t', ha, hrest⟩ := runs_forM_cons.mp hr
      exact ih (pre ++ [a]) t' (by rw [hl, append_assoc]; rfl) (hstep pre a rest hl t t' hI ha) hrest
  exact aux l [] s rfl h0 hrun

end Loops

theorem runs_mapM_nil {f : α → StateT σ (Except ε) β} : Runs (([] : List α).mapM f) s bs s' ↔ bs = [] ∧ s' = s := by
  rw [mapM_nil, runs_pure]

theorem runs_mapM_cons {f : α → StateT σ (Except ε) β} : Runs ((a :: l).mapM f) s bs s'' ↔
      ∃ b s' rest, Runs (f a) s b s' ∧ Runs (l.mapM f) s' rest s'' ∧ bs = b :: rest := by
  rw [mapM_cons, runs_bind]
  constructor
  · rintro ⟨b, s', ha, h⟩
    obtain ⟨rest, hl, rfl⟩ := runs_bind_pure.mp h
    exact ⟨b, s', rest, ha, hl, rfl⟩
  · rintro ⟨b, s', rest, ha, hl, rfl⟩
    exact ⟨b, s', ha, runs_bind.mpr ⟨rest, s'', hl, runs_pure.mpr ⟨rfl, rfl⟩⟩⟩

/-- What holds at the start of a fold and is kept by each step holds at its end. -/
theorem runs_foldlM_invariant {f : β → α → StateT σ (Except ε) β} {x y : β} (I : List α → β → σ → Prop)
    (hstep : ∀ pre a post, l = pre ++ a :: post → ∀ x x' t t', I pre x t → Runs (f x a) t x' t' →
      I (pre ++ [a]) x' t') (h0 : I [] x s) (hrun : Runs (l.foldlM f x) s y s') : I l y s' := by
  suffices aux : ∀ rest pre x s, l = pre ++ rest → I pre x s → Runs (rest.foldlM f x) s y s' → I l y s' from
    aux l [] x s rfl h0 hrun
  intro rest
  induction rest with
  | nil =>
    intro pre x s hl hI hrun
    rw [foldlM_nil, runs_pure] at hrun
    rw [hl, append_nil, hrun.1, hrun.2]
    exact hI
  | cons a rest ih =>
    intro pre x s hl hI hrun
    obtain ⟨x', t, ha, hrest⟩ := runs_bind.mp hrun
    exact ih (pre ++ [a]) x' t (by rw [hl, append_assoc]; rfl) (hstep pre a rest hl x x' s t hI ha) hrest

end

variable {σ ε α β : Type} {c : Prop}

theorem except_bind_eq_error {m : Except ε α} {f : α → Except ε β} {e : ε} :
    m >>= f = .error e ↔ m = .error e ∨ ∃ a, m = .ok a ∧ f a = .error e := by
  cases m with
  | error e' =>
    constructor
    · intro h
      cases h
      exact .inl rfl
    · rintro (h | ⟨a, h, -⟩)
      · cases h
        rfl
      · cases h
  | ok a =>
    constructor
    · intro h
      exact .inr ⟨a, rfl, h⟩
    · rintro (h | ⟨a', h, hf⟩)
      · cases h
      · cases h
        exact hf

theorem except_map_eq_error {m : Except ε α} {g : α → β} {e : ε} : m.map g = .error e ↔ m = .error e := by
  cases m <;> simp [Except.map]

theorem except_mapError_eq_error {m : Except ε α} {g : ε → β} {e : β} :
    m.mapError g = .error e ↔ ∃ e', m = .error e' ∧ g e' = e := by
  cases m <;> simp [Except.mapError]

def Meets (m : StateT σ (Except ε) α) (s : σ) (Q : α → σ → Prop) (E : ε → Prop) : Prop :=
  match m.run s with
  | .ok (a, s') => Q a s'
  | .error e => E e

variable {m : StateT σ (Except ε) α} {s s' : σ} {Q Q' : α → σ → Prop} {E E' : ε → Prop}

namespace Meets

section

variable (h : Meets m s Q E)

include h

theorem of_runs {a : α} (hrun : Runs m s a s') : Q a s' := by
  rw [Meets, show m.run s = _ from hrun] at h
  exact h

theorem of_error {e : ε} (herror : m.run s = .error e) : E e := by
  rw [Meets, herror] at h
  exact h

theorem mono (hQ : ∀ a s', Q a s' → Q' a s') (hE : ∀ e, E e → E' e) : Meets m s Q' E' := by
  rw [Meets] at h ⊢
  split
  · next heq =>
    rw [heq] at h
    exact hQ _ _ h
  · next heq =>
    rw [heq] at h
    exact hE _ h

theorem bind {R : β → σ → Prop} {f : α → StateT σ (Except ε) β}
    (hf : ∀ a s', Q a s' → Meets (f a) s' R E) : Meets (m >>= f) s R E := by
  rw [Meets] at h
  cases hm : m.run s with
  | error e =>
    rw [hm] at h
    have hrun : (m >>= f).run s = .error e := by
      rw [StateT.run_bind, hm]
      rfl
    rw [Meets, hrun]
    exact h
  | ok p =>
    rw [hm] at h
    have hrun : (m >>= f).run s = (f p.1).run p.2 := by
      rw [StateT.run_bind, hm]
      rfl
    rw [Meets, hrun]
    exact hf p.1 p.2 h

theorem map {f : α → β} {R : β → σ → Prop} (hf : ∀ a s', Q a s' → R (f a) s') : Meets (f <$> m) s R E := by
  rw [← bind_pure_comp]
  exact h.bind hf

end

end Meets

theorem meets_pure {a : α} (h : Q a s) : Meets (pure a : StateT σ (Except ε) α) s Q E := h

theorem meets_throw {e : ε} (h : E e) : Meets (throw e : StateT σ (Except ε) α) s Q E := h

theorem meets_get_bind {f : σ → StateT σ (Except ε) α} (h : Meets (f s) s Q E) : Meets (get >>= f) s Q E := h

theorem meets_set {t : σ} {Q : PUnit → σ → Prop} (h : Q ⟨⟩ t) : Meets (set t : StateT σ (Except ε) PUnit) s Q E := h

theorem meets_modify {f : σ → σ} {Q : PUnit → σ → Prop} (h : Q ⟨⟩ (f s)) :
    Meets (modify f : StateT σ (Except ε) PUnit) s Q E := h

theorem meets_modifyGet {f : σ → α × σ} (h : Q (f s).1 (f s).2) :
    Meets (modifyGet f : StateT σ (Except ε) α) s Q E := h

theorem meets_liftM {x : Except ε α} (hok : ∀ a, x = .ok a → Q a s) (herror : ∀ e, x = .error e → E e) :
    Meets (liftM x : StateT σ (Except ε) α) s Q E := by
  cases x with
  | ok a => exact hok a rfl
  | error e => exact herror e rfl

theorem meets_ite [Decidable c] {n : StateT σ (Except ε) α} (hm : c → Meets m s Q E)
    (hn : ¬c → Meets n s Q E) : Meets (if c then m else n) s Q E := by
  split
  · next h => exact hm h
  · next h => exact hn h

/-- A loop keeps what each of its steps keeps, and fails as one of its steps does. The property may speak of
the elements that have been dealt with. -/
theorem meets_forM {f : α → StateT σ (Except ε) PUnit} {l : List α} (I : List α → σ → Prop)
    (hstep : ∀ pre a post, l = pre ++ a :: post → ∀ t, I pre t → Meets (f a) t (fun _ t' => I (pre ++ [a]) t') E)
    (h0 : I [] s) : Meets (l.forM f) s (fun _ s' => I l s') E := by
  suffices aux : ∀ rest pre t, l = pre ++ rest → I pre t → Meets (rest.forM f) t (fun _ s' => I l s') E from
    aux l [] s rfl h0
  intro rest
  induction rest with
  | nil =>
    intro pre t hl hI
    rw [append_nil] at hl
    rw [← hl] at hI
    exact hI
  | cons a rest ih =>
    intro pre t hl hI
    refine (hstep pre a rest hl t hI).bind fun _ t' hI' => ?_
    exact ih (pre ++ [a]) t' (by rw [hl, append_assoc]; rfl) hI'

def Keeps (I : σ → Prop) (R : σ → σ → Prop) (E : ε → Prop) (m : StateT σ (Except ε) α) : Prop :=
  ∀ s, I s → Meets m s (fun _ s' => I s' ∧ R s s') E

/-- A relation that may hold between the states before and after a sequence of steps. -/
class Steady (R : σ → σ → Prop) : Prop where
  refl : ∀ s, R s s
  trans : ∀ {s t u}, R s t → R t u → R s u

section Keeps

variable {I : σ → Prop} {R : σ → σ → Prop}

section

variable [Steady R]

theorem keeps_pure (a : α) : Keeps I R E (pure a : StateT σ (Except ε) α) :=
  fun s hs => meets_pure ⟨hs, Steady.refl s⟩

theorem keeps_get : Keeps I R E (get : StateT σ (Except ε) σ) := fun s hs => ⟨hs, Steady.refl s⟩

theorem Keeps.bind (hm : Keeps I R E m) {f : α → StateT σ (Except ε) β} (hf : ∀ a, Keeps I R E (f a)) :
    Keeps I R E (m >>= f) := by
  intro s hs
  refine (hm s hs).bind fun a s' hs' => (hf a s' hs'.1).mono (fun _ _ h => ?_) fun _ he => he
  exact ⟨h.1, Steady.trans hs'.2 h.2⟩

theorem Keeps.map (hm : Keeps I R E m) (f : α → β) : Keeps I R E (f <$> m) := by
  exact hm.bind fun a => keeps_pure (f a)

theorem keeps_forM {f : β → StateT σ (Except ε) PUnit} (hf : ∀ b, Keeps I R E (f b)) (l : List β) :
    Keeps I R E (l.forM f) := by
  induction l with
  | nil => exact keeps_pure _
  | cons b l ih => exact (hf b).bind fun _ => ih

theorem keeps_mapM {f : β → StateT σ (Except ε) α} (hf : ∀ b, Keeps I R E (f b)) (l : List β) :
    Keeps I R E (l.mapM f) := by
  induction l with
  | nil =>
    exact keeps_pure _
  | cons b l ih =>
    rw [mapM_cons]
    exact (hf b).bind fun _ => ih.bind fun _ => keeps_pure _

end

theorem keeps_throw {e : ε} (h : E e) : Keeps I R E (throw e : StateT σ (Except ε) α) := fun _ _ => h

theorem keeps_modify {f : σ → σ} (h : ∀ s, I s → I (f s) ∧ R s (f s)) :
    Keeps I R E (modify f : StateT σ (Except ε) PUnit) := h

theorem keeps_modifyGet {f : σ → α × σ} (h : ∀ s, I s → I (f s).2 ∧ R s (f s).2) :
    Keeps I R E (modifyGet f : StateT σ (Except ε) α) := h

theorem keeps_ite [Decidable c] {n : StateT σ (Except ε) α} (hm : Keeps I R E m) (hn : Keeps I R E n) :
    Keeps I R E (if c then m else n) := by
  split
  · exact hm
  · exact hn

end Keeps

end SsaCodegen
