import Mathlib.Data.List.TakeWhile
import SsaCodegen.Allocation
import SsaCodegen.Allocation.Check
import SsaCodegen.Proofs.Registers
import SsaCodegen.Proofs.SsaForm

/-! Why a register allocation is right. At each value of a block one can say what the registers hold before it
and after it, such that everything it reads is at hand. What is said may be less than what is true, so code
added later fits in wherever what it reads is known. -/

namespace SsaCodegen

open List

variable {f : Func}

def Func.leading (f : Func) (b : BlockId) : List ValueId :=
  (f.block b).values.takeWhile fun v => (f.value v).op.isLeading

theorem Func.isLeading_of_mem_leading {b : BlockId} {v : ValueId} (hv : v ∈ f.leading b) : (f.value v).op.isLeading :=
  mem_takeWhile_imp (p := fun v => (f.value v).op.isLeading) hv

theorem Func.mem_values_of_mem_leading {b : BlockId} {v : ValueId} (hv : v ∈ f.leading b) : v ∈ (f.block b).values :=
  takeWhile_subset _ hv

/-- A value computes the same in two functions. -/
structure Func.Kin (f g : Func) (v : ValueId) : Prop where
  op : (g.value v).op = (f.value v).op
  ty : (g.value v).ty = (f.value v).ty
  payload : (g.value v).payload = (f.value v).payload
  block : (g.value v).block = (f.value v).block

/-- It also has the same location and operands. -/
structure Func.Agrees (f g : Func) (v : ValueId) : Prop extends f.Kin g v where
  loc : (g.value v).loc = (f.value v).loc
  args : g.args v = f.args v

/-- An allocation in the making: the function before it, the function so far, and for each value the
one that names its copy in memory. -/
structure Draft where
  source : Func
  func : Func
  home? : ValueId → Option ValueId

namespace Draft

variable {s : ValueId}

def Held (d : Draft) (P : Claims) (u c : ValueId) : Prop := P.Hold u c (d.func.regsOf c)

def Stored (d : Draft) (b : BlockId) (pre : List ValueId) (u h : ValueId) : Prop :=
  d.home? u = some h ∧ (u ∈ (d.source.block b).values → h ∈ pre)

def AtHand (d : Draft) (b : BlockId) (pre : List ValueId) (P : Claims) (u c : ValueId) : Prop :=
  d.Held P u c ∨ d.Stored b pre u c

def Renames (d : Draft) (w : ValueId) (R : ValueId → ValueId → Prop) : Prop :=
  (d.func.args w).length = (d.source.args w).length ∧
    ∀ (k : Nat) a a', (d.source.args w)[k]? = some a → (d.func.args w)[k]? = some a' →
      R a a' ∨ a' = a ∧ (k < (d.source.dataArgs w).length → (d.source.value a).hasResult = false)

/-- A result is in registers, or it is a constant. -/
structure Settled (d : Draft) (w : ValueId) : Prop where
  located : (d.source.value w).hasResult → (d.func.value w).loc ≠ none
  place : ∀ l, (d.func.value w).loc = some l → l.isReg ∨
    (d.source.value w).op = .const ∧ ∃ k, (d.source.value w).payload = .int k ∧ l = .imm k

/-- With `P` known before it, a value of block `b` that stands after `pre` finds what it reads, and
afterwards something else is known. -/
inductive Step (d : Draft) (b : BlockId) (pre : List ValueId) (P : Claims) : ValueId → Claims → Prop
  /-- An instruction that reads registers. -/
  | compute {w : ValueId} (lt : w < d.source.values.size) (op : (d.func.value w).op = (d.source.value w).op)
      (inner : (d.source.value w).op.isLeading = false) (other : (d.source.value w).op ≠ .call)
      (reads : d.Renames w (d.Held P)) (settled : d.Settled w)
      (fresh : ∀ r o, P r = some o → o.value ≠ w) : Step d b pre P w (P.put w w (d.func.regsOf w))
  /-- A call, after which only its result is in registers. -/
  | call {w : ValueId} (lt : w < d.source.values.size)
      (op : (d.func.value w).op = (d.source.value w).op) (isCall : (d.source.value w).op = .call)
      (reads : d.Renames w (d.AtHand b pre P)) (settled : d.Settled w) :
      Step d b pre P w (Claims.empty.put w w (d.func.regsOf w))
  /-- A store of a value that is still where it was defined. -/
  | store {s v : ValueId} {slot : StackSlot} (new : d.source.values.size ≤ s)
      (op : (d.func.value s).op = .storeReg) (args : d.func.args s = [v])
      (home : d.home? v = some s) (before : v ∈ pre) (loc : (d.func.value s).loc = some (.stack slot))
      (held : d.Held P v v) : Step d b pre P s P
  /-- A load from the copy in memory. -/
  | load {c u h : ValueId} {slot : StackSlot} (new : d.source.values.size ≤ c)
      (op : (d.func.value c).op = .loadReg) (args : d.func.args c = [h])
      (stored : d.Stored b pre u h) (loc : (d.func.value h).loc = some (.stack slot))
      (available : d.source.AtEnd u b) (ty : (d.func.value c).ty = (d.source.value u).ty)
      (regs : d.func.regsOf c ≠ []) : Step d b pre P c (P.put u c (d.func.regsOf c))
  /-- A constant that is made anew. -/
  | remake {c u : ValueId} {k : Int} (new : d.source.values.size ≤ c)
      (op : (d.func.value c).op = .const) (payload : (d.func.value c).payload = .int k)
      (args : d.func.args c = []) (const : (d.source.value u).op = .const)
      (value : (d.source.value u).payload = .int k) (ty : (d.func.value c).ty = (d.source.value u).ty)
      (regs : d.func.regsOf c ≠ []) : Step d b pre P c (P.put u c (d.func.regsOf c))

/-- From `R` to `Q` over values of a block that stand after `pre`. In between, claims may be dropped. -/
def Steps (d : Draft) (b : BlockId) : List ValueId → Claims → List ValueId → Claims → Prop
  | _, R, [], Q => Q.Within R
  | pre, R, w :: ws, Q =>
    ∃ P P', P.Within R ∧ d.Step b pre P w P' ∧ d.Steps b (pre ++ [w]) P' ws Q

variable {d d' : Draft} {b : BlockId} {pre pre' ws ws' : List ValueId} {P P' Q Q' R R' : Claims}
  {u v w c h : ValueId}

theorem Held.mono (hheld : d.Held P u c) (hPQ : P.Within Q) : d.Held Q u c :=
  Claims.Hold.mono hheld hPQ

theorem Stored.mono (hstored : d.Stored b pre u h) (hpre : ∀ v ∈ pre, v ∈ pre') : d.Stored b pre' u h :=
  ⟨hstored.1, fun hu => hpre h (hstored.2 hu)⟩

theorem AtHand.mono (hc : d.AtHand b pre P u c) (hpre : ∀ v ∈ pre, v ∈ pre') (hPQ : P.Within Q) :
    d.AtHand b pre' Q u c :=
  hc.imp (Held.mono · hPQ) (Stored.mono · hpre)

theorem Renames.mono {R R' : ValueId → ValueId → Prop} (hw : d.Renames w R)
    (hR : ∀ a a', R a a' → R' a a') : d.Renames w R' :=
  ⟨hw.1, fun k a a' ha ha' => (hw.2 k a a' ha ha').imp (hR a a') id⟩

theorem Step.mono (hstep : d.Step b pre P w P') (hpre : ∀ v ∈ pre, v ∈ pre') : d.Step b pre' P w P' := by
  cases hstep with
  | compute lt op inner other reads settled fresh =>
    exact .compute lt op inner other reads settled fresh
  | call lt op isCall reads settled =>
    exact .call lt op isCall (reads.mono fun _ _ hc => hc.mono hpre (.refl P)) settled
  | store new op args home before loc held =>
    exact .store new op args home (hpre _ before) loc held
  | load new op args stored loc available ty regs =>
    exact .load new op args (stored.mono hpre) loc available ty regs
  | remake new op payload args const value ty regs =>
    exact .remake new op payload args const value ty regs

theorem Steps.mono : ∀ {ws pre pre' : List ValueId} {R R' : Claims}, d.Steps b pre R ws Q →
    (∀ v ∈ pre, v ∈ pre') → R.Within R' → d.Steps b pre' R' ws Q
  | [], _, _, _, _, hsteps, _, hR => hsteps.trans hR
  | w :: ws, pre, pre', R, R', hsteps, hpre, hR => by
    obtain ⟨P, P', hP, hstep, hrest⟩ := hsteps
    refine ⟨P, P', hP.trans hR, hstep.mono hpre, Steps.mono hrest (fun v hv => ?_) (.refl P')⟩
    rw [mem_append] at hv ⊢
    exact hv.imp_left (hpre v)

theorem Steps.weaken : ∀ {ws pre : List ValueId} {R : Claims}, d.Steps b pre R ws Q →
    Q'.Within Q → d.Steps b pre R ws Q'
  | [], _, _, hsteps, hQ => hQ.trans hsteps
  | _ :: _, _, _, ⟨P, P', hP, hstep, hrest⟩, hQ => ⟨P, P', hP, hstep, hrest.weaken hQ⟩

theorem Steps.append : ∀ {ws pre : List ValueId} {R : Claims}, d.Steps b pre R ws Q →
    d.Steps b (pre ++ ws) Q ws' Q' → d.Steps b pre R (ws ++ ws') Q'
  | [], pre, _, hsteps, hmore => hmore.mono (by simp) hsteps
  | w :: ws, pre, _, ⟨P, P', hP, hstep, hrest⟩, hmore => by
    refine ⟨P, P', hP, hstep, hrest.append ?_⟩
    rwa [append_assoc]

theorem Steps.snoc (hsteps : d.Steps b pre R ws Q) (hP : P.Within Q)
    (hstep : d.Step b (pre ++ ws) P w P') : d.Steps b pre R (ws ++ [w]) P' :=
  hsteps.append ⟨P, P', hP, hstep, .refl P'⟩

theorem Steps.split : ∀ {ws pre : List ValueId} {R : Claims}, d.Steps b pre R (ws ++ ws') Q →
    ∃ M, d.Steps b pre R ws M ∧ d.Steps b (pre ++ ws) M ws' Q
  | [], pre, R, hsteps => ⟨R, .refl R, by rwa [append_nil]⟩
  | w :: ws, pre, _, ⟨P, P', hP, hstep, hrest⟩ => by
    obtain ⟨M, hfirst, hlast⟩ := hrest.split
    refine ⟨M, ⟨P, P', hP, hstep, hfirst⟩, ?_⟩
    rwa [append_assoc] at hlast

theorem Steps.at_mem {post : List ValueId} (hsteps : d.Steps b pre R (ws ++ w :: post) Q) :
    ∃ M P P', d.Steps b pre R ws M ∧ P.Within M ∧ d.Step b (pre ++ ws) P w P' ∧
      d.Steps b (pre ++ ws ++ [w]) P' post Q := by
  obtain ⟨M, hfirst, P, P', hP, hstep, hrest⟩ := hsteps.split
  exact ⟨M, P, P', hfirst, hP, hstep, hrest⟩

theorem Step.not_leading (hstep : d.Step b pre P w P') : (d.func.value w).op.isLeading = false := by
  cases hstep with
  | compute lt op inner => rw [op, inner]
  | call lt op isCall => rw [op, isCall]; rfl
  | store new op => rw [op]; rfl
  | load new op => rw [op]; rfl
  | remake new op => rw [op]; rfl

theorem Steps.not_leading : ∀ {ws pre : List ValueId} {R : Claims}, d.Steps b pre R ws Q →
    ∀ w ∈ ws, (d.func.value w).op.isLeading = false
  | [], _, _, _ => nofun
  | _ :: _, _, _, ⟨_, _, _, hstep, hrest⟩ =>
    forall_mem_cons.mpr ⟨hstep.not_leading, hrest.not_leading⟩

/-- The draft `d'` says all that `d` says; the values in `fixed` have not changed. -/
structure Extends (d d' : Draft) (fixed : ValueId → Prop) : Prop where
  source : d'.source = d.source
  agrees : ∀ v, fixed v → d.func.Agrees d'.func v
  loc : ∀ v l, (d.func.value v).loc = some l → (d'.func.value v).loc = some l
  home : ∀ u h, d.home? u = some h → d'.home? u = some h

variable {fixed : ValueId → Prop}

theorem regsOf_eq_of_loc {f g : Func} (hloc : (g.value v).loc = (f.value v).loc) : g.regsOf v = f.regsOf v := by
  rw [Func.regsOf, Func.regsOf, hloc]

theorem Extends.regsOf (hd : d.Extends d' fixed) (hne : d.func.regsOf v ≠ []) :
    d'.func.regsOf v = d.func.regsOf v := by
  apply regsOf_eq_of_loc
  cases hloc : (d.func.value v).loc with
  | none =>
    rw [Func.regsOf, hloc] at hne
    exact absurd rfl hne
  | some l => exact hd.loc v l hloc

theorem Held.extend (hheld : d.Held P u c) (hd : d.Extends d' fixed) : d'.Held P u c := by
  rw [Held, hd.regsOf hheld.1]
  exact hheld

theorem Stored.extend (hstored : d.Stored b pre u h) (hd : d.Extends d' fixed) : d'.Stored b pre u h := by
  rw [Stored, hd.source]
  exact ⟨hd.home u h hstored.1, hstored.2⟩

theorem AtHand.extend (hc : d.AtHand b pre P u c) (hd : d.Extends d' fixed) : d'.AtHand b pre P u c :=
  hc.imp (Held.extend · hd) (Stored.extend · hd)

theorem Renames.extend {R R' : ValueId → ValueId → Prop} (hw : d.Renames w R)
    (hsource : d'.source = d.source) (hargs : d'.func.args w = d.func.args w)
    (hR : ∀ a a', R a a' → R' a a') : d'.Renames w R' := by
  rw [Renames, hsource, hargs]
  exact hw.mono hR

theorem Settled.extend (hw : d.Settled w) (hd : d.Extends d' fixed) (hfix : fixed w) : d'.Settled w := by
  constructor
  · rw [hd.source, (hd.agrees w hfix).loc]
    exact hw.located
  · rw [hd.source, (hd.agrees w hfix).loc]
    exact hw.place

theorem Step.extend (hstep : d.Step b pre P w P') (hd : d.Extends d' fixed) (hfix : fixed w) :
    d'.Step b pre P w P' := by
  have hw := hd.agrees w hfix
  have hregs := regsOf_eq_of_loc hw.loc
  cases hstep with
  | compute lt op inner other reads settled fresh =>
    rw [← hregs]
    rw [← hd.source] at lt inner other
    exact .compute lt (by rw [hw.op, hd.source, op]) inner other
      (reads.extend hd.source hw.args fun _ _ hc => hc.extend hd) (settled.extend hd hfix) fresh
  | call lt op isCall reads settled =>
    rw [← hregs]
    rw [← hd.source] at lt isCall
    exact .call lt (by rw [hw.op, hd.source, op]) isCall
      (reads.extend hd.source hw.args fun _ _ hc => hc.extend hd) (settled.extend hd hfix)
  | store new op args home before loc held =>
    rw [← hd.source] at new
    exact .store new (hw.op.trans op) (hw.args.trans args) (hd.home _ _ home) before
      (hw.loc.trans loc) (held.extend hd)
  | load new op args stored loc available ty regs =>
    rw [← hd.source] at new available ty
    rw [← hregs] at regs ⊢
    exact .load new (hw.op.trans op) (hw.args.trans args) (stored.extend hd) (hd.loc _ _ loc) available
      (hw.ty.trans ty) regs
  | remake new op payload args const value ty regs =>
    rw [← hd.source] at new const value ty
    rw [← hregs] at regs ⊢
    exact .remake new (hw.op.trans op) (hw.payload.trans payload) (hw.args.trans args) const value
      (hw.ty.trans ty) regs

theorem Steps.extend (hd : d.Extends d' fixed) : ∀ {ws pre : List ValueId} {R : Claims},
    d.Steps b pre R ws Q → (∀ w ∈ ws, fixed w) → d'.Steps b pre R ws Q
  | [], _, _, hsteps, _ => hsteps
  | _ :: _, _, _, ⟨P, P', hP, hstep, hrest⟩, hfix =>
    have hfix := forall_mem_cons.mp hfix
    ⟨P, P', hP, hstep.extend hd hfix.1, hrest.extend hd hfix.2⟩

theorem Step.held_self (hstep : d.Step b pre P w P') (hlt : w < d.source.values.size)
    (hregs : d.func.regsOf w ≠ []) (hnodup : (d.func.regsOf w).Nodup) : d.Held P' w w := by
  cases hstep with
  | compute => exact Claims.hold_put hnodup hregs
  | call => exact Claims.hold_put hnodup hregs
  | store new => exact absurd hlt (not_lt.mpr new)
  | load new => exact absurd hlt (not_lt.mpr new)
  | remake new => exact absurd hlt (not_lt.mpr new)

theorem Steps.cons_store {slot : StackSlot} (hsteps : d.Steps b pre R ws Q) (hheld : d.Held R v v)
    (before : v ∈ pre) (new : d.source.values.size ≤ s) (op : (d.func.value s).op = .storeReg)
    (args : d.func.args s = [v]) (home : d.home? v = some s)
    (loc : (d.func.value s).loc = some (.stack slot)) : d.Steps b pre R (s :: ws) Q :=
  ⟨R, R, .refl R, .store new op args home before loc hheld, hsteps.mono (fun _ hv => mem_append_left _ hv) (.refl R)⟩

theorem Steps.insert_store {post : List ValueId} {slot : StackSlot}
    (hsteps : d.Steps b pre R (ws ++ v :: post) Q) (hlt : v < d.source.values.size)
    (hregs : d.func.regsOf v ≠ []) (hnodup : (d.func.regsOf v).Nodup) (new : d.source.values.size ≤ s)
    (op : (d.func.value s).op = .storeReg) (args : d.func.args s = [v]) (home : d.home? v = some s)
    (loc : (d.func.value s).loc = some (.stack slot)) : d.Steps b pre R (ws ++ v :: s :: post) Q := by
  obtain ⟨M, P, P', hfirst, hP, hstep, hrest⟩ := hsteps.at_mem
  have hheld := hstep.held_self hlt hregs hnodup
  exact hfirst.append ⟨P, P', hP, hstep, hrest.cons_store hheld (by simp) new op args home loc⟩

end Draft

end SsaCodegen
