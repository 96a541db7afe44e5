import Mathlib.Order.Nat
import SsaCodegen.Proofs.Arrays
import SsaCodegen.Ssa.Func

/-! What the changes of a function change. Operands of different values stand apart in the pool. -/

namespace SsaCodegen

open List OperandPool

/-- Stretches that have no cell in common. -/
def Span.Apart (s t : Span) : Prop := s.start + s.count ≤ t.start ∨ t.start + t.count ≤ s.start

namespace OperandPool

section

variable (p : OperandPool)

include p

theorem read_length (s : Span) (h : s.start + s.count ≤ p.size) : (p.read s).length = s.count := by
  simp only [read, Array.length_toList, Array.size_extract]
  omega

theorem read_getElem? (s : Span) (h : s.start + s.count ≤ p.size) (i : Nat) :
    (p.read s)[i]? = if i < s.count then p[s.start + i]? else none := by
  simp only [read, Array.getElem?_toList, Array.getElem?_extract]
  by_cases hi : i < s.count
  · have h' : i < min (s.start + s.count) p.size - s.start := by omega
    simp only [hi, h', ↓reduceIte]
  · have h' : ¬i < min (s.start + s.count) p.size - s.start := by omega
    simp only [hi, h', ↓reduceIte]

theorem size_add (args : List ValueId) : (p.add args).2.size = p.size + args.length := by
  rw [← Array.length_toList, add, Array.toList_appendList, length_append, Array.length_toList]

theorem read_add_old (args : List ValueId) (s : Span)
    (h : s.start + s.count ≤ p.size) : (p.add args).2.read s = p.read s := by
  have hsize := size_add p args
  apply ext_getElem?
  intro i
  rw [read_getElem? _ _ (by omega), read_getElem? _ _ h]
  by_cases hi : i < s.count
  · have hlt : s.start + i < p.toList.length := by
      rw [Array.length_toList]
      omega
    simp only [hi, ↓reduceIte, add]
    rw [← Array.getElem?_toList, Array.toList_appendList, getElem?_append_left hlt, Array.getElem?_toList]
  · simp only [hi, ↓reduceIte]

theorem read_add_new (args : List ValueId) : (p.add args).2.read (p.add args).1 = args := by
  simp [add, read]

@[simp] theorem size_write (s : Span) (i : Nat) (a : ValueId) : (p.write s i a).size = p.size := by
  simp [write]

theorem read_write_self (s : Span) (i : Nat) (a : ValueId)
    (h : s.start + s.count ≤ p.size) (hi : i < s.count) : (p.write s i a).read s = (p.read s).set i a := by
  apply ext_getElem?
  intro j
  rw [getElem?_set, read_getElem? _ _ (by rwa [size_write]), read_getElem? _ _ h, read_length p s h]
  simp only [write, Array.getElem?_setIfInBounds]
  by_cases hij : i = j
  · subst hij
    have hlt : s.start + i < p.size := by omega
    simp [hi, hlt]
  · simp [hij]

theorem read_write_other (s t : Span) (i : Nat) (a : ValueId)
    (ht : t.start + t.count ≤ p.size) (h : s.start + i < t.start ∨ t.start + t.count ≤ s.start + i) :
    (p.write s i a).read t = p.read t := by
  apply ext_getElem?
  intro j
  rw [read_getElem? _ _ (by rwa [size_write]), read_getElem? _ _ ht]
  simp only [write, Array.getElem?_setIfInBounds]
  by_cases hj : j < t.count
  · have hne : s.start + i ≠ t.start + j := by omega
    simp [hj, hne]
  · simp [hj]

end

theorem fill_from {s : Span} : ∀ (args : List ValueId) (k : Nat) (p : OperandPool),
    s.start + s.count ≤ p.size → k + args.length ≤ s.count →
    ∃ q, (args.zipIdx k).foldl (fun p (a, i) => p.write s i a) p = q ∧ q.size = p.size ∧
      q.read s = (p.read s).take k ++ args ++ (p.read s).drop (k + args.length) ∧
      ∀ t, t.start + t.count ≤ p.size → s.Apart t → q.read t = p.read t := by
  intro args
  induction args with
  | nil => exact fun k p _ _ => ⟨p, rfl, rfl, by simp, fun _ _ _ => rfl⟩
  | cons a args ih =>
    intro k p hp hlen
    rw [length_cons] at hlen
    obtain ⟨q, hq, hsize, hself, hother⟩ := ih (k + 1) (p.write s k a) (by rwa [size_write]) (by omega)
    refine ⟨q, hq, hsize.trans (size_write ..), ?_, fun t ht hst => ?_⟩
    · have hlt : k < (p.read s).length := by rw [read_length p s hp]; omega
      rw [hself, read_write_self p s k a hp (by omega), take_succ_eq_append_getElem (by rwa [length_set]),
        take_set_of_le le_rfl, getElem_set_self, drop_set_of_lt (by omega), append_assoc (take k _),
        Nat.add_right_comm]
      rfl
    · rw [hother t (by rwa [size_write]) hst]
      apply read_write_other p s t k a ht
      rcases hst with h | h <;> omega

/-- A list of the same length takes the place of the old one, any other one stands at the end. -/
theorem replace_spec {p : OperandPool} {s : Span} (args : List ValueId) (hp : s.start + s.count ≤ p.size) :
    (p.replace s args).2.read (p.replace s args).1 = args ∧ p.size ≤ (p.replace s args).2.size ∧
      (p.replace s args).1.start + (p.replace s args).1.count ≤ (p.replace s args).2.size ∧
      ((p.replace s args).1 = s ∨ p.size ≤ (p.replace s args).1.start) ∧
      ∀ t, t.start + t.count ≤ p.size → s.Apart t → (p.replace s args).2.read t = p.read t := by
  rw [replace]
  split
  · next hlen =>
    obtain ⟨q, hq, hsize, hself, hother⟩ := fill_from args 0 p hp (by omega)
    have hdrop : (p.read s).drop (0 + args.length) = [] := drop_eq_nil_of_le (by rw [read_length p s hp]; omega)
    rw [fill, hq, hself, hdrop, hsize]
    exact ⟨append_nil args, le_rfl, hp, .inl rfl, hother⟩
  · have hsize := size_add p args
    exact ⟨read_add_new p args, by omega, hsize.ge, .inr le_rfl, fun t ht _ => read_add_old p args t ht⟩

end OperandPool

theorem insertIdx_append_length {α : Type} (x : α) (front back : List α) :
    (front ++ back).insertIdx front.length x = front ++ x :: back := by
  induction front with
  | nil => rfl
  | cons a front ih =>
    rw [cons_append, length_cons, insertIdx_succ_cons, ih, cons_append]

namespace Func

variable {v : ValueId} {i : Nat}

section

variable (f : Func)

theorem value_eq_default (h : f.values.size ≤ v) : f.value v = default := getD_of_size_le h

theorem block_eq_default {b : BlockId} (h : f.blocks.size ≤ b) : f.block b = default := getD_of_size_le h

theorem block_modifyBlock (b c : BlockId) (g : Block → Block) :
    (f.modifyBlock b g).block c = if b = c ∧ c < f.blocks.size then g (f.block c) else f.block c :=
  getD_modify

theorem block_modifyBlock_self {b : BlockId} (g : Block → Block)
    (hb : b < f.blocks.size) : (f.modifyBlock b g).block b = g (f.block b) := by
  rw [block_modifyBlock, if_pos ⟨rfl, hb⟩]

theorem block_modifyBlock_other {b c : BlockId} (g : Block → Block) (h : b ≠ c) :
    (f.modifyBlock b g).block c = f.block c := by
  rw [block_modifyBlock, if_neg fun hbc => h hbc.1]

@[simp] theorem blocks_size_modifyBlock (b : BlockId) (g : Block → Block) :
    (f.modifyBlock b g).blocks.size = f.blocks.size := by
  simp [modifyBlock]

theorem value_modifyValue (v w : ValueId) (g : Value → Value) :
    (f.modifyValue v g).value w = if v = w ∧ w < f.values.size then g (f.value w) else f.value w :=
  getD_modify

@[simp] theorem values_size_modifyValue (v : ValueId) (g : Value → Value) :
    (f.modifyValue v g).values.size = f.values.size := by
  simp [modifyValue]

end

section NewValue

variable (f : Func) (b : BlockId) (op : Op) (ty : TypeId) (args : List ValueId) (payload : Payload)

@[simp] theorem values_size_newValue : (f.newValue b op ty args payload).2.values.size = f.values.size + 1 := by
  simp [newValue]

theorem size_lt_newValue : f.values.size < (f.newValue b op ty args payload).2.values.size :=
  (Nat.lt_succ_self _).trans_eq (values_size_newValue ..).symm

theorem value_newValue_old (hv : v < f.values.size) : (f.newValue b op ty args payload).2.value v = f.value v := by
  have hne : v ≠ f.values.size := hv.ne
  simp [value, newValue, Array.getElem?_push, hne]

theorem value_newValue_new : (f.newValue b op ty args payload).2.value f.values.size =
    ⟨op, ty, (f.operands.add args).1, payload, 0, b, none⟩ := by
  simp [value, newValue]

theorem value_appendValue_new : (f.appendValue b op ty args payload).2.value f.values.size =
    ⟨op, ty, (f.operands.add args).1, payload, 0, b, none⟩ := value_newValue_new ..

end NewValue

/-- The operands of the values stand in the pool apart from each other. -/
structure Spans (f : Func) : Prop where
  in_pool : ∀ v, v < f.values.size → (f.value v).span.start + (f.value v).span.count ≤ f.operands.size
  apart : ∀ v w, v < f.values.size → w < f.values.size → v ≠ w → (f.value v).span.Apart (f.value w).span

variable {f g : Func} {w : ValueId}

theorem Spans.congr (h : f.Spans) (hsize : g.values.size = f.values.size)
    (hspan : ∀ v, (g.value v).span = (f.value v).span) (hpool : g.operands.size = f.operands.size) : g.Spans := by
  constructor <;> simp only [hsize, hspan, hpool]
  · exact h.in_pool
  · exact h.apart

theorem args_eq_nil (f : Func) (h : f.values.size ≤ v) : f.args v = [] := by
  rw [args, value_eq_default f h]
  simp [OperandPool.read, default]

theorem Spans.args_length (h : f.Spans) (hv : v < f.values.size) : (f.args v).length = (f.value v).span.count :=
  read_length _ _ (h.in_pool v hv)

theorem Spans.relocate (h : f.Spans) (x : ValueId) (hpool : f.operands.size ≤ g.operands.size)
    (hold : ∀ v, v < g.values.size → v ≠ x → v < f.values.size ∧ (g.value v).span = (f.value v).span)
    (hend : (g.value x).span.start + (g.value x).span.count ≤ g.operands.size)
    (hx : ∀ v, v < f.values.size → v ≠ x → (f.value v).span.Apart (g.value x).span) : g.Spans := by
  constructor
  · intro v hv
    by_cases hvx : v = x
    · rw [hvx]
      exact hend
    · obtain ⟨hlt, hspan⟩ := hold v hv hvx
      rw [hspan]
      exact (h.in_pool v hlt).trans hpool
  · intro v w hv hw hne
    by_cases hvx : v = x
    · obtain ⟨hlt, hspan⟩ := hold w hw fun heq => hne (hvx.trans heq.symm)
      rw [hvx, hspan]
      exact (hx w hlt fun heq => hne (hvx.trans heq.symm)).symm
    · obtain ⟨hlt, hspan⟩ := hold v hv hvx
      rw [hspan]
      by_cases hwx : w = x
      · rw [hwx]
        exact hx v hlt hvx
      · obtain ⟨hlt', hspan'⟩ := hold w hw hwx
        rw [hspan']
        exact h.apart v w hlt hlt' hne

section NewValue

variable (h : f.Spans) (b : BlockId) (op : Op) (ty : TypeId) (args : List ValueId) (payload : Payload)

include h

theorem Spans.args_newValue_old (hv : v < f.values.size) : (f.newValue b op ty args payload).2.args v = f.args v := by
  rw [Func.args, value_newValue_old f b op ty args payload hv]
  exact read_add_old f.operands args _ (h.in_pool v hv)

omit h in
theorem args_newValue_new : (f.newValue b op ty args payload).2.args f.values.size = args := by
  rw [Func.args, value_newValue_new]
  exact read_add_new f.operands args

theorem Spans.newValue : (f.newValue b op ty args payload).2.Spans := by
  have hpool : (f.newValue b op ty args payload).2.operands.size = f.operands.size + args.length :=
    size_add f.operands args
  have hnew : ((f.newValue b op ty args payload).2.value f.values.size).span = ⟨f.operands.size, args.length⟩ := by
    rw [value_newValue_new]
    rfl
  refine h.relocate f.values.size (by omega) (fun v hv hne => ?_) (by rw [hnew, hpool]) fun v hv _ => ?_
  · rw [values_size_newValue] at hv
    have hlt : v < f.values.size := by omega
    rw [value_newValue_old f b op ty args payload hlt]
    exact ⟨hlt, rfl⟩
  · rw [hnew]
    exact .inl (h.in_pool v hv)

end NewValue

theorem Spans.args_setArg_self (h : f.Spans) (hv : v < f.values.size)
    (hi : i < (f.args v).length) (a : ValueId) : (f.setArg v i a).args v = (f.args v).set i a := by
  rw [h.args_length hv] at hi
  exact read_write_self _ _ i a (h.in_pool v hv) hi

theorem Spans.args_setArg_other (h : f.Spans) (hv : v < f.values.size)
    (hi : i < (f.args v).length) (a : ValueId) (hne : w ≠ v) : (f.setArg v i a).args w = f.args w := by
  rw [h.args_length hv] at hi
  by_cases hw : w < f.values.size
  · apply read_write_other _ _ _ _ _ (h.in_pool w hw)
    rcases h.apart w v hw hv hne with hle | hle <;> omega
  · rw [args_eq_nil _ (by exact not_lt.mp hw), args_eq_nil _ (by exact not_lt.mp hw)]

theorem Spans.setArg (h : f.Spans) (v : ValueId) (i : Nat) (a : ValueId) : (f.setArg v i a).Spans :=
  h.congr rfl (fun _ => rfl) (size_write ..)

theorem Spans.modifyBlock (h : f.Spans) (b : BlockId) (g : Block → Block) : (f.modifyBlock b g).Spans :=
  ⟨h.in_pool, h.apart⟩

section SetArgs

variable (h : f.Spans) (hv : v < f.values.size) (args : List ValueId)

theorem value_setArgs_other (f : Func) (args : List ValueId) (hw : w ≠ v) : (f.setArgs v args).value w = f.value w :=
  (value_modifyValue f v w _).trans (if_neg fun hvw => hw hvw.1.symm)

include h hv

theorem Spans.setArgs : (f.setArgs v args).Spans ∧ (f.setArgs v args).args v = args ∧
    ∀ w, w ≠ v → (f.setArgs v args).args w = f.args w := by
  have hsize : (f.setArgs v args).values.size = f.values.size := values_size_modifyValue f v _
  have hself : ((f.setArgs v args).value v).span = (f.operands.replace (f.value v).span args).1 :=
    congrArg Value.span ((value_modifyValue f v v _).trans (if_pos ⟨rfl, hv⟩))
  obtain ⟨hread, hpool, hend, hplace, hkept⟩ := replace_spec args (h.in_pool v hv)
  refine ⟨h.relocate v hpool (fun w hw hne => ⟨hsize ▸ hw, ?_⟩) (hself ▸ hend) fun w hw hne => ?_,
    (congrArg _ hself).trans hread, fun w hne => ?_⟩
  · rw [value_setArgs_other f args hne]
  · rw [hself]
    rcases hplace with heq | hle
    · rw [heq]
      exact h.apart w v hw hv hne
    · exact .inl ((h.in_pool w hw).trans hle)
  · by_cases hw : w < f.values.size
    · rw [Func.args, value_setArgs_other f args hne]
      exact hkept _ (h.in_pool w hw) (h.apart v w hv hw hne.symm)
    · have hle := not_lt.mp hw
      rw [args_eq_nil _ (hsize.trans_le hle), args_eq_nil f hle]

end SetArgs

theorem dataArgs_front (f : Func) (v : ValueId) : f.dataArgs v <+: f.args v := by
  rw [dataArgs]
  split
  · exact nil_prefix
  · split
    · exact dropLast_prefix _
    · exact List.prefix_refl _

theorem getElem?_dataArgs {k : Nat} (hk : k < (f.dataArgs v).length) : (f.dataArgs v)[k]? = (f.args v)[k]? := by
  obtain ⟨rest, hrest⟩ := f.dataArgs_front v
  rw [← hrest, getElem?_append_left hk]

/-- A change of the operands of a value, or a new value, which may be listed in its block. -/
inductive Edit where
  | newValue (listed : Bool) (b : BlockId) (op : Op) (ty : TypeId) (args : List ValueId) (payload : Payload)
  | setArg (v : ValueId) (i : Nat) (a : ValueId)
  | setArgs (v : ValueId) (args : List ValueId)

namespace Edit

def apply (f : Func) : Edit → Func
  | newValue true b op ty args payload => (f.appendValue b op ty args payload).2
  | newValue false b op ty args payload => (f.newValue b op ty args payload).2
  | setArg v i a => f.setArg v i a
  | setArgs v args => f.setArgs v args

/-- A value exists before its operands are changed, and the operand that is written is one of them. -/
def Fits (f : Func) : Edit → Prop
  | newValue .. => True
  | setArg v i _ => v < f.values.size ∧ i < (f.args v).length
  | setArgs v _ => v < f.values.size

def target (f : Func) : Edit → ValueId
  | newValue .. => f.values.size
  | setArg v _ _ | setArgs v _ => v

/-- The operands that the target is given. -/
def given (f : Func) : Edit → List ValueId
  | newValue _ _ _ _ args _ | setArgs _ args => args
  | setArg v i a => (f.args v).set i a

end Edit

/-- A function without values, edited any number of times. -/
inductive Edited : Func → Prop
  | start {f : Func} (h : f.values = #[]) : Edited f
  | edit {f : Func} (h : Edited f) {e : Edit} (he : e.Fits f) : Edited (e.apply f)

theorem Spans.edit (h : f.Spans) {e : Edit} (he : e.Fits f) : (e.apply f).Spans ∧
    (e.apply f).args (e.target f) = e.given f ∧
    ∀ w, w ≠ e.target f → (e.apply f).value w = f.value w ∧ (e.apply f).args w = f.args w := by
  cases e with
  | newValue listed b op ty args payload =>
    have hold : ∀ w, w ≠ f.values.size → (f.newValue b op ty args payload).2.value w = f.value w ∧
        (f.newValue b op ty args payload).2.args w = f.args w := by
      intro w hw
      by_cases hlt : w < f.values.size
      · exact ⟨value_newValue_old f b op ty args payload hlt, h.args_newValue_old b op ty args payload hlt⟩
      · have hle : f.values.size ≤ w := not_lt.mp hlt
        have hle' : (f.newValue b op ty args payload).2.values.size ≤ w := by
          rw [values_size_newValue]
          omega
        rw [value_eq_default _ hle', value_eq_default f hle, args_eq_nil _ hle', args_eq_nil f hle]
        exact ⟨rfl, rfl⟩
    have hnew := args_newValue_new (f := f) b op ty args payload
    cases listed with
    | false => exact ⟨h.newValue b op ty args payload, hnew, hold⟩
    | true => exact ⟨(h.newValue b op ty args payload).modifyBlock b _, hnew, hold⟩
  | setArg v i a =>
    exact ⟨h.setArg v i a, h.args_setArg_self he.1 he.2 a, fun w hw => ⟨rfl, h.args_setArg_other he.1 he.2 a hw⟩⟩
  | setArgs v args =>
    obtain ⟨hspans, hself, hother⟩ := h.setArgs he args
    exact ⟨hspans, hself, fun w hw => ⟨value_setArgs_other f args hw, hother w hw⟩⟩

theorem Edited.spans (h : f.Edited) : f.Spans := by
  induction h with
  | start h =>
    have hnone : ∀ v, ¬v < Array.size (#[] : Array Value) := Nat.not_lt_zero
    rw [← h] at hnone
    exact ⟨fun v hv => absurd hv (hnone v), fun v _ hv => absurd hv (hnone v)⟩
  | edit _ he ih => exact (ih.edit he).1

/-- However a function came about, the operands of its values stand apart in the pool. So a change gives
its value the operands that it says, and all operands of the other values stay as they are. -/
theorem edited_isolated (f : Func) (h : f.Edited) :
    (∀ v, v < f.values.size → (f.value v).span.start + (f.value v).span.count ≤ f.operands.size) ∧
    (∀ v w, v < f.values.size → w < f.values.size → v ≠ w → (f.value v).span.Apart (f.value w).span) ∧
    ∀ e : Edit, e.Fits f → (e.apply f).args (e.target f) = e.given f ∧ ∀ w, w ≠ e.target f →
      (e.apply f).args w = f.args w ∧ (e.apply f).dataArgs w = f.dataArgs w ∧
        (e.apply f).memArg? w = f.memArg? w := by
  refine ⟨h.spans.in_pool, h.spans.apart, fun e he => ?_⟩
  obtain ⟨-, hself, hother⟩ := h.spans.edit he
  refine ⟨hself, fun w hw => ?_⟩
  obtain ⟨hvalue, hargs⟩ := hother w hw
  rw [dataArgs, dataArgs, memArg?, memArg?, hvalue, hargs]
  exact ⟨rfl, rfl, rfl⟩

/-- A list that gets longer moves to the end of the pool, and not into the operands of the next value. -/
theorem lengthened_isolated :
    let f := Edit.apply (new "" [] TypeId.void) (.newValue false 0 .neg TypeId.i32 [7] .none)
    let g := Edit.apply f (.newValue false 0 .add TypeId.i32 [8, 9] .none)
    g.Edited ∧ (g.setArgs 0 [1, 2]).args 0 = [1, 2] ∧ (g.setArgs 0 [1, 2]).args 1 = [8, 9] := by
  intro f g
  have hf : f.Edited := .edit (.start rfl) (show True from trivial)
  have hg : g.Edited := .edit hf (show True from trivial)
  obtain ⟨hself, hother⟩ := (edited_isolated g hg).2.2 (.setArgs 0 [1, 2]) (show 0 < 2 by decide)
  exact ⟨hg, hself, (hother 1 (by decide)).1⟩

end Func

end SsaCodegen
