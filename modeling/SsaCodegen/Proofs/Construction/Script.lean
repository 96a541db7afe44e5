import Mathlib.Data.List.Induction
import SsaCodegen.Proofs.Construction.Growth
import SsaCodegen.Ssa.Construction.Lowering

/-! What a block does when it runs, in the order in which it was lowered: values are computed, and nodes of
the input take effect. -/

namespace SsaCodegen

open List

/-- An event in a block: a value is computed, a local in registers is assigned or read, or another
node is done and has a value or none. -/
inductive Event where
  | value (v : ValueId)
  | store (n : Ir.NodeId) (l : Ir.LocalId) (v : ValueId)
  | load (n : Ir.NodeId) (l : Ir.LocalId) (v : ValueId)
  | node (n : Ir.NodeId) (v : Option ValueId)

namespace Event

def value? : Event → Option ValueId
  | value v => some v
  | _ => none

def node? : Event → Option Ir.NodeId
  | value _ => none
  | store n _ _ | load n _ _ | node n _ => some n

def result? : Event → Option ValueId
  | load _ _ v => some v
  | node _ v => v
  | _ => none

def assigns? (f : Func) : Var → Event → Option ValueId
  | .memory, value v => if (f.value v).op.makesMem then some v else none
  | .slot l, store _ l' v => if l' = l then some v else none
  | _, _ => none

end Event

def assigned? (f : Func) (x : Var) (es : List Event) : Option ValueId :=
  es.reverse.findSome? (Event.assigns? f x)

theorem assigned?_snoc (f : Func) (x : Var) (es : List Event) (e : Event) :
    assigned? f x (es ++ [e]) = (e.assigns? f x).or (assigned? f x es) := by
  rw [assigned?, reverse_append, reverse_singleton, singleton_append, findSome?_cons]
  cases e.assigns? f x <;> rfl

namespace Construction

variable {s s' : Construction} {b : BlockId} {es : List Event} {t : Task} {v a : ValueId}
  {e : Event}

def IsRoot (s : Construction) (a : ValueId) : Prop :=
  (s.func.value a).op = .arg ∨ (s.func.value a).op = .resultPtr ∨ (s.func.value a).op = .const

def Current (s : Construction) (b : BlockId) (es : List Event) (x : Var) (v : ValueId) : Prop :=
  match assigned? s.func x es with
  | some w => s.resolve w = s.resolve v
  | none => s.StartsWith x b v

def Avail (s : Construction) (es : List Event) (a : ValueId) : Prop :=
  a < s.func.values.size ∧ (s.IsRoot a ∨ .value a ∈ es ∨ ∃ e ∈ es, e.result? = some a)

/-- An event that may follow `es`. -/
inductive Follows (t : Task) (s : Construction) (b : BlockId) (es : List Event) : Event → Prop
  | value (v : ValueId) (lt : v < s.func.values.size) (op : (s.func.value v).op ≠ .phi)
      (data : ∀ a ∈ s.func.dataArgs v, s.Avail es a)
      (memory : (s.func.value v).op.takesMem → ∃ m, s.func.memArg? v = some m ∧ s.Current b es .memory m) :
      Follows t s b es (.value v)
  | store (n : Ir.NodeId) (l : Ir.LocalId) (x : Ir.NodeId) (v : ValueId)
      (kind : (t.ir.node n).kind = .storeLocal l x) (reg : t.memoryLocals.getD l none = none)
      (operand : ∃ e ∈ es, e.node? = some x ∧ e.result? = some v) :
      Follows t s b es (.store n l v)
  | load (n : Ir.NodeId) (l : Ir.LocalId) (v : ValueId) (kind : (t.ir.node n).kind = .loadLocal l)
      (reg : t.memoryLocals.getD l none = none) (current : s.Current b es (.slot l) v) :
      Follows t s b es (.load n l v)
  | node (n : Ir.NodeId) (v : Option ValueId)
      (load : ∀ l, (t.ir.node n).kind = .loadLocal l → t.memoryLocals.getD l none ≠ none)
      (store : ∀ l x, (t.ir.node n).kind = .storeLocal l x → t.memoryLocals.getD l none ≠ none)
      (result : ∀ u, v = some u → s.Avail es u) :
      Follows t s b es (.node n v)

/-- The events of a block. Together with their values they are all that the block computes. -/
structure Script (t : Task) (s : Construction) (b : BlockId) (es : List Event) : Prop where
  body : s.func.body b = es.filterMap Event.value?
  follows : ∀ pre e post, es = pre ++ e :: post → Follows t s b pre e
  result_lt : ∀ e ∈ es, ∀ v, e.result? = some v → v < s.func.values.size
  typed : ∀ e ∈ es, ∀ n v, e.node? = some n → e.result? = some v →
    t.types.isMemoryAggregate (t.ir.nodeType n) = false →
    (s.func.value v).ty = t.ir.nodeType n

theorem Script.value_lt (h : Script t s b es) (hv : .value v ∈ es) :
    v < s.func.values.size ∧ (s.func.value v).op ≠ .phi := by
  obtain ⟨pre, post, hsplit⟩ := append_of_mem hv
  cases h.follows pre _ post hsplit with
  | value _ lt op _ _ => exact ⟨lt, op⟩

theorem Extends.isRoot (h : Extends s s') (ha : a < s.func.values.size) (hr : s.IsRoot a) : s'.IsRoot a := by
  rw [IsRoot, h.value a ha]
  exact hr

theorem Extends.avail (h : Extends s s') (ha : s.Avail es a) : s'.Avail es a :=
  ⟨ha.1.trans_le h.size_le, ha.2.imp (h.isRoot ha.1) id⟩

theorem Avail.mono (h : s.Avail es a) {es' : List Event} (hsub : ∀ e ∈ es, e ∈ es') : s.Avail es' a := by
  refine ⟨h.1, h.2.imp id ?_⟩
  rintro (hv | ⟨e, he, hr⟩)
  · exact .inl (hsub _ hv)
  · exact .inr ⟨e, hsub e he, hr⟩

section

variable (h : Extends s s') (hlt : ∀ v, .value v ∈ es → v < s.func.values.size)

include h hlt

theorem Extends.assigned? (x : Var) : SsaCodegen.assigned? s'.func x es = SsaCodegen.assigned? s.func x es := by
  induction es using List.reverseRecOn with
  | nil => rfl
  | append_singleton es e ih =>
    have he : e.assigns? s'.func x = e.assigns? s.func x := by
      cases e with
      | value v =>
        cases x with
        | memory =>
          rw [Event.assigns?, Event.assigns?, h.value v (hlt v (mem_append_right _ mem_cons_self))]
        | slot l => rfl
      | store n l v => cases x <;> rfl
      | load n l v => cases x <;> rfl
      | node n v => cases x <;> rfl
    rw [assigned?_snoc, assigned?_snoc, he, ih fun v hv => hlt v (mem_append_left _ hv)]

theorem Extends.current {x : Var} (hc : s.Current b es x v) : s'.Current b es x v := by
  rw [Current, h.assigned? hlt]
  rw [Current] at hc
  split
  · next w hw =>
    rw [hw] at hc
    exact h.resolve_congr hc
  · next hw =>
    rw [hw] at hc
    exact h.startsWith hc

end

section

variable (h : Extends s s') (hv : v < s.func.values.size) (hop : (s.func.value v).op ≠ .phi)

include h hv hop

theorem Extends.dataArgs : s'.func.dataArgs v = s.func.dataArgs v := by
  rw [Func.dataArgs, Func.dataArgs, h.value v hv, h.args v hv hop]

theorem Extends.memArg? : s'.func.memArg? v = s.func.memArg? v := by
  rw [Func.memArg?, Func.memArg?, h.value v hv, h.args v hv hop]

end

theorem Extends.follows (h : Extends s s') (hlt : ∀ v, .value v ∈ es → v < s.func.values.size)
    (hf : Follows t s b es e) : Follows t s' b es e := by
  cases hf with
  | value v lt op data memory =>
    refine .value v (lt.trans_le h.size_le) (by rw [h.value v lt]; exact op) ?_ ?_
    · rw [h.dataArgs lt op]
      exact fun a ha => h.avail (data a ha)
    · rw [h.memArg? lt op, h.value v lt]
      intro htakes
      obtain ⟨m, hm, hcur⟩ := memory htakes
      exact ⟨m, hm, h.current hlt hcur⟩
  | store n l x v kind reg operand => exact .store n l x v kind reg operand
  | load n l v kind reg current => exact .load n l v kind reg (h.current hlt current)
  | node n v load store result => exact .node n v load store fun u hu => h.avail (result u hu)

theorem Script.extends (h : Script t s b es) (hext : Extends s s') (hbody : s'.func.body b = s.func.body b) :
    Script t s' b es where
  body := hbody.trans h.body
  follows pre e post hsplit := by
    refine hext.follows (fun v hv => (h.value_lt ?_).1) (h.follows pre e post hsplit)
    rw [hsplit]
    exact mem_append_left _ hv
  result_lt e he v hv := (h.result_lt e he v hv).trans_le hext.size_le
  typed e he n v hn hv hty := by
    rw [hext.value v (h.result_lt e he v hv)]
    exact h.typed e he n v hn hv hty

theorem Script.snoc (h : Script t s b es) (hext : Extends s s')
    (hbody : s'.func.body b = s.func.body b ++ e.value?.toList) (he : Follows t s' b es e)
    (hlt : ∀ v, e.result? = some v → v < s'.func.values.size)
    (hty : ∀ n v, e.node? = some n → e.result? = some v → t.types.isMemoryAggregate (t.ir.nodeType n) = false →
      (s'.func.value v).ty = t.ir.nodeType n) : Script t s' b (es ++ [e]) where
  body := by
    rw [hbody, h.body]
    cases hv : e.value? <;> simp [hv]
  follows pre e' post hsplit := by
    rcases eq_nil_or_concat post with rfl | ⟨post, e'', rfl⟩
    · obtain ⟨rfl, hee⟩ := append_inj' hsplit rfl
      obtain rfl := (List.cons.inj hee).1
      exact he
    · have hsplit' : es ++ [e] = (pre ++ e' :: post) ++ [e''] := by
        rw [hsplit, append_assoc, cons_append, concat_eq_append]
      obtain ⟨hes, -⟩ := append_inj' hsplit' rfl
      refine hext.follows (fun v hv => (h.value_lt ?_).1) (h.follows pre e' post hes)
      rw [hes]
      exact mem_append_left _ hv
  result_lt e' he' v hv := by
    rcases mem_append.mp he' with he' | he'
    · exact (h.result_lt e' he' v hv).trans_le hext.size_le
    · rw [mem_singleton.mp he'] at hv
      exact hlt v hv
  typed e' he' n v hn hv hagg := by
    rcases mem_append.mp he' with he' | he'
    · rw [hext.value v (h.result_lt e' he' v hv)]
      exact h.typed e' he' n v hn hv hagg
    · rw [mem_singleton.mp he'] at hn hv
      exact hty n v hn hv hagg

end Construction

end SsaCodegen
