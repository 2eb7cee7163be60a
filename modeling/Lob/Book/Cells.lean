import Lob.Book.OrderBook
import Lob.Basis.Chain

/-!
# What the list operations do to the cells

Every list operation rewrites nodes in place and ends with one level cell changed: `Rewires` says
so, with the rewriting as a function of the node's address. Its instances compose, and `append_run`
and `unlink_run` are the compositions for `append`, and for `detach` with the quantity update that
precedes it.
-/

namespace Lob

open Basis

namespace OrderBook

section Primitives

variable (b : OrderBook) (p : NodePtr) (level : LevelPtr)

theorem readNode_run : (readNode p).run b =
    match b.nodes.lookup p with
    | some o => .ok o b
    | none => .error .badAccess b := by
  cases h : b.nodes.lookup p with
  | none => exact observe_error (by rw [h]; rfl)
  | some o => exact observe_ok (by rw [h]; rfl)

theorem readLevel_run : (readLevel level).run b =
    match b.cells.lookup level with
    | some l => .ok l b
    | none => .error .badAccess b := by
  cases h : b.cells.lookup level with
  | none => exact observe_error (by rw [h]; rfl)
  | some l => exact observe_ok (by rw [h]; rfl)

theorem readNode_ok {b : OrderBook} {p : NodePtr} {o : OrderNode} (h : b.nodes.lookup p = some o) :
    (readNode p).run b = .ok o b := by
  rw [readNode_run, h]

theorem readLevel_ok {b : OrderBook} {level : LevelPtr} {l : PriceLevel}
    (h : b.cells.lookup level = some l) : (readLevel level).run b = .ok l b := by
  rw [readLevel_run, h]

theorem modifyNode_run (f : OrderNode → OrderNode) : (modifyNode p f).run b =
    match b.nodes.lookup p with
    | some o => .ok () { b with nodes := b.nodes.insert p (f o) }
    | none => .error .badAccess b := by
  unfold modifyNode
  rw [EStateM.run_bind, readNode_run]
  cases b.nodes.lookup p <;> rfl

theorem modifyLevel_run (f : PriceLevel → PriceLevel) : (modifyLevel level f).run b =
    match b.cells.lookup level with
    | some l => .ok () { b with cells := b.cells.insert level (f l) }
    | none => .error .badAccess b := by
  unfold modifyLevel
  rw [EStateM.run_bind, readLevel_run]
  cases b.cells.lookup level <;> rfl

end Primitives

/-- `b'` is `b` with every node rewritten by `g` and the level cell now `l'`. -/
structure Rewires (b b' : OrderBook) (g : NodePtr → OrderNode → OrderNode) (level : LevelPtr)
    (l' : PriceLevel) : Prop where
  levels : b'.levels = b.levels
  indices : b'.indices = b.indices
  orders : b'.orders = b.orders
  cells : b'.cells = b.cells.insert level l'
  nodes : ∀ n, b'.nodes.lookup n = (b.nodes.lookup n).map (g n)

section Rewires

variable {b b₁ b₂ : OrderBook} {g h : NodePtr → OrderNode → OrderNode} {level : LevelPtr}
  {l l₁ l₂ : PriceLevel}

theorem Rewires.trans (h₁ : Rewires b b₁ g level l₁) (h₂ : Rewires b₁ b₂ h level l₂) :
    Rewires b b₂ (fun n o => h n (g n o)) level l₂ where
  levels := h₂.levels.trans h₁.levels
  indices := h₂.indices.trans h₁.indices
  orders := h₂.orders.trans h₁.orders
  cells := by rw [h₂.cells, h₁.cells, Finmap.insert_insert]
  nodes n := by rw [h₂.nodes, h₁.nodes, Option.map_map]; rfl

theorem Rewires.lookup_level (h₁ : Rewires b b₁ g level l₁) :
    b₁.cells.lookup level = some l₁ := by
  rw [h₁.cells, Finmap.lookup_insert]

theorem Rewires.lookup_node (h₁ : Rewires b b₁ g level l₁) {n : NodePtr} {o : OrderNode}
    (ho : b.nodes.lookup n = some o) : b₁.nodes.lookup n = some (g n o) := by
  rw [h₁.nodes, ho]; rfl

theorem Rewires.congr (h₁ : Rewires b b₁ g level l₁)
    (e : ∀ n o, b.nodes.lookup n = some o → h n o = g n o) : Rewires b b₁ h level l₁ where
  levels := h₁.levels
  indices := h₁.indices
  orders := h₁.orders
  cells := h₁.cells
  nodes n := by
    rw [h₁.nodes]
    cases hn : b.nodes.lookup n with
    | none => rfl
    | some o => rw [Option.map_some, Option.map_some, e n o hn]

theorem modifyNode_rewires {p : NodePtr} {o : OrderNode} (f : OrderNode → OrderNode)
    (hl : b.cells.lookup level = some l) (ho : b.nodes.lookup p = some o) :
    ∃ b', (modifyNode p f).run b = .ok () b' ∧
      Rewires b b' (fun n o => if n = p then f o else o) level l := by
  refine ⟨{ b with nodes := b.nodes.insert p (f o) }, by rw [modifyNode_run, ho],
    rfl, rfl, rfl, (insert_self hl).symm, fun n => ?_⟩
  rw [lookup_insert_ite]
  split_ifs with e
  · rw [e, ho]; rfl
  · rw [Option.map_id']

theorem modifyLevel_rewires (f : PriceLevel → PriceLevel) (hl : b.cells.lookup level = some l) :
    ∃ b', (modifyLevel level f).run b = .ok () b' ∧ Rewires b b' (fun _ o => o) level (f l) :=
  ⟨{ b with cells := b.cells.insert level (f l) }, by rw [modifyLevel_run, hl],
    rfl, rfl, rfl, rfl, fun _ => by rw [Option.map_id']⟩

theorem linkForward_rewires {p : Option NodePtr} (target : Option NodePtr)
    (hl : b.cells.lookup level = some l)
    (hp : ∀ q, p = some q → ∃ o, b.nodes.lookup q = some o) :
    ∃ b', (linkForward level p target).run b = .ok () b' ∧
      Rewires b b' (fun n o => if p = some n then { o with next := target } else o) level
        { l with head := if p = none then target else l.head } := by
  cases p with
  | none => simpa [linkForward] using modifyLevel_rewires (fun l => { l with head := target }) hl
  | some q =>
    obtain ⟨o, ho⟩ := hp q rfl
    simpa [linkForward, eq_comm] using modifyNode_rewires (fun o => { o with next := target }) hl ho

theorem linkBackward_rewires {p : Option NodePtr} (target : Option NodePtr)
    (hl : b.cells.lookup level = some l)
    (hp : ∀ q, p = some q → ∃ o, b.nodes.lookup q = some o) :
    ∃ b', (linkBackward level p target).run b = .ok () b' ∧
      Rewires b b' (fun n o => if p = some n then { o with previous := target } else o) level
        { l with tail := if p = none then target else l.tail } := by
  cases p with
  | none => simpa [linkBackward] using modifyLevel_rewires (fun l => { l with tail := target }) hl
  | some q =>
    obtain ⟨o, ho⟩ := hp q rfl
    simpa [linkBackward, eq_comm] using
      modifyNode_rewires (fun o => { o with previous := target }) hl ho

end Rewires

/-! ## The two list operations -/

/-- The nodes after `append`: the order takes its place behind the tail. -/
def appended (level : LevelPtr) (order : NodePtr) (tail : Option NodePtr) (n : NodePtr)
    (o : OrderNode) : OrderNode :=
  { o with
    level := if n = order then some level else o.level
    previous := if n = order then tail else o.previous
    next := if tail = some n then some order else if n = order then none else o.next }

/-- The nodes after `detach`: the neighbours of the order are linked to each other. -/
def unlinked (order : NodePtr) (previous next : Option NodePtr) (n : NodePtr)
    (o : OrderNode) : OrderNode :=
  { o with
    level := if n = order then none else o.level
    previous := if n = order then none else if next = some n then previous else o.previous
    next := if n = order then none else if previous = some n then next else o.next }

variable {b : OrderBook} {level : LevelPtr} {order : NodePtr} {l : PriceLevel} {o : OrderNode}

theorem append_run (hl : b.cells.lookup level = some l) (ho : b.nodes.lookup order = some o)
    (ht : ∀ t, l.tail = some t → ∃ ot, b.nodes.lookup t = some ot) :
    ∃ b', (append level order).run b = .ok () b' ∧
      Rewires b b' (appended level order l.tail) level
        { l with
          head := if l.tail = none then some order else l.head
          tail := some order
          quantity := l.quantity + o.quantity.setWidth 64
          orderCount := l.orderCount + 1 } := by
  obtain ⟨b₁, run₁, r₁⟩ := modifyNode_rewires
    (fun o => { o with level := some level, previous := l.tail, next := none }) hl ho
  obtain ⟨b₂, run₂, r₂⟩ := linkForward_rewires (some order) r₁.lookup_level
    (fun t e => (ht t e).imp' _ fun _ h => r₁.lookup_node h)
  have r₁₂ := r₁.trans r₂
  obtain ⟨b₃, run₃, r₃⟩ := modifyLevel_rewires (fun l => { l with
    tail := some order
    quantity := l.quantity + o.quantity.setWidth 64
    orderCount := l.orderCount + 1 }) r₁₂.lookup_level
  have ho₂ := r₁₂.lookup_node ho
  refine ⟨b₃, ?_, ?_⟩
  · unfold append
    rw [EStateM.run_bind, readLevel_run, hl]
    simp only
    rw [run_bind_ok run₁, run_bind_ok run₂, EStateM.run_bind, readNode_run, ho₂]
    simp only [apply_ite OrderNode.quantity, ite_self]
    exact run₃
  · refine (r₁₂.trans r₃).congr fun n o _ => ?_
    unfold appended
    split_ifs <;> rfl

/-- The quantity update and `detach`, as `erase_node` and `modify` run them. -/
theorem unlink_run {k : BitVec 64} (hl : b.cells.lookup level = some l)
    (ho : b.nodes.lookup order = some o)
    (hp : ∀ p, o.previous = some p → p ≠ order ∧ ∃ op, b.nodes.lookup p = some op)
    (hn : ∀ n, o.next = some n → ∃ on, b.nodes.lookup n = some on) :
    ∃ b', (modifyLevel level (fun l => { l with quantity := l.quantity - k }) >>= fun _ =>
        detach level order).run b = .ok () b' ∧
      Rewires b b' (unlinked order o.previous o.next) level
        { l with
          head := if o.previous = none then o.next else l.head
          tail := if o.next = none then o.previous else l.tail
          quantity := l.quantity - k
          orderCount := l.orderCount - 1 } := by
  obtain ⟨b₁, run₁, r₁⟩ := modifyLevel_rewires (fun l => { l with quantity := l.quantity - k }) hl
  obtain ⟨b₂, run₂, r₂⟩ := linkForward_rewires o.next r₁.lookup_level
    (fun p e => (hp p e).2.imp' _ fun _ h => r₁.lookup_node h)
  have r₁₂ := r₁.trans r₂
  obtain ⟨b₃, run₃, r₃⟩ := linkBackward_rewires o.previous r₁₂.lookup_level
    (fun n e => (hn n e).imp' _ fun _ h => r₁₂.lookup_node h)
  have ho₂ : b₂.nodes.lookup order = some o := by
    rw [r₁₂.lookup_node ho, if_neg fun e => (hp order e).1 rfl]
  have r₁₃ := r₁₂.trans r₃
  obtain ⟨b₄, run₄, r₄⟩ := modifyNode_rewires
    (fun o => { o with previous := none, next := none, level := none }) r₁₃.lookup_level
    (r₁₃.lookup_node ho)
  obtain ⟨b₅, run₅, r₅⟩ := modifyLevel_rewires
    (fun l => { l with orderCount := l.orderCount - 1 }) r₄.lookup_level
  refine ⟨b₅, ?_, ?_⟩
  · rw [run_bind_ok run₁]
    unfold detach
    rw [EStateM.run_bind, readNode_run, r₁.lookup_node ho]
    simp only
    rw [run_bind_ok run₂, EStateM.run_bind, readNode_run, ho₂]
    simp only
    rw [run_bind_ok run₃, run_bind_ok run₄]
    exact run₅
  · refine ((r₁₃.trans r₄).trans r₅).congr fun n o' _ => ?_
    unfold unlinked
    split_ifs <;> rfl

end OrderBook

end Lob
