import Lob.Book.Simulation

/-!
# Executing an order in two parts

An execution that leaves a part of an order, and a second one that takes from that part, leave the same
book as one execution of both quantities: not only the same queues, the same cells. Where the second
one takes all that is left, the node that the first one made smaller is freed like the node it was.
-/

namespace Lob

open Basis

namespace OrderBook

variable {b c : OrderBook} {order : NodePtr} {o : OrderNode} {level : LevelPtr} {l : PriceLevel}
  {id : OrderId} {side : Side} {price : Price} {k k₁ k₂ : Quantity} {nodes : Map NodePtr OrderNode}

/-! ## Steps that do not look at the nodes -/

theorem indexRemove_nodes (run : (indexRemove side price).run b = .ok () c)
    (nodes : Map NodePtr OrderNode) :
    (indexRemove side price).run { b with nodes := nodes } = .ok () { c with nodes := nodes } ∧
      c.nodes = b.nodes ∧ c.orders = b.orders := by
  unfold indexRemove at run ⊢
  cases hremove : (b.indices side).remove price with
  | error fault =>
    have read : (observe fun b : OrderBook => (b.indices side).remove price).run b =
        .error fault b := observe_error hremove
    rw [run_bind_error read] at run
    cases run
  | ok ix =>
    have read (nodes : Map NodePtr OrderNode) :
        (observe fun b : OrderBook => (b.indices side).remove price).run { b with nodes := nodes } =
          .ok ix { b with nodes := nodes } := observe_ok hremove
    rw [run_bind_ok (read b.nodes)] at run
    rw [run_bind_ok (read nodes)]
    cases run
    exact ⟨rfl, rfl, rfl⟩

theorem eraseLevel_nodes (run : (eraseLevel side price).run b = .ok () c)
    (nodes : Map NodePtr OrderNode) :
    (eraseLevel side price).run { b with nodes := nodes } = .ok () { c with nodes := nodes } ∧
      c.nodes = b.nodes ∧ c.orders = b.orders := by
  change EStateM.Result.ok () _ = _ at run
  show EStateM.Result.ok () _ = _ ∧ _
  cases hlevel : (b.levels side).lookup price with
  | none =>
    simp only [hlevel] at run ⊢
    cases run
    exact ⟨rfl, rfl, rfl⟩
  | some p =>
    simp only [hlevel] at run ⊢
    cases run
    exact ⟨rfl, rfl, rfl⟩

/-- The node that is freed may be any. -/
theorem eraseOrder_nodes (hid : b.orders.lookup id = some order)
    (hnodes : nodes.erase order = b.nodes.erase order) :
    (eraseOrder id).run { b with nodes := nodes } = (eraseOrder id).run b := by
  show EStateM.Result.ok () _ = EStateM.Result.ok () _
  simp only [hid, hnodes]

/-- The end of `erase_node`, from where the order is unlinked. -/
theorem settle_nodes {d : Prop} [Decidable d] (hid : b.orders.lookup id = some order)
    (hnodes : nodes.erase order = b.nodes.erase order)
    (run : (if d then do indexRemove side price; eraseLevel side price; eraseOrder id
      else eraseOrder id).run b = .ok () c) :
    (if d then do indexRemove side price; eraseLevel side price; eraseOrder id
      else eraseOrder id).run { b with nodes := nodes } = .ok () c := by
  by_cases hd : d
  · rw [if_pos hd] at run ⊢
    obtain ⟨_, b₁, run₁, run⟩ := of_run_bind_ok run
    obtain ⟨_, b₂, run₂, run₃⟩ := of_run_bind_ok run
    obtain ⟨run₁', hn₁, ho₁⟩ := indexRemove_nodes run₁ nodes
    obtain ⟨run₂', hn₂, ho₂⟩ := eraseLevel_nodes run₂ nodes
    rw [run_bind_ok run₁', run_bind_ok run₂', eraseOrder_nodes, run₃]
    · rw [ho₂, ho₁]
      exact hid
    · rw [hn₂, hn₁]
      exact hnodes
  · rw [if_neg hd] at run ⊢
    rw [eraseOrder_nodes hid hnodes, run]

/-! ## A reduction in place -/

/-- The book in which the order and its level have `k` shares less. -/
def reduced (b : OrderBook) (order : NodePtr) (o : OrderNode) (level : LevelPtr) (l : PriceLevel)
    (k : Quantity) : OrderBook :=
  { b with
    nodes := b.nodes.insert order { o with quantity := o.quantity - k }
    cells := b.cells.insert level { l with quantity := l.quantity - k.setWidth 64 } }

theorem reduced_lookup (n : NodePtr) : (b.reduced order o level l k).nodes.lookup n =
    if n = order then some { o with quantity := o.quantity - k } else b.nodes.lookup n :=
  lookup_insert_ite _ _ _ _

theorem setWidth_add (h : k₁.toNat + k₂.toNat < 2 ^ 32) :
    (k₁ + k₂).setWidth 64 = k₁.setWidth 64 + k₂.setWidth 64 := by
  apply BitVec.eq_of_toNat_eq
  rw [BitVec.toNat_setWidth, BitVec.toNat_add, BitVec.toNat_add, BitVec.toNat_setWidth,
    BitVec.toNat_setWidth]
  omega

/-- Two reductions are one. -/
theorem reduced_reduced (h : k₁.toNat + k₂.toNat < 2 ^ 32) :
    (b.reduced order o level l k₁).reduced order { o with quantity := o.quantity - k₁ } level
        { l with quantity := l.quantity - k₁.setWidth 64 } k₂ =
      b.reduced order o level l (k₁ + k₂) := by
  unfold reduced
  simp only [Finmap.insert_insert, BitVec.sub_sub, setWidth_add h]

/-- `cancel` of a part of an order. -/
theorem cancel_part (hid : b.orders.lookup id = some order) (ho : b.nodes.lookup order = some o)
    (hlevel : o.level = some level) (hl : b.cells.lookup level = some l) (hpos : k ≠ 0)
    (hk : k < o.quantity) : (cancel id k).run b = .ok true (b.reduced order o level l k) := by
  have hlt : k.toNat < o.quantity.toNat := hk
  rw [cancel_run hid ho, if_neg (by rintro (hzero | hgt); exacts [hpos hzero, by bv_omega]),
    if_neg (by rintro rfl; omega)]
  have run₁ : (modifyNode order fun o => { o with quantity := o.quantity - k }).run b =
      .ok () { b with nodes := b.nodes.insert order { o with quantity := o.quantity - k } } := by
    rw [modifyNode_run, ho]
  rw [run_bind_ok run₁, run_bind_ok (observe_ok (by rw [hlevel]; rfl)), EStateM.run_bind,
    modifyLevel_run, hl]
  rfl

/-- Two books that are rewired alike, one of them after the reduction, differ in the node of the
order. -/
theorem Rewires.reduced {b₁ b₂ : OrderBook} {g : NodePtr → OrderNode → OrderNode} {l₁ l₂ : PriceLevel}
    (r₁ : Rewires b b₁ g level l₁) (r₂ : Rewires (b.reduced order o level l k) b₂ g level l₂)
    (hlevel : l₂ = l₁) :
    b₂ = { b₁ with nodes := b₂.nodes } ∧ b₂.nodes.erase order = b₁.nodes.erase order ∧
      b₂.cells = b₁.cells := by
  have hcells : b₂.cells = b₁.cells := by
    rw [r₁.cells, r₂.cells, hlevel]
    exact Finmap.insert_insert _
  refine ⟨?_, Finmap.ext_lookup fun n => ?_, hcells⟩
  · obtain ⟨nodes₁, cells₁, levels₁, indices₁, orders₁⟩ := b₁
    obtain ⟨nodes₂, cells₂, levels₂, indices₂, orders₂⟩ := b₂
    obtain rfl : cells₂ = cells₁ := hcells
    obtain rfl : levels₂ = levels₁ := r₂.levels.trans r₁.levels.symm
    obtain rfl : indices₂ = indices₁ := r₂.indices.trans r₁.indices.symm
    obtain rfl : orders₂ = orders₁ := r₂.orders.trans r₁.orders.symm
    rfl
  · rw [lookup_erase_ite, lookup_erase_ite]
    split_ifs with hn
    · rfl
    · rw [r₁.nodes, r₂.nodes, reduced_lookup, if_neg hn]

/-- `erase_node` frees an order with fewer shares like the order itself. -/
theorem eraseNode_reduced {q : Queues NodePtr} (h : Layout b q none) (hmem : order ∈ q side price)
    (hid : b.orders.lookup id = some order) (ho : b.nodes.lookup order = some o)
    (hlevel : o.level = some level) (hl : b.cells.lookup level = some l) (hk : k ≤ o.quantity)
    (run : (eraseNode id order).run b = .ok () c) :
    (eraseNode id order).run (b.reduced order o level l k) = .ok () c := by
  obtain ⟨hprevious, hnext⟩ := h.neighbours hmem ho
  have ho' : (b.reduced order o level l k).nodes.lookup order =
      some { o with quantity := o.quantity - k } := by
    rw [reduced_lookup, if_pos rfl]
  have hl' : (b.reduced order o level l k).cells.lookup level =
      some { l with quantity := l.quantity - k.setWidth 64 } := Finmap.lookup_insert _
  have hfound {n : NodePtr} (hn : ∃ on, b.nodes.lookup n = some on) :
      ∃ on, (b.reduced order o level l k).nodes.lookup n = some on := by
    rw [reduced_lookup]
    split_ifs
    · exact ⟨_, rfl⟩
    · exact hn
  obtain ⟨b₁, run₁, r₁⟩ := unlink_run (k := o.quantity.setWidth 64) hl ho hprevious hnext
  obtain ⟨b₂, run₂, r₂⟩ := unlink_run (k := (o.quantity - k).setWidth 64) hl' ho'
    (fun p e => ⟨(hprevious p e).1, hfound (hprevious p e).2⟩) fun n e => hfound (hnext n e)
  obtain ⟨heq, hnodes, hcells⟩ := r₁.reduced r₂ (by rw [setWidth_sub hk]; congr 1; bv_omega)
  have hid₁ : b₁.orders.lookup id = some order := by rw [r₁.orders, hid]
  have hl₂ : b₂.cells.lookup level = b₁.cells.lookup level := by rw [hcells]
  rw [r₁.lookup_level] at hl₂
  unfold eraseNode at run ⊢
  rw [run_bind_ok (readNode_ok ho), run_bind_ok (observe_ok (by rw [hlevel]; rfl)),
    run_bind_bind_ok run₁, run_bind_ok (readLevel_ok r₁.lookup_level)] at run
  rw [run_bind_ok (readNode_ok ho'), run_bind_ok (observe_ok (by rw [hlevel]; rfl)),
    run_bind_bind_ok run₂, run_bind_ok (readLevel_ok hl₂), heq]
  exact settle_nodes hid₁ hnodes run

/-- `cancel` of all of an order. -/
theorem cancel_all (hid : b.orders.lookup id = some order) (ho : b.nodes.lookup order = some o)
    (hpos : o.quantity ≠ 0) (run : (eraseNode id order).run b = .ok () c) :
    (cancel id o.quantity).run b = .ok true c := by
  rw [cancel_run hid ho, if_neg (by rintro (hzero | hgt); exacts [hpos hzero, by bv_omega]),
    if_pos rfl, run_bind_ok run]
  rfl

/-- **Two parts of an order** are executed like their sum. -/
theorem execute_parts {r : ReferenceBook} (h : Represents b r) {ref : ReferenceOrder}
    (hr : r.orders.lookup id = some ref) (hpos₁ : k₁ ≠ 0) (hpos₂ : k₂ ≠ 0)
    (hsum : k₁.toNat + k₂.toNat ≤ ref.quantity.toNat) :
    ∃ b₁ b₂, (execute id k₁).run b = .ok true b₁ ∧ (execute id k₂).run b₁ = .ok true b₂ ∧
      (execute id (k₁ + k₂)).run b = .ok true b₂ := by
  obtain ⟨q, order, o, hlay, hix, hag, hid, ro, hmem, rfl, rfl⟩ := h.lookup hr
  obtain ⟨level, l, hlev, hl, _⟩ := hlay.level_of_mem hmem
  have hlevel : o.level = some level := ro.level.trans hlev
  change k₁.toNat + k₂.toNat ≤ o.quantity.toNat at hsum
  have hlt₁ : k₁ < o.quantity := by bv_omega
  have ho' : (b.reduced order o level l k₁).nodes.lookup order =
      some { o with quantity := o.quantity - k₁ } := by
    rw [reduced_lookup, if_pos rfl]
  have hl' : (b.reduced order o level l k₁).cells.lookup level =
      some { l with quantity := l.quantity - k₁.setWidth 64 } := Finmap.lookup_insert _
  have hid' : (b.reduced order o level l k₁).orders.lookup o.id = some order := hid
  have run₁ := cancel_part hid ro.node hlevel hl hpos₁ hlt₁
  by_cases hall : k₂ = o.quantity - k₁
  · obtain ⟨c, run, _⟩ := eraseNode_ok hlay hix hag hid ro hmem
    have hwhole : k₁ + k₂ = o.quantity := by bv_omega
    refine ⟨_, c, run₁, ?_, ?_⟩
    · rw [hall]
      exact cancel_all hid' ho' (hall ▸ hpos₂)
        (eraseNode_reduced hlay hmem hid ro.node hlevel hl (BitVec.le_of_lt hlt₁) run)
    · rw [hwhole]
      exact cancel_all hid ro.node ro.positive run
  · have hlt₂ : k₂ < o.quantity - k₁ := by bv_omega
    refine ⟨_, _, run₁, cancel_part hid' ho' hlevel hl' hpos₂ hlt₂, ?_⟩
    rw [reduced_reduced (lt_of_le_of_lt hsum o.quantity.isLt)]
    exact cancel_part hid ro.node hlevel hl (by bv_omega) (by bv_omega)

end OrderBook

end Lob
