import LexicalScope.Proofs.Walk.Report

/-! # Trees made of nodes of a sort

A tree is made of nodes of a sort if every node that a walk can come to is of it. Where the slots of
such nodes can be told, and their kinds looked up, a walk runs to its end.
-/

namespace LexicalScope

inductive Tree.MadeOf (P : Node → Prop) : Tree → Prop where
  | nothing {t : Tree} (absent : t.node? = none) : MadeOf P t
  | node {t : Tree} {n : Node} (present : t.node? = some n) (sort : P n)
      (slots : ∀ c ∈ n.slots.items, MadeOf P c.value) : MadeOf P t

namespace Tree.MadeOf

variable {P Q : Node → Prop} {outer : List Node} {s : Slot} {e : Event}

theorem of_node? {t : Tree} {n : Node} (h : t.MadeOf P) (hn : t.node? = some n) :
    P n ∧ ∀ c ∈ n.slots.items, c.value.MadeOf P := by
  cases h with
  | nothing absent => simp [absent] at hn
  | node present sort slots =>
    obtain rfl := Option.some.inj (present.symm.trans hn)
    exact ⟨sort, slots⟩

theorem imp {t : Tree} (h : t.MadeOf P) (sub : ∀ n, P n → Q n) : t.MadeOf Q := by
  induction h with
  | nothing absent => exact .nothing absent
  | node present sort _ ih => exact .node present (sub _ sort) ih

theorem fault_walk (ends : ∀ n, P n → n.slots.fault = none ∧ n.kind ≠ .compound)
    (h : s.value.MadeOf P) : (walk outer s).fault = none := by
  induction s using slot_induction generalizing outer with
  | step s ih =>
    cases hn : s.value.node? with
    | none => rw [walk_of_node?_eq_none hn, Yield.fault_empty]
    | some n =>
      obtain ⟨sort, inner⟩ := h.of_node? hn
      obtain ⟨slots, typed⟩ := ends n sort
      exact (LexicalScope.fault_walk hn).mpr
        ⟨slots, typed, fun c hc => ih n hn c hc (inner c hc)⟩

theorem of_mem_walk (h : s.value.MadeOf P) (he : e ∈ (walk outer s).items) :
    e.node.tree.node? = some e.node ∧ e.node.tree.MadeOf P := by
  induction s using slot_induction generalizing outer with
  | step s ih =>
    obtain ⟨n, hn, he | ⟨c, hc, he⟩⟩ := mem_walk he
    · obtain ⟨-, -, rfl, -⟩ := Node.mem_events.mp he
      rw [Tree.tree_of_node? hn]
      exact ⟨hn, h⟩
    · exact ih n hn c hc ((h.of_node? hn).2 c hc) he

/-- Every node that a walk meets, and every one around it, is of the sort. -/
theorem path (h : s.value.MadeOf P) (ho : ∀ m ∈ outer, P m) (he : e ∈ (walk outer s).items) :
    ∀ m ∈ e.path, P m := by
  induction s using slot_induction generalizing outer with
  | step s ih =>
    obtain ⟨n, hn, he | ⟨c, hc, he⟩⟩ := mem_walk he
    · obtain ⟨-, -, rfl, rfl⟩ := Node.mem_events.mp he
      exact List.forall_mem_cons.mpr ⟨(h.of_node? hn).1, ho⟩
    · obtain ⟨sort, inner⟩ := h.of_node? hn
      exact ih n hn c hc (inner c hc) (List.forall_mem_cons.mpr ⟨sort, ho⟩) he

end Tree.MadeOf

end LexicalScope
