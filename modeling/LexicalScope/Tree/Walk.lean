import LexicalScope.Tree.Slot

/-! # The walk

A walk goes depth first through the slots of a tree and reports each node after all that lies below
it. A function is reported as `anyFunction` and then under its own kind, a class likewise as
`anyClass`, and an identifier in target position as `variablePattern` only. Every report carries
the chain of nodes around it.
-/

namespace LexicalScope

structure Event where
  kind : Kind
  node : Node
  /-- The nodes around the reported one, innermost first. -/
  outer : List Node

namespace Event

/-- The chain from the root of the walk to the reported node. -/
def chain (e : Event) : List Node := (e.node :: e.outer).reverse

def root (e : Event) : Node := e.outer.getLastD e.node

end Event

namespace Node

def reports (n : Node) (target : Bool) : List Kind :=
  match n.kind with
  | .identifier => [if target then .variablePattern else .identifier]
  | .functionDeclaration => [.anyFunction, .functionDeclaration]
  | .functionExpression => [.anyFunction, .functionExpression]
  | .arrowFunctionExpression => [.anyFunction, .arrowFunctionExpression]
  | .classDeclaration => [.anyClass, .classDeclaration]
  | .classExpression => [.anyClass, .classExpression]
  | k => [k]

/-- The reports on a node itself; a node whose kind cannot be looked up breaks the walk off. -/
def events (n : Node) (outer : List Node) (target : Bool) : Yield Event :=
  if n.kind = .compound then .fail .notHashable
  else .ofList ((n.reports target).map (⟨·, n, outer⟩))

end Node

def walk (outer : List Node) (s : Slot) : Yield Event :=
  match _h : s.value.node? with
  | none => .empty
  | some n =>
    Yield.collect (fun c : { c // c ∈ n.slots.items } => walk (n :: outer) c.1) n.slots.items.attach
      ++ ⟨[], n.slots.fault⟩ ++ n.events outer s.target
termination_by s.value.height
decreasing_by
  rw [← Tree.tree_of_node? _h]
  exact n.below_slots _ c.2

theorem walk_of_node?_eq_none {outer : List Node} {s : Slot} (h : s.value.node? = none) :
    walk outer s = .empty := by
  rw [walk]
  split
  · rfl
  · simp_all

theorem walk_of_node?_eq_some {outer : List Node} {s : Slot} {n : Node}
    (h : s.value.node? = some n) :
    walk outer s = n.slots.flatMap (walk (n :: outer)) ++ n.events outer s.target := by
  rw [walk]
  split
  · simp_all
  · next m hm =>
    obtain rfl : m = n := Option.some.inj (hm.symm.trans h)
    rw [Yield.collect_attach (walk (m :: outer))]
    rfl

namespace Tree

def events (t : Tree) : Yield Event := walk [] ⟨t, false⟩

end Tree

end LexicalScope
