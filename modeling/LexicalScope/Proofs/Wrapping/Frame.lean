import LexicalScope.Proofs.Binding.Function
import LexicalScope.Proofs.Binding.Owner
import LexicalScope.Proofs.Concatenation.Frame

/-! # Statements in the body of a called function

Statements may be moved from the top of a program into the body of a function that the program calls
at once. A walk through such a program reports what the statements hold, below four more nodes, and
then these nodes, which bind no names and refer to none.
-/

namespace LexicalScope

/-- The statement that calls a nameless function whose body holds some statements. -/
structure Wrapper (xs : List Tree) where
  statement : Node
  call : Node
  function : Node
  block : Node
  list : Label
  kind_statement : statement.kind = .other "ExpressionStatement"
  kind_call : call.kind = .other "CallExpression"
  kind_function : function.kind = .functionExpression ∨ function.kind = .arrowFunctionExpression
  kind_block : block.kind = .blockStatement
  expression : statement.HoldsOnly "expression" call.tree
  callee : call.HoldsOnly "callee" function.tree
  body : function.HoldsOnly "body" block.tree
  statements : block.HoldsOnly "body" (.arr list xs)
  anonymous : function.get "id" = .null
  parameterless : (function.get "params").elements = .ok []

namespace Wrapper

variable {xs : List Tree} (w : Wrapper xs) {e : Event} {around : List Node} {mode : ScopeMode}

def tree : Tree := w.statement.tree

/-- The nodes of a wrapper around its statements, innermost first. -/
def nodes : List Node := [w.block, w.function, w.call, w.statement]

theorem isFunction : w.function.kind.isFunction = true := by
  rcases w.kind_function with h | h <;> rw [h] <;> rfl

def reports : List Event := [
  ⟨.blockStatement, w.block, [w.function, w.call, w.statement]⟩,
  ⟨.anyFunction, w.function, [w.call, w.statement]⟩,
  ⟨w.function.kind, w.function, [w.call, w.statement]⟩,
  ⟨.other "CallExpression", w.call, [w.statement]⟩,
  ⟨.other "ExpressionStatement", w.statement, []⟩]

theorem events_function : w.function.tree.events =
    w.block.tree.events.map (Event.below [w.function]) ++ w.function.events [] false := by
  have typed : w.function.kind ≠ .untyped := by rcases w.kind_function with h | h <;> simp [h]
  have name : walk [w.function] ⟨w.function.get "id", true⟩ = .empty := by
    rw [w.anonymous]
    exact walk_of_node?_eq_none rfl
  have params : w.function.targets "params" = .empty := by
    rw [Node.targets, w.parameterless]
    rfl
  rw [Tree.events, walk_of_node?_eq_some (Node.node?_tree typed),
    Node.slots_of_isFunction w.isFunction, params, Yield.append_empty, Yield.flatMap_append,
    Node.target, Node.plain, Yield.flatMap_single, Yield.flatMap_single, name, Yield.empty_append,
    w.body.get, Tree.events, ← walk_append, List.nil_append]

theorem events_tree : w.tree.events =
    (Yield.collect Tree.events xs).map (Event.below w.nodes) ++ .ofList w.reports := by
  have block : w.block.tree.events = (Yield.collect Tree.events xs).map (Event.below [w.block]) ++
      .ofList [⟨.blockStatement, w.block, []⟩] := by
    rw [w.statements.events_list (by simp [Node.HasMemberSlots, Node.slots, w.kind_block])
      (by decide) (by simp [w.kind_block])]
    simp [Node.events, Node.reports, w.kind_block]
  have function : w.function.events [] false =
      .ofList [⟨.anyFunction, w.function, []⟩, ⟨w.function.kind, w.function, []⟩] := by
    rcases w.kind_function with h | h <;> simp [Node.events, Node.reports, h]
  have call : w.call.tree.events = w.function.tree.events.map (Event.below [w.call]) ++
      .ofList [⟨.other "CallExpression", w.call, []⟩] := by
    rw [w.callee.events_tree (by simp [Node.HasMemberSlots, Node.slots, w.kind_call]) (by decide)
      (by simp [w.kind_call])]
    simp [Node.events, Node.reports, w.kind_call]
  have statement : w.tree.events = w.call.tree.events.map (Event.below [w.statement]) ++
      .ofList [⟨.other "ExpressionStatement", w.statement, []⟩] := by
    rw [tree, w.expression.events_tree
      (by simp [Node.HasMemberSlots, Node.slots, w.kind_statement]) (by decide)
      (by simp [w.kind_statement])]
    simp [Node.events, Node.reports, w.kind_statement]
  rw [statement, call, w.events_function, function, block]
  simp only [Yield.map_append, Yield.map_below_below, Yield.append_assoc]
  rfl

/-- The nodes of a wrapper bind no name: at most the function gets a scope. -/
theorem entries_reports (he : e ∈ w.reports) (around : List Node) (mode : ScopeMode) :
    (e.below around).entries mode = .empty ∨
      (e.below around).entries mode = .single (.scope w.function.label) := by
  have function : Binding.functionNames w.function = .single (.scope w.function.label) := by
    simp [Binding.functionNames, w.parameterless, Yield.ofExcept, w.anonymous,
      Binding.declareIdentifier, Tree.null, Tree.truthy, Atom.truthy]
  simp only [reports, List.mem_cons, List.not_mem_nil, or_false] at he
  rcases he with rfl | rfl | rfl | rfl | rfl
  · exact .inl rfl
  · exact .inr function
  · left
    rcases w.kind_function with h | h <;> simp [Event.entries, h]
  · exact .inl rfl
  · exact .inl rfl

theorem fault_entries_reports (he : e ∈ w.reports) (around : List Node) (mode : ScopeMode) :
    ((e.below around).entries mode).fault = none := by
  rcases w.entries_reports he around mode with h | h <;> rw [h] <;> rfl

theorem not_binds_reports (he : e ∈ w.reports) {owner : Label} {x : Atom} :
    ¬ (e.below around).Binds mode owner x := by
  rw [← Event.mem_entries (w.fault_entries_reports he around mode)]
  rcases w.entries_reports he around mode with h | h <;> simp [h]

theorem refers_reports (he : e ∈ w.reports) : e.kind.refers = false := by
  simp only [reports, List.mem_cons, List.not_mem_nil, or_false] at he
  rcases he with rfl | rfl | rfl | rfl | rfl
  · rfl
  · rfl
  · rcases w.kind_function with h | h <;> simp [Kind.refers, h]
  · rfl
  · rfl

theorem kind_ne_compound : ∀ n ∈ w.nodes, n.kind ≠ .compound := by
  simp only [nodes, List.forall_mem_cons, w.kind_block, w.kind_call, w.kind_statement]
  rcases w.kind_function with h | h <;> simp [h]

theorem hosts (mode : ScopeMode) (outer : List Node) : mode.Hosts (w.nodes ++ outer) := by
  obtain ⟨var, block, function⟩ := Kind.scopes_of_isFunction w.isFunction mode
  have hm : w.function ∈ w.nodes ++ outer := by simp [nodes]
  exact ⟨⟨_, hm, var⟩, ⟨_, hm, block⟩, ⟨_, hm, function⟩⟩

theorem not_mem_labels (nodup : w.tree.labels.Nodup) :
    xs.flatMap Tree.labels ⊆ w.tree.labels ∧
      ∀ n ∈ w.nodes, n.label ∉ xs.flatMap Tree.labels := by
  obtain ⟨statement, nodup⟩ := w.expression.nodup nodup
  obtain ⟨call, nodup⟩ := w.callee.nodup nodup
  obtain ⟨function, nodup⟩ := w.body.nodup nodup
  obtain ⟨block, -⟩ := w.statements.nodup nodup
  have list : xs.flatMap Tree.labels ⊆ (Tree.arr w.list xs).labels := by
    rw [Tree.labels, Tree.labelsItems_eq]
    exact List.subset_cons_self _ _
  have inBlock := List.Subset.trans list w.statements.labels_subset
  have inFunction := List.Subset.trans inBlock w.body.labels_subset
  have inCall := List.Subset.trans inFunction w.callee.labels_subset
  refine ⟨List.Subset.trans inCall w.expression.labels_subset, ?_⟩
  simp only [nodes, List.forall_mem_cons]
  exact ⟨fun h => block (list h), fun h => function (inBlock h), fun h => call (inFunction h),
    fun h => statement (inCall h), by simp⟩

theorem mem_places {l : Label} {i : Nat} {r : Pointer} {u : Tree} :
    (l, .key "expression" :: .key "callee" :: .key "body" :: .key "body" :: .index i :: r, u) ∈
      w.tree.places [] ↔ ∃ x, xs[i]? = some x ∧ (l, r, u) ∈ x.places [] := by
  rw [tree, w.expression.mem_places, w.callee.mem_places, w.body.mem_places,
    w.statements.mem_places, Tree.mem_places_arr]

end Wrapper

end LexicalScope
