import LexicalScope.Proofs.Vocabulary.Success
import LexicalScope.Proofs.Walk.Below

/-! # Binding at other owners

Whether declarations can be bound does not depend on the owner that they are bound at. So what can
be bound below some nodes can be bound below any others at which it finds an owner of its sort.
-/

namespace LexicalScope

namespace Binding

variable {owner o : Label}

theorem fault_declareName {t : Tree} :
    (declareName owner t).fault = none ↔ ∃ x, t = .atom x := by
  cases t <;> simp [declareName, Tree.asName, Except.map, Yield.ofExcept]

theorem fault_declarators_owner {n : Node} :
    (declarators n owner).fault = none ↔ (declarators n o).fault = none := by
  have each (d : Tree) : (declarator owner d).fault = none ↔ (declarator o d).fault = none := by
    unfold declarator
    cases d.field "id" with
    | error e => rfl
    | ok pattern =>
      simp only [declarePattern, Yield.fault_append, Yield.fault_single, Yield.fault_flatMap,
        fault_declareName]
  simp only [declarators, Yield.fault_append, Yield.fault_single, Yield.fault_flatMap, each]

theorem fault_declareIdentifier_owner {identifier : Tree} :
    (declareIdentifier owner identifier).fault = none ↔
      (declareIdentifier o identifier).fault = none := by
  unfold declareIdentifier
  split
  · simp only [Yield.fault_append, Yield.fault_single, Yield.fault_flatMap, fault_declareName]
  · rfl

theorem fault_importName_owner {n : Node} :
    (importName n owner).fault = none ↔ (importName n o).fault = none := by
  simp only [importName, Yield.fault_append, Yield.fault_single, Yield.fault_flatMap,
    fault_declareName]

theorem fault_atNearest_of_some {test test' : Kind → Bool} {ns ns' : List Node}
    {bind : Label → Yield Entry} {m : Node} (compound : ∀ n ∈ ns, n.kind ≠ .compound)
    (compound' : ∀ n ∈ ns', n.kind ≠ .compound) (hm : ns.find? (fun m => test m.kind) = some m)
    (same : ∀ l l', (bind l).fault = none ↔ (bind l').fault = none)
    (h : (atNearest test ns bind).fault = none) : (atNearest test' ns' bind).fault = none := by
  rw [atNearest_eq test bind compound, hm] at h
  rw [atNearest_eq test' bind compound']
  cases ns'.find? fun m => test' m.kind with
  | none => rfl
  | some n => exact (same m.label n.label).mp h

end Binding

/-- Among some nodes declarations of every sort find an owner. -/
structure ScopeMode.Hosts (mode : ScopeMode) (around : List Node) : Prop where
  var : ∃ m ∈ around, mode.isVarScope m.kind = true
  block : ∃ m ∈ around, m.kind.isBlockScope = true
  function : ∃ m ∈ around, mode.isFunctionNameScope m.kind = true

theorem ScopeMode.Hosts.declaration {mode : ScopeMode} {around : List Node} (h : mode.Hosts around)
    (e : Event) : ∃ m ∈ around, (if (e.node.get "kind").isText "var" then mode.isVarScope
      else Kind.isBlockScope) m.kind = true := by
  split
  · exact h.var
  · exact h.block

theorem exists_find?_append {test : Kind → Bool} {around : List Node}
    (h : ∃ m ∈ around, test m.kind = true) (inner : List Node) :
    ∃ m, (inner ++ around).find? (fun m => test m.kind) = some m := by
  obtain ⟨m, hm, ht⟩ := h
  rw [← Option.isSome_iff_exists, List.find?_isSome]
  exact ⟨m, List.mem_append_right _ hm, ht⟩

theorem Event.fault_entries_below {mode : ScopeMode} {e : Event} {around around' : List Node}
    (hosts : mode.Hosts around) (compound : ∀ m ∈ (e.below around).path, m.kind ≠ .compound)
    (compound' : ∀ m ∈ (e.below around').path, m.kind ≠ .compound)
    (h : ((e.below around).entries mode).fault = none) :
    ((e.below around').entries mode).fault = none := by
  have outer := (List.forall_mem_cons.mp compound).2
  have outer' := (List.forall_mem_cons.mp compound').2
  unfold entries at h ⊢
  rw [kind_below, node_below] at h ⊢
  split at h <;> rename_i hk
  · obtain ⟨m, hm⟩ := exists_find?_append (hosts.declaration e) e.path
    exact Binding.fault_atNearest_of_some compound compound' hm
      (fun _ _ => Binding.fault_declarators_owner) h
  · obtain ⟨m, hm⟩ := exists_find?_append hosts.function e.outer
    exact Binding.fault_atNearest_of_some outer outer' hm
      (fun _ _ => Binding.fault_declareIdentifier_owner) h
  · exact h
  · obtain ⟨m, hm⟩ := exists_find?_append hosts.block e.outer
    exact Binding.fault_atNearest_of_some outer outer' hm
      (fun _ _ => Binding.fault_declareIdentifier_owner) h
  · exact h
  · exact h
  · exact Binding.fault_importName_owner.mp h
  · exact Binding.fault_importName_owner.mp h
  · exact Binding.fault_importName_owner.mp h
  · rfl

end LexicalScope
