import LexicalScope.Proofs.Binding.Exactness
import LexicalScope.Proofs.Reference.Alike
import LexicalScope.Proofs.Walk.Below

/-! # Owners along chains that look alike

Owners are found by the kinds of the nodes of a chain and known by their labels, so what a report
binds is bound at the same owners along every chain that looks alike. The owner is a node of the
chain or, where a clause catches something, lies in the reported node.
-/

namespace LexicalScope

section

variable {ns ns' : List Node}

theorem nearest?_alike (test : Kind → Bool) (h : List.Forall₂ Node.Alike ns ns') :
    (nearest? test ns').map (Option.map Node.label) =
      (nearest? test ns).map (Option.map Node.label) := by
  induction h with
  | nil => rfl
  | cons hn _ ih =>
    rw [nearest?, nearest?, hn.kind]
    split
    · rfl
    · split
      · simp [Except.map, hn.label]
      · exact ih

theorem label_getLastD_alike {n n' : Node} (hn : n.Alike n') (h : List.Forall₂ Node.Alike ns ns') :
    (ns'.getLastD n').label = (ns.getLastD n).label := by
  induction h generalizing n n' with
  | nil => exact hn.label
  | cons hm _ ih =>
    rw [List.getLastD_cons, List.getLastD_cons]
    exact ih hm

theorem Event.Alike.root_label {e e' : Event} (h : e.Alike e') : e'.root.label = e.root.label :=
  label_getLastD_alike h.node h.outer

namespace Binding

theorem atNearest_alike (test : Kind → Bool) (bind : Label → Yield Entry)
    (h : List.Forall₂ Node.Alike ns ns') : atNearest test ns' bind = atNearest test ns bind := by
  have same := nearest?_alike test h
  unfold atNearest
  cases hn : nearest? test ns with
  | error e =>
    cases hn' : nearest? test ns' with
    | error e' =>
      rw [hn, hn'] at same
      rw [Except.error.inj same]
    | ok found' => simp [hn, hn', Except.map] at same
  | ok found =>
    cases hn' : nearest? test ns' with
    | error e' => simp [hn, hn', Except.map] at same
    | ok found' =>
      rw [hn, hn'] at same
      have same : found'.map Node.label = found.map Node.label := Except.ok.inj same
      cases found <;> cases found' <;> simp_all

end Binding

end

theorem Event.entries_alike {k : Kind} {n : Node} {outer outer' : List Node} (mode : ScopeMode)
    (h : List.Forall₂ Node.Alike outer outer') :
    Event.entries mode ⟨k, n, outer'⟩ = Event.entries mode ⟨k, n, outer⟩ := by
  have path : List.Forall₂ Node.Alike (n :: outer) (n :: outer') := .cons (.refl n) h
  have root : (Event.root ⟨k, n, outer'⟩).label = (Event.root ⟨k, n, outer⟩).label :=
    label_getLastD_alike (.refl n) h
  simp only [entries, Binding.atNearest_alike _ _ path, Binding.atNearest_alike _ _ h, root]

theorem Event.entries_congr {mode mode' : ScopeMode}
    (h : mode'.hoistsToProgram = mode.hoistsToProgram) (e : Event) :
    e.entries mode' = e.entries mode := by
  have var : mode'.isVarScope = mode.isVarScope := by
    funext k
    simp only [ScopeMode.isVarScope, h]
  have function : mode'.isFunctionNameScope = mode.isFunctionNameScope := by
    funext k
    simp only [ScopeMode.isFunctionNameScope, h]
  simp only [entries, var, function]

theorem Tree.entries_congr {mode mode' : ScopeMode}
    (h : mode'.hoistsToProgram = mode.hoistsToProgram) (t : Tree) :
    t.entries mode' = t.entries mode :=
  Yield.flatMap_congr fun e _ => e.entries_congr h

theorem Nearest.mem {test : Kind → Bool} {ns : List Node} {owner : Label}
    (h : Nearest test ns owner) : ∃ n ∈ ns, n.label = owner := by
  obtain ⟨n, hn, hl⟩ := h
  exact ⟨n, List.mem_of_find?_eq_some hn, hl⟩

theorem Event.Binds.owner_mem_or_handles {mode : ScopeMode} {e : Event} {owner : Label} {x : Atom}
    (h : e.Binds mode owner x) : (∃ n ∈ e.path, n.label = owner) ∨ e.kind = .tryStatement ∧
      ∃ handler, (e.node.get "handler").object? = some handler ∧ handler.label = owner := by
  have own {l : Label} (h : e.node.label = l) : ∃ n ∈ e.path, n.label = l :=
    ⟨e.node, List.mem_cons_self, h⟩
  have around (h : ∃ n ∈ e.outer, n.label = owner) : ∃ n ∈ e.path, n.label = owner := by
    obtain ⟨n, hn, hl⟩ := h
    exact ⟨n, List.mem_cons_of_mem _ hn, hl⟩
  cases h with
  | declared _ nearest => exact .inl nearest.mem
  | function _ nearest => exact .inl (around nearest.mem)
  | parameter _ self => exact .inl (own self)
  | functionSelf _ self => exact .inl (own self)
  | classOuter _ nearest => exact .inl (around nearest.mem)
  | classSelf _ self => exact .inl (own self)
  | caught kind handles self => exact .inr ⟨kind, _, handles, self⟩
  | imported _ root =>
    left
    refine ⟨e.root, ?_, root⟩
    rw [Event.path, Event.root]
    cases e.outer using List.reverseRecOn <;> simp

theorem Event.Binds.owner_mem {mode : ScopeMode} {e : Event} {owner : Label} {x : Atom}
    (h : e.Binds mode owner x) : (∃ n ∈ e.path, n.label = owner) ∨ owner ∈ e.node.tree.labels := by
  refine h.owner_mem_or_handles.imp_right ?_
  rintro ⟨-, handler, handles, rfl⟩
  apply e.node.labels_get_subset "handler"
  rw [← Tree.tree_of_object? handles]
  exact List.mem_cons_self

end LexicalScope
