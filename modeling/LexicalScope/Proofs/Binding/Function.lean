import LexicalScope.Proofs.Binding.Alike
import LexicalScope.Proofs.Walk.Function

/-! # Binding inside a function

A function is a scope for declarations of every sort, so the nearest scope around what is declared
inside a function is the function or lies inside it. Only imports go further, to the root.
-/

namespace LexicalScope

theorem Kind.scopes_of_isFunction {k : Kind} (h : k.isFunction = true) (mode : ScopeMode) :
    mode.isVarScope k = true ∧ k.isBlockScope = true ∧ mode.isFunctionNameScope k = true := by
  unfold ScopeMode.isVarScope ScopeMode.isFunctionNameScope
  cases mode.hoistsToProgram <;>
    simp [isBlockScope, isScope, isFunctionScope, isBlockLevelScope, h]

def Kind.isImportSpecifier : Kind → Bool
  | importSpecifier | importDefaultSpecifier | importNamespaceSpecifier => true
  | _ => false

theorem Nearest.owner_mem {test : Kind → Bool} {inner rest : List Node} {n : Node} {owner : Label}
    (hn : test n.kind = true) (h : Nearest test (inner ++ n :: rest) owner) :
    owner = n.label ∨ ∃ m ∈ inner, m.label = owner := by
  obtain ⟨m, hm, rfl⟩ := h
  rw [List.find?_append, List.find?_cons_of_pos (p := fun m : Node => test m.kind) hn] at hm
  cases hi : inner.find? fun m => test m.kind with
  | none =>
    rw [hi, Option.none_or] at hm
    exact .inl (congrArg Node.label (Option.some.inj hm).symm)
  | some k =>
    rw [hi, Option.some_or] at hm
    obtain rfl := Option.some.inj hm
    exact .inr ⟨_, List.mem_of_find?_eq_some hi, rfl⟩

/-- What is declared in a slot of a function, imports apart, is declared at or below the function.
-/
theorem Event.Binds.owner_mem_slot {mode : ScopeMode} {e : Event} {n : Node} {around : List Node}
    {c : Slot} {owner : Label} {x : Atom} (h : e.Binds mode owner x)
    (isFunction : n.kind.isFunction = true) (he : e ∈ (walk (n :: around) c).items)
    (imports : e.kind.isImportSpecifier = false) : owner = n.label ∨ owner ∈ c.value.labels := by
  obtain ⟨inner, ho, labels⟩ := exists_inner_of_mem_walk he
  have scopes := Kind.scopes_of_isFunction isFunction mode
  have self (hl : e.node.label = owner) : owner ∈ c.value.labels := hl ▸ labels _ List.mem_cons_self
  have path {test : Kind → Bool} (hn : test n.kind = true) (h : Nearest test e.path owner) :
      owner = n.label ∨ owner ∈ c.value.labels := by
    rw [Event.path, ho, ← List.cons_append] at h
    refine (h.owner_mem hn).imp_right ?_
    rintro ⟨m, hm, rfl⟩
    exact labels m hm
  have outer {test : Kind → Bool} (hn : test n.kind = true) (h : Nearest test e.outer owner) :
      owner = n.label ∨ owner ∈ c.value.labels := by
    rw [ho] at h
    refine (h.owner_mem hn).imp_right ?_
    rintro ⟨m, hm, rfl⟩
    exact labels m (List.mem_cons_of_mem _ hm)
  cases h with
  | declared _ nearest =>
    refine path ?_ nearest
    split
    · exact scopes.1
    · exact scopes.2.1
  | function _ nearest => exact outer scopes.2.2 nearest
  | parameter _ hl => exact .inr (self hl)
  | functionSelf _ hl => exact .inr (self hl)
  | classOuter _ nearest => exact outer scopes.2.1 nearest
  | classSelf _ hl => exact .inr (self hl)
  | caught _ handles hl =>
    right
    apply labels_subset_of_mem_walk he
    apply e.node.labels_get_subset "handler"
    rw [← Tree.tree_of_object? handles, ← hl]
    exact List.mem_cons_self
  | imported kind _ _ _ =>
    rcases kind with kind | kind | kind <;> simp [kind, Kind.isImportSpecifier] at imports

theorem Event.Inside.owner_mem {function owner : Label} {mode : ScopeMode} {e : Event} {x : Atom}
    (h : e.Inside function) (imports : e.kind.isImportSpecifier = false)
    (binds : e.Binds mode owner x) :
    owner = function ∨ ∃ n ∈ e.path, n.label = function ∧ owner ∈ n.innerLabels := by
  obtain ⟨n, around, rfl, isFunction, c, hc, he⟩ := h
  obtain ⟨inner, ho, -⟩ := exists_inner_of_mem_walk he
  have hn : n ∈ e.path := by
    rw [Event.path, ho]
    exact List.mem_cons_of_mem _ (List.mem_append_right _ List.mem_cons_self)
  rcases binds.owner_mem_slot isFunction he imports with ho | ho
  · exact .inl ho
  · exact .inr ⟨n, hn, rfl, hc ho⟩

end LexicalScope
