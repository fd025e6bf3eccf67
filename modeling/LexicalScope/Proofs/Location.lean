import LexicalScope.Position

/-! # Well-formed locations

A location is read as far as it goes. What stands where an object is expected has to be one, or to
be absent; then the position of a node can be told.
-/

namespace LexicalScope

/-- Where a node says that it stands, it says so with objects. -/
def Node.Located (n : Node) : Prop :=
  n.get "loc" = .null ∨ ∃ l, (n.get "loc").object? = some l ∧
    (l.get "start" = .null ∨ ∃ s, (l.get "start").object? = some s)

theorem Node.Located.exists_position {n : Node} (h : n.Located) :
    ∃ p, n.tree.position = .ok p := by
  have get (m : Node) (key : String) : m.tree.get? key = .ok (m.get key) := rfl
  have missing : Tree.null.truthy = false := rfl
  simp only [Tree.position, get, bind, Except.bind, pure, Except.pure]
  rcases h with none | ⟨l, hl, start⟩
  · simp [none, missing]
  · rw [← Tree.tree_of_object? hl]
    split
    · exact ⟨_, rfl⟩
    · rw [get]
      rcases start with none | ⟨s, hs⟩
      · simp [none, missing]
      · simp only [← Tree.tree_of_object? hs, get]
        split <;> exact ⟨_, rfl⟩

end LexicalScope
