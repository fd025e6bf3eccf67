import LexicalScope.Proofs.Binding.Exactness
import LexicalScope.Proofs.Binding.Merge

/-! # Growing scope tables

A table extends another one if its owners begin with those of the other, and the names of every
owner with those that it has in the other. Whatever is entered into a table extends it.
-/

namespace LexicalScope

/-- A set of names holds a name if one of its members has the same key. -/
def Atom.Among (x : Atom) (names : List Atom) : Prop := ∃ y ∈ names, y.key = x.key

theorem Scope.declares_eq_true {s : Scope} {x : Atom} : s.declares x = true ↔ x.Among s.locals := by
  simp [Scope.declares, Atom.Among]

namespace ScopeTable

variable {t u v : ScopeTable} {owner : Label} {x : Atom}

theorem declares_eq_true : t.declares owner x = true ↔ x.Among (t.localsOf owner) := by
  unfold declares localsOf
  cases t.get? owner with
  | none => simp [Atom.Among]
  | some s => simp [Scope.declares_eq_true]

/-- Nothing is lost from a table, and what is new comes last. -/
structure Extends (t u : ScopeTable) : Prop where
  owners : t.owners <+: u.owners
  locals : ∀ owner, t.localsOf owner <+: u.localsOf owner

namespace Extends

theorem refl (t : ScopeTable) : t.Extends t := ⟨List.prefix_rfl, fun _ => List.prefix_rfl⟩

theorem trans (h : t.Extends u) (h' : u.Extends v) : t.Extends v :=
  ⟨h.owners.trans h'.owners, fun owner => (h.locals owner).trans (h'.locals owner)⟩

theorem create (t : ScopeTable) (owner : Label) : t.Extends (t.create owner) where
  owners := by
    rw [owners_create]
    split
    · exact List.prefix_rfl
    · exact List.prefix_append _ _
  locals other := localsOf_create.symm ▸ List.prefix_rfl

theorem declare (t : ScopeTable) (owner : Label) (x : Atom) : t.Extends (t.declare owner x) where
  owners := by
    rw [owners_declare]
    exact (create t owner).owners
  locals other := by
    rw [localsOf_declare]
    split
    · next h =>
      subst h
      unfold Scope.declare
      split
      · exact List.prefix_rfl
      · exact List.prefix_append _ _
    · exact List.prefix_rfl

theorem enter (t : ScopeTable) (entry : Entry) : t.Extends (t.enter entry) := by
  cases entry with
  | scope owner => exact create t owner
  | name owner x => exact declare t owner x

theorem foldl_enter (es : List Entry) (t : ScopeTable) :
    t.Extends (es.foldl ScopeTable.enter t) := by
  induction es generalizing t with
  | nil => exact refl t
  | cons entry es ih => exact (enter t entry).trans (ih _)

end Extends

end ScopeTable

end LexicalScope
