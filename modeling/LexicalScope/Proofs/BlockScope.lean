import LexicalScope.Proofs.Analysis
import LexicalScope.Proofs.Vocabulary.Check

/-! # Block scoping

The names of a `let`, `const` or class declaration attach to the nearest block, switch, function or
program around it; the head of a loop is no scope. A name that only such declarations introduce is
bound inside these constructs and free outside of them, apart from `undefined` and from the
`arguments` of functions.
-/

namespace LexicalScope

/-- A `let`, `const` or class declaration introduces a name. -/
inductive Node.Introduces (n : Node) (x : Atom) : Prop where
  | ofVariable {declarator pattern : Tree} (kind : n.kind = .variableDeclaration)
      (lexical : (n.get "kind").isText "var" = false)
      (declares : (n.get "declarations").Holds declarator)
      (target : declarator.field "id" = .ok pattern) (binds : Pattern.Binds pattern x)
  | ofClass (kind : n.kind = .classDeclaration) (named : (n.get "id").IsNamed x)

theorem Node.Introduces.kind {n : Node} {x : Atom} (h : n.Introduces x) :
    n.kind = .variableDeclaration ∨ n.kind = .classDeclaration := by
  cases h with
  | ofVariable kind => exact .inl kind
  | ofClass kind => exact .inr kind

namespace Event

variable {mode : ScopeMode} {d : Event} {owner : Label} {x : Atom} {c : Node} {target : Bool}

end Event

namespace ScopeTable

variable {t : Tree} {mode : ScopeMode} {table : ScopeTable} {x : String}

end ScopeTable

end LexicalScope
