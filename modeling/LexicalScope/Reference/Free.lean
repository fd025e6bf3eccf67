import LexicalScope.Position
import LexicalScope.Scope.Table
import LexicalScope.Tree.Walk

/-! # Free references

A reference is free when no node of its chain declares its name. `undefined` is never free,
`arguments` is bound by every function that is no arrow, and `this` by such a function or by the
class field whose initializer holds it. Identifiers that a declarator declares are no references.
-/

namespace LexicalScope

structure FreeReference where
  name : Tree
  node : Tree
  /-- The chain from the root to the node itself. -/
  chain : List Tree

namespace FreeReference

def parent? (r : FreeReference) : Option Tree := r.chain.dropLast.getLast?

def position (r : FreeReference) : Except Fault Position := r.node.position

end FreeReference

namespace ScopeTable

/-- Whether a node binds a name, by declaring it or by having `arguments` of its own. -/
def binds (t : ScopeTable) (name : Atom) (n : Node) : Bool :=
  (decide (name = .str "arguments") && n.kind.declaresArguments) || t.declares n.label name

/-- Whether a chain binds a name. What is no name cannot be looked up where there is a scope. -/
def captures (t : ScopeTable) (chain : List Node) : Tree → Except Fault Bool
  | .atom name => .ok (decide (name = .str "undefined") || chain.any (t.binds name))
  | _ => if chain.any fun n => (t.get? n.label).isSome then .error .notHashable else .ok false

end ScopeTable

/-- Whether the pattern around a target, if there is one, stands in a declarator. -/
def insideDeclarator : List Node → Except Fault Bool
  | [] => .ok false
  | n :: ns =>
    if n.kind = .compound then .error .notHashable
    else if n.kind.isPattern then insideDeclarator ns
    else .ok (n.kind == .variableDeclarator)

/-- Whether some node of a chain, from the root on, binds `this`. -/
def bindsThis : List Node → Except Fault Bool
  | [] => .ok false
  | n :: ns =>
    if n.kind = .compound then .error .notHashable
    else if n.kind.declaresArguments then .ok true
    else if n.kind == .propertyDefinition &&
      ns.head?.any fun m => (n.get "value").label? == some m.label
    then .ok true
    else bindsThis ns

namespace Event

def occurrence (e : Event) (name : Tree) : FreeReference :=
  ⟨name, e.node.tree, e.chain.map Node.tree⟩

def freeIdentifier (table : ScopeTable) (e : Event) : Yield FreeReference :=
  .ofExcept do
    let name ← e.node.tree.field "name"
    if ← table.captures e.chain name then return []
    return [e.occurrence name]

def freeThis (e : Event) : Yield FreeReference :=
  .ofExcept do
    if ← bindsThis e.chain then return []
    return [e.occurrence (.str "this")]

def free (table : ScopeTable) (e : Event) : Yield FreeReference :=
  match e.kind with
  | .identifier => e.freeIdentifier table
  | .variablePattern =>
    match insideDeclarator e.outer with
    | .error fault => .fail fault
    | .ok true => .empty
    | .ok false => e.freeIdentifier table
  | .thisExpression => e.freeThis
  | _ => .empty

end Event

/-- The free references of a tree in the order of the walk. -/
def freeReferences (t : Tree) (table : ScopeTable) : Except Fault (List FreeReference) :=
  (t.events.flatMap (Event.free table)).toExcept

end LexicalScope
