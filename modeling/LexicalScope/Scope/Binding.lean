import LexicalScope.Pattern
import LexicalScope.Scope.Mode
import LexicalScope.Scope.Table
import LexicalScope.Tree.Walk

/-! # Binding

Each report of a walk gives a list of entries for the scope table: an owner that gets a scope, or a
name that an owner declares. `var` names go to the nearest scope that the mode allows, other
declared names to the nearest block scope, function names as the mode says, parameters and own
names to their function or class, catch parameters to their clause, and imports to the root.
-/

namespace LexicalScope

inductive Entry where
  | scope (owner : Label)
  | name (owner : Label) (name : Atom)
deriving DecidableEq

def ScopeTable.enter (t : ScopeTable) : Entry → ScopeTable
  | .scope owner => t.create owner
  | .name owner x => t.declare owner x

/-- The first of some nodes whose kind passes a test. A kind that cannot be looked up is a fault. -/
def nearest? (test : Kind → Bool) : List Node → Except Fault (Option Node)
  | [] => .ok none
  | n :: ns =>
    if n.kind = .compound then .error .notHashable
    else if test n.kind then .ok (some n)
    else nearest? test ns

namespace Binding

def declareName (owner : Label) (t : Tree) : Yield Entry :=
  .ofExcept (t.asName.map ([.name owner ·]))

def declarePattern (owner : Label) (pattern : Tree) : Yield Entry :=
  .single (.scope owner) ++ (Pattern.names pattern).flatMap (declareName owner)

/-- The scope of an owner and the name of an identifier, unless the identifier is false. -/
def declareIdentifier (owner : Label) (identifier : Tree) : Yield Entry :=
  if identifier.truthy then
    .single (.scope owner) ++
      (Yield.ofExcept ((identifier.field "name").map ([·]))).flatMap (declareName owner)
  else .empty

/-- Bind below the nearest of some nodes that passes a test, or nothing if none does. -/
def atNearest (test : Kind → Bool) (nodes : List Node) (bind : Label → Yield Entry) : Yield Entry :=
  match nearest? test nodes with
  | .error e => .fail e
  | .ok none => .empty
  | .ok (some owner) => bind owner.label

def declarator (owner : Label) (t : Tree) : Yield Entry :=
  match t.field "id" with
  | .error e => .fail e
  | .ok pattern => declarePattern owner pattern

def declarators (n : Node) (owner : Label) : Yield Entry :=
  .single (.scope owner) ++
    (Yield.ofExcept (n.get "declarations").elements).flatMap (declarator owner)

/-- The parameters of a function and then its own name. -/
def functionNames (n : Node) : Yield Entry :=
  .single (.scope n.label) ++
    (Yield.ofExcept (n.get "params").elements).flatMap (declarePattern n.label) ++
    declareIdentifier n.label (n.get "id")

def catchNames (n : Node) : Yield Entry :=
  let handler := n.get "handler"
  if handler.truthy then
    match handler with
    | .obj label fs =>
      let parameter := Node.get ⟨label, fs⟩ "param"
      if parameter.truthy then declarePattern label parameter else .empty
    | _ => .fail .notObject
  else .empty

def importName (n : Node) (root : Label) : Yield Entry :=
  .single (.scope root) ++
    (Yield.ofExcept do
      let identifier ← n.tree.field "local"
      return [← identifier.field "name"]).flatMap (declareName root)

end Binding

open Binding

def Event.entries (mode : ScopeMode) (e : Event) : Yield Entry :=
  match e.kind with
  | .variableDeclaration =>
    atNearest (if (e.node.get "kind").isText "var" then mode.isVarScope else Kind.isBlockScope)
      (e.node :: e.outer) (declarators e.node)
  | .functionDeclaration =>
    atNearest mode.isFunctionNameScope e.outer (declareIdentifier · (e.node.get "id"))
  | .anyFunction => functionNames e.node
  | .classDeclaration => atNearest Kind.isBlockScope e.outer (declareIdentifier · (e.node.get "id"))
  | .anyClass => declareIdentifier e.node.label (e.node.get "id")
  | .tryStatement => catchNames e.node
  | .importSpecifier | .importDefaultSpecifier | .importNamespaceSpecifier =>
    importName e.node e.root.label
  | _ => .empty

def Tree.entries (t : Tree) (mode : ScopeMode) : Yield Entry :=
  t.events.flatMap (Event.entries mode)

/-- Record the declarations of a tree in a table. A fault leaves the entries made before it. -/
def bindScopes (t : Tree) (mode : ScopeMode) (table : ScopeTable) : ScopeTable × Option Fault :=
  let entries := t.entries mode
  (entries.items.foldl ScopeTable.enter table, entries.fault)

end LexicalScope
