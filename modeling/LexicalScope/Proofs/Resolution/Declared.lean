import LexicalScope.Pattern
import LexicalScope.Proofs.Vocabulary.Basic
import LexicalScope.Scope.Mode

/-! # Names declared by a node

The names that a node declares, computed from what lies below it. A declaration below is hoisted to
the node unless a nearer scope of its sort stops it: functions stop `var`, and blocks and switches
stop lexical declarations too. Function names are hoisted like `var` or, in scripts that leave their
top-level names to a host, like lexical ones.
-/

namespace LexicalScope

namespace Tree

def text? : Tree → Option String
  | atom (.str s) => some s
  | _ => none

end Tree

def Pattern.texts (pattern : Tree) : List String := (names pattern).items.filterMap Tree.text?

/-- The names that some nodes of a slot give, down to the nodes at which to stop. -/
def gather (stop : Kind → Bool) (site : Node → List String) (s : Slot) : List String :=
  match _h : s.value.node? with
  | none => []
  | some n =>
    site n ++ if stop n.kind then []
      else n.slots.items.attach.flatMap fun c => gather stop site c.1
termination_by s.value.height
decreasing_by
  rw [← Tree.tree_of_node? _h]
  exact n.below_slots _ c.2

namespace Node

variable (n : Node)

/-- The names that are hoisted to a node from below it. -/
def below (stop : Kind → Bool) (site : Node → List String) : List String :=
  n.slots.items.flatMap (gather stop site)

def elements (key : String) : List Tree := (Yield.ofExcept (n.get key).elements).items

def nameIn (key : String) : List String :=
  match (n.get key).object? with
  | none => []
  | some identifier => (identifier.get "name").text?.toList

def parameterNames : List String := (n.elements "params").flatMap Pattern.texts

def declaratorNames : List String :=
  (n.elements "declarations").flatMap fun d =>
    match d.object? with
    | none => []
    | some d => Pattern.texts (d.get "id")

def variableNames : List String :=
  match n.kind with
  | .variableDeclaration => if (n.get "kind").isText "var" then n.declaratorNames else []
  | _ => []

/-- The names of a declaration of any other kind and of a class declaration. -/
def lexicalNames : List String :=
  match n.kind with
  | .variableDeclaration => if (n.get "kind").isText "var" then [] else n.declaratorNames
  | .classDeclaration => n.nameIn "id"
  | _ => []

def functionNames : List String :=
  match n.kind with
  | .functionDeclaration => n.nameIn "id"
  | _ => []

def importNames : List String :=
  match n.kind with
  | .importSpecifier | .importDefaultSpecifier | .importNamespaceSpecifier => n.nameIn "local"
  | _ => []

/-- The names that a node declares. Where names are not hoisted to the program, function names
stay in the nearest block. -/
def declares (hoists : Bool) : List String :=
  match n.kind with
  | .program =>
    n.below (fun _ => false) importNames ++ n.below Kind.isBlockLevelScope lexicalNames ++
      if hoists then n.below Kind.isFunction variableNames ++ n.below Kind.isFunction functionNames
      else []
  | .functionDeclaration | .functionExpression | .arrowFunctionExpression =>
    n.parameterNames ++ n.nameIn "id" ++ n.below Kind.isFunction variableNames ++
      n.below (if hoists then Kind.isFunction else Kind.isBlockLevelScope) functionNames ++
      n.below Kind.isBlockLevelScope lexicalNames
  | .blockStatement | .switchStatement =>
    n.below Kind.isBlockLevelScope lexicalNames ++
      if hoists then [] else n.below Kind.isBlockLevelScope functionNames
  | .classDeclaration | .classExpression => n.nameIn "id"
  | .catchClause => Pattern.texts (n.get "param")
  | _ => []

end Node

section

variable {stop : Kind → Bool} {site : Node → List String} {s : Slot} {n : Node}

theorem gather_of_node?_eq_none (h : s.value.node? = none) : gather stop site s = [] := by
  rw [gather]
  split
  · rfl
  · simp_all

theorem gather_of_node?_eq_some (h : s.value.node? = some n) :
    gather stop site s = site n ++ if stop n.kind then [] else n.below stop site := by
  rw [gather]
  split
  · simp_all
  · next m hm =>
    obtain rfl : m = n := Option.some.inj (hm.symm.trans h)
    rw [Node.below, List.flatMap_subtype (g := gather stop site) (by simp), List.unattach_attach]

end

end LexicalScope
