import LexicalScope.Tree.Node
import LexicalScope.Yield

/-! # Slots

The slots of a node are the places where a walk looks for further nodes, in the order of the walk.
Names that refer to nothing have no slot: keys of properties and members unless computed, labels,
the names in import and export specifiers, and metadata. A slot in target position holds what is
declared or assigned.
-/

namespace LexicalScope

structure Slot where
  value : Tree
  target : Bool

def metadataKeys : List String :=
  ["type", "loc", "range", "comments", "errors", "tokens", "leadingComments", "trailingComments",
    "innerComments"]

namespace Node

variable (n : Node)

def plain (key : String) : Yield Slot := .single ⟨n.get key, false⟩

def target (key : String) : Yield Slot := .single ⟨n.get key, true⟩

def plains (key : String) : Yield Slot := (Yield.ofExcept (n.get key).elements).map (⟨·, false⟩)

def targets (key : String) : Yield Slot := (Yield.ofExcept (n.get key).elements).map (⟨·, true⟩)

/-- The slot of a member that is an expression only when it is computed. -/
def computedKey (key : String) : Yield Slot :=
  if (n.get "computed").truthy then n.plain key else .empty

def propertySlots (entry : Tree) : Yield Slot :=
  match entry.node? with
  | none => .empty
  | some p =>
    if p.kind = .property then p.computedKey "key" ++ p.target "value" else p.target "argument"

/-- The slots of a member of a node whose kind has no slots of its own. -/
def memberSlots (field : String × Tree) : List Slot :=
  if metadataKeys.contains field.1 then []
  else
    match field.2 with
    | .arr _ vs => vs.map (⟨·, false⟩)
    | v => [⟨v, false⟩]

def slots : Yield Slot :=
  match n.kind with
  | .identifier | .variablePattern | .privateIdentifier | .literal | .thisExpression
  | .superExpression | .metaProperty | .templateElement | .breakStatement | .continueStatement
  | .importSpecifier | .importDefaultSpecifier | .importNamespaceSpecifier | .exportSpecifier
  | .all => .empty
  | .functionDeclaration | .functionExpression | .arrowFunctionExpression | .anyFunction =>
    n.target "id" ++ n.targets "params" ++ n.plain "body"
  | .classDeclaration | .classExpression | .anyClass =>
    n.target "id" ++ n.plain "superClass" ++ n.plain "body"
  | .variableDeclarator => n.target "id" ++ n.plain "init"
  | .catchClause => n.target "param" ++ n.plain "body"
  | .assignmentExpression | .assignmentPattern => n.target "left" ++ n.plain "right"
  | .objectPattern => (Yield.ofExcept (n.get "properties").elements).flatMap propertySlots
  | .arrayPattern => n.targets "elements"
  | .restElement => n.target "argument"
  | .property | .methodDefinition | .propertyDefinition => n.computedKey "key" ++ n.plain "value"
  | .memberExpression => n.plain "object" ++ n.computedKey "property"
  | .labeledStatement => n.plain "body"
  | .importDeclaration => n.plains "specifiers" ++ n.plain "source"
  | .exportNamedDeclaration => n.plain "declaration" ++ n.plain "source"
  | .exportAllDeclaration => n.plain "source"
  | .exportDefaultDeclaration => n.plain "declaration"
  | _ => .ofList (n.fields.flatMap memberSlots)

def Below (k : Nat) (y : Yield Slot) : Prop := ∀ s ∈ y.items, s.value.height < k

theorem below_empty (k : Nat) : Below k .empty := by simp [Below, Yield.empty]

theorem below_append {k : Nat} {p q : Yield Slot} (hp : Below k p) (hq : Below k q) :
    Below k (p ++ q) := fun s hs => (Yield.mem_append hs).elim (hp s) (hq s)

theorem below_plain (key : String) : Below n.tree.height (n.plain key) := by
  simpa [Below, plain, Yield.single] using n.height_get_lt key

theorem below_target (key : String) : Below n.tree.height (n.target key) := by
  simpa [Below, target, Yield.single] using n.height_get_lt key

theorem height_of_mem_elements {key : String} {t : Tree}
    (h : t ∈ (Yield.ofExcept (n.get key).elements).items) : t.height < n.tree.height := by
  cases hv : (n.get key).elements with
  | error e => simp [hv, Yield.ofExcept, Yield.fail] at h
  | ok vs =>
    have ht : t ∈ vs := by simpa [hv, Yield.ofExcept, Yield.ofList] using h
    exact Nat.lt_of_le_of_lt (Tree.height_elements_le hv ht) (n.height_get_lt key)

theorem below_plains (key : String) : Below n.tree.height (n.plains key) := by
  intro s hs
  obtain ⟨t, ht, rfl⟩ := List.mem_map.mp hs
  exact n.height_of_mem_elements ht

theorem below_targets (key : String) : Below n.tree.height (n.targets key) := by
  intro s hs
  obtain ⟨t, ht, rfl⟩ := List.mem_map.mp hs
  exact n.height_of_mem_elements ht

theorem below_computedKey (key : String) : Below n.tree.height (n.computedKey key) := by
  unfold computedKey
  split
  · exact n.below_plain key
  · exact below_empty _

theorem below_propertySlots (entry : Tree) : Below entry.height (propertySlots entry) := by
  unfold propertySlots
  split
  · exact below_empty _
  · next p hp =>
    rw [← Tree.tree_of_node? hp]
    split
    · exact below_append (p.below_computedKey _) (p.below_target _)
    · exact p.below_target _

theorem below_properties :
    Below n.tree.height
      ((Yield.ofExcept (n.get "properties").elements).flatMap propertySlots) := by
  intro s hs
  obtain ⟨entry, hentry, hs⟩ := Yield.mem_flatMap hs
  exact Nat.lt_trans (below_propertySlots entry s hs) (n.height_of_mem_elements hentry)

theorem height_of_mem_memberSlots {field : String × Tree} {s : Slot} (h : s ∈ memberSlots field) :
    s.value.height ≤ field.2.height := by
  obtain ⟨key, v⟩ := field
  unfold memberSlots at h
  split at h
  · simp at h
  · split at h
    · next hv =>
      obtain ⟨t, ht, rfl⟩ := List.mem_map.mp h
      simp only at hv ⊢
      rw [hv]
      exact Nat.le_succ_of_le (Tree.height_le_heightItems ht)
    · obtain rfl := List.mem_singleton.mp h
      exact Nat.le_refl _

theorem below_members : Below n.tree.height (.ofList (n.fields.flatMap memberSlots)) := by
  intro s hs
  obtain ⟨field, hfield, hs⟩ := List.mem_flatMap.mp hs
  exact Nat.lt_succ_of_le
    (Nat.le_trans (height_of_mem_memberSlots hs) (Tree.height_le_heightFields hfield))

/-- What stands in a slot is lower than the node, so a walk into the slots ends. -/
theorem below_slots : Below n.tree.height n.slots := by
  unfold slots
  split
  all_goals
    repeat' with_reducible apply below_append
  all_goals
    simp only [below_empty, below_plain, below_plains, below_target, below_targets,
      below_computedKey, below_properties, below_members]

end Node

end LexicalScope
