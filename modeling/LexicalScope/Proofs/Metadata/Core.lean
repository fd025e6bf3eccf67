import LexicalScope.Proofs.Reference.Alike
import LexicalScope.Tree.Slot

/-! # The core of a tree

Some members of nodes have no part in an analysis: metadata, and names that refer to nothing, such
as keys that are not computed, labels, and what a module calls the things it imports or exports. The
core of a tree has null in the place of each of them. Two trees with one core differ in nothing
else.
-/

namespace LexicalScope

/-- The members that are metadata on every object. -/
def annotationKeys : List String :=
  ["loc", "range", "comments", "errors", "tokens", "leadingComments", "trailingComments",
    "innerComments"]

/-- The members that may have no part in an analysis. -/
def ignorableKeys : List String :=
  annotationKeys ++ ["key", "property", "label", "imported", "specifiers", "meta"]

/-- Whether what a node has under a key is metadata or a name that refers to nothing. -/
def Node.ignores (n : Node) (key : String) : Bool :=
  annotationKeys.contains key ||
    match n.kind with
    | .property | .methodDefinition | .propertyDefinition =>
      key == "key" && !(n.get "computed").truthy
    | .memberExpression => key == "property" && !(n.get "computed").truthy
    | .labeledStatement | .breakStatement | .continueStatement => key == "label"
    | .importSpecifier => key == "imported"
    | .exportNamedDeclaration | .exportAllDeclaration | .exportDefaultDeclaration =>
      key == "specifiers"
    | .metaProperty => key == "meta" || key == "property"
    | _ => false

namespace Tree

mutual

/-- A tree with null in the place of all that has no part in an analysis. -/
def core : Tree → Tree
  | atom a => atom a
  | arr l vs => arr l (coreItems vs)
  | obj l fs => obj l (coreFields (Node.ignores ⟨l, fs⟩) fs)

def coreItems : List Tree → List Tree
  | [] => []
  | v :: vs => v.core :: coreItems vs

def coreFields (ignored : String → Bool) : List (String × Tree) → List (String × Tree)
  | [] => []
  | (k, v) :: fs => (k, if ignored k then null else v.core) :: coreFields ignored fs

end

variable {ignored : String → Bool}

theorem coreItems_eq (vs : List Tree) : coreItems vs = vs.map core := by
  induction vs with
  | nil => rfl
  | cons v vs ih => rw [coreItems, ih, List.map_cons]

theorem coreFields_eq (fs : List (String × Tree)) : coreFields ignored fs =
    fs.map fun f => (f.1, if ignored f.1 then null else f.2.core) := by
  induction fs with
  | nil => rfl
  | cons f fs ih =>
    rw [coreFields, ih, List.map_cons]

theorem lookup_coreFields {key : String} (h : ignored key = false) (fs : List (String × Tree)) :
    (coreFields ignored fs).lookup key = (fs.lookup key).map core := by
  induction fs with
  | nil => rfl
  | cons f fs ih =>
    obtain ⟨k, v⟩ := f
    rw [coreFields, List.lookup_cons, List.lookup_cons, ih]
    cases hk : key == k with
    | false => rfl
    | true =>
      obtain rfl := eq_of_beq hk
      simp [h]

variable (t : Tree)

@[simp]
theorem core_atom (a : Atom) : (atom a).core = atom a := by rw [core]

theorem core_str (s : String) : (str s).core = str s := core_atom (.str s)

@[simp]
theorem label?_core : t.core.label? = t.label? := by
  cases t <;> simp [core, label?]

@[simp]
theorem asKind_core : t.core.asKind = t.asKind := by
  cases t <;> simp [core, asKind]

@[simp]
theorem isText_core (s : String) : t.core.isText s = t.isText s := by
  cases t <;> simp [core, isText]

@[simp]
theorem truthy_core : t.core.truthy = t.truthy := by
  cases t <;> simp [core, truthy, coreItems_eq, coreFields_eq]

theorem core_eq_atom_iff {a : Atom} : t.core = .atom a ↔ t = .atom a := by
  cases t <;> simp [core]

theorem asName_core : t.core.asName = t.asName := by
  cases t <;> simp [core, asName]

end Tree

namespace Node

variable (n : Node)

def core : Node := ⟨n.label, Tree.coreFields n.ignores n.fields⟩

@[simp]
theorem label_core : n.core.label = n.label := rfl

theorem tree_core : n.core.tree = n.tree.core := by
  rw [tree, tree, Tree.core]
  rfl

theorem ignores_of_not_mem {key : String} (h : key ∉ ignorableKeys) : n.ignores key = false := by
  simp only [ignorableKeys, annotationKeys, List.cons_append, List.nil_append, List.mem_cons,
    List.not_mem_nil, not_or] at h
  unfold ignores annotationKeys
  split <;> simp [h]

theorem get_core_of_ignores {key : String} (h : n.ignores key = false) :
    n.core.get key = (n.get key).core := by
  simp only [get, core, Tree.lookup_coreFields h]
  cases n.fields.lookup key with
  | none => exact (Tree.core_atom .null).symm
  | some v => rfl

theorem get_core {key : String} (h : key ∉ ignorableKeys) : n.core.get key = (n.get key).core :=
  n.get_core_of_ignores (n.ignores_of_not_mem h)

@[simp]
theorem kind_core : n.core.kind = n.kind := by
  rw [kind, kind, get_core n (by decide), Tree.asKind_core]

theorem alike_core : n.Alike n.core where
  label := rfl
  kind := n.kind_core
  value _ := by rw [n.get_core (by decide), Tree.label?_core]

theorem forall₂_alike_core (ns : List Node) : List.Forall₂ Node.Alike ns (ns.map core) := by
  rw [List.forall₂_map_right_iff]
  exact List.forall₂_same.mpr fun n _ => n.alike_core

end Node

namespace Tree

variable (t : Tree)

theorem object?_core : t.core.object? = t.object?.map Node.core := by
  cases t <;> simp [core, object?, Node.core]

theorem node?_core : t.core.node? = t.node?.map Node.core := by
  cases t with
  | obj l fs =>
    have typed : Node.ignores ⟨l, fs⟩ "type" = false := Node.ignores_of_not_mem _ (by decide)
    simp only [core, node?, lookup_coreFields typed, Option.isSome_map]
    split <;> rfl
  | _ => simp [core, node?]

theorem field_core {key : String} (h : key ∉ ignorableKeys) :
    t.core.field key = (t.field key).map core := by
  cases t with
  | obj l fs =>
    have kept : Node.ignores ⟨l, fs⟩ key = false := Node.ignores_of_not_mem _ h
    simp only [core, field, lookup_coreFields kept]
    cases fs.lookup key <;> rfl
  | _ =>
    rw [core]
    rfl

theorem get?_core {key : String} (h : key ∉ ignorableKeys) :
    t.core.get? key = (t.get? key).map core := by
  cases t with
  | obj l fs =>
    rw [core]
    exact congrArg Except.ok (Node.get_core ⟨l, fs⟩ h)
  | _ =>
    rw [core]
    rfl

theorem elements_core : t.core.elements = t.elements.map (List.map core) := by
  unfold elements
  rw [truthy_core]
  split
  · cases t with
    | arr l vs => simp [core, coreItems_eq, Except.map]
    | obj l fs => simp [core, coreFields_eq, Except.map, core_str]
    | atom a => cases a <;> simp [Except.map, core_str]
  · rfl

theorem ofExcept_elements_core :
    Yield.ofExcept t.core.elements = (Yield.ofExcept t.elements).map core := by
  rw [elements_core]
  cases t.elements <;> rfl

end Tree

end LexicalScope
