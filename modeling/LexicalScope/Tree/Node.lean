import LexicalScope.Fault
import LexicalScope.Tree.Kind

/-! # Nodes and checked access

A node is an object that has a `type`. A tree may be malformed anywhere, so every access that a
malformed tree can defeat says so by a fault; reading a member of a node cannot fail, and an absent
one reads as null.
-/

namespace LexicalScope

structure Node where
  label : Label
  fields : List (String × Tree)

namespace Tree

def asKind : Tree → Kind
  | atom (.str s) => .ofString s
  | atom _ => .untyped
  | _ => .compound

def object? : Tree → Option Node
  | obj l fs => some ⟨l, fs⟩
  | _ => none

/-- An object that has a type. -/
def node? : Tree → Option Node
  | obj l fs => if (fs.lookup "type").isSome then some ⟨l, fs⟩ else none
  | _ => none

end Tree

namespace Node

def tree (n : Node) : Tree := .obj n.label n.fields

/-- A member, or null where it is absent. -/
def get (n : Node) (key : String) : Tree := (n.fields.lookup key).getD .null

def kind (n : Node) : Kind := (n.get "type").asKind

theorem height_get_lt (n : Node) (key : String) : (n.get key).height < n.tree.height :=
  Nat.lt_succ_of_le Tree.height_lookup_le

end Node

namespace Tree

theorem tree_of_object? {t : Tree} {n : Node} (h : t.object? = some n) : n.tree = t := by
  cases t <;> simp_all [object?, Node.tree]
  subst h
  exact ⟨rfl, rfl⟩

theorem tree_of_node? {t : Tree} {n : Node} (h : t.node? = some n) : n.tree = t := by
  cases t <;> simp_all [node?, Node.tree]
  obtain ⟨_, rfl⟩ := h
  exact ⟨rfl, rfl⟩

theorem object?_of_node? {t : Tree} {n : Node} (h : t.node? = some n) : t.object? = some n := by
  cases t <;> simp_all [node?, object?]

theorem truthy_of_node? {t : Tree} {n : Node} (h : t.node? = some n) : t.truthy = true := by
  cases t with
  | obj l fs =>
    cases fs with
    | nil => simp [node?] at h
    | cons f fs => rfl
  | _ => cases h

def identifier (l : Label) (name : String) : Tree :=
  obj l [("type", str "Identifier"), ("name", str name)]

def get? (t : Tree) (key : String) : Except Fault Tree :=
  match t with
  | obj l fs => .ok (Node.get ⟨l, fs⟩ key)
  | _ => .error .notObject

def field (t : Tree) (key : String) : Except Fault Tree :=
  match t with
  | obj _ fs =>
    match fs.lookup key with
    | some v => .ok v
    | none => .error (.missingField key)
  | _ => .error .notIndexable

/-- What iteration meets: items, characters or keys, and nothing in whatever is false. -/
def elements (t : Tree) : Except Fault (List Tree) :=
  if t.truthy then
    match t with
    | arr _ vs => .ok vs
    | obj _ fs => .ok (fs.map fun f => str f.1)
    | atom (.str s) => .ok (s.toList.map fun c => str (String.singleton c))
    | atom _ => .error .notIterable
  else .ok []

theorem height_elements_le {t v : Tree} {vs : List Tree} (h : t.elements = .ok vs) (hv : v ∈ vs) :
    v.height ≤ t.height := by
  unfold elements at h
  split at h
  · split at h
    · obtain rfl := Except.ok.inj h
      exact Nat.le_succ_of_le (height_le_heightItems hv)
    · obtain rfl := Except.ok.inj h
      obtain ⟨f, -, rfl⟩ := List.mem_map.mp hv
      exact Nat.zero_le _
    · obtain rfl := Except.ok.inj h
      obtain ⟨c, -, rfl⟩ := List.mem_map.mp hv
      exact Nat.zero_le _
    · cases h
  · obtain rfl := Except.ok.inj h
    simp at hv

theorem height_get?_le {t v : Tree} {key : String} (h : t.get? key = .ok v) :
    v.height ≤ t.height := by
  cases t <;> simp only [get?, reduceCtorEq] at h
  obtain rfl := Except.ok.inj h
  exact Nat.le_of_lt (Node.height_get_lt _ key)

theorem field_eq_of_get {n : Node} {key : String} (h : n.get key ≠ .null) :
    n.tree.field key = .ok (n.get key) := by
  simp only [Node.get, Node.tree, field] at h ⊢
  cases hv : n.fields.lookup key with
  | none => simp [hv] at h
  | some v => rfl

theorem get_of_field {n : Node} {key : String} {v : Tree} (h : n.tree.field key = .ok v) :
    n.get key = v := by
  simp only [field, Node.tree] at h
  split at h
  · next w hw =>
    obtain rfl := Except.ok.inj h
    simp [Node.get, hw]
  · cases h

def asName : Tree → Except Fault Atom
  | atom a => .ok a
  | _ => .error .notHashable

end Tree

end LexicalScope
