import LexicalScope.Proofs.Naming.Bimap
import LexicalScope.Proofs.Reference.Alike

/-! # Other names for the names of a tree

A map of names puts a text in the place of every text that stands in a member called `name`. It
changes no label, no kind and no shape, so whatever is read off a mapped tree is what is read off
the tree itself, mapped.
-/

namespace LexicalScope

/-- A map that tells names apart and keeps the two names that have a meaning of their own. -/
structure NameMap where
  text : String → String
  injective : Function.Injective text
  undefined : text "undefined" = "undefined"
  arguments : text "arguments" = "arguments"

namespace NameMap

variable (φ : NameMap)

def atom : Atom → Atom
  | .str s => .str (φ.text s)
  | a => a

def name : Tree → Tree
  | .atom a => .atom (φ.atom a)
  | t => t

variable {φ} {x y : Atom} {s : String}

theorem key_atom_eq_iff : (φ.atom x).key = (φ.atom y).key ↔ x.key = y.key := by
  cases x <;> cases y <;> simp [atom, Atom.key, φ.injective.eq_iff]

theorem atom_eq_str_iff (fixed : φ.text s = s) : φ.atom x = .str s ↔ x = .str s := by
  cases x with
  | str r =>
    simp only [atom, Atom.str.injEq]
    conv_lhs => rw [← fixed]
    exact φ.injective.eq_iff
  | _ => simp [atom]

end NameMap

variable {φ : NameMap}

namespace Tree

mutual

def mapNames (φ : NameMap) : Tree → Tree
  | atom a => atom a
  | arr l vs => arr l (mapItems φ vs)
  | obj l fs => obj l (mapFields φ fs)

def mapItems (φ : NameMap) : List Tree → List Tree
  | [] => []
  | v :: vs => v.mapNames φ :: mapItems φ vs

def mapFields (φ : NameMap) : List (String × Tree) → List (String × Tree)
  | [] => []
  | (k, v) :: fs =>
    (k, if k = "name" then φ.name (v.mapNames φ) else v.mapNames φ) :: mapFields φ fs

end

end Tree

def NameMap.member (φ : NameMap) (key : String) (v : Tree) : Tree :=
  if key = "name" then φ.name (v.mapNames φ) else v.mapNames φ

theorem NameMap.member_of_ne {key : String} (h : key ≠ "name") (v : Tree) :
    φ.member key v = v.mapNames φ := if_neg h

namespace Tree

theorem mapItems_eq (vs : List Tree) : mapItems φ vs = vs.map (mapNames φ) := by
  induction vs with
  | nil => rfl
  | cons v vs ih => rw [mapItems, ih, List.map_cons]

theorem mapFields_eq (fs : List (String × Tree)) :
    mapFields φ fs = fs.map fun f => (f.1, φ.member f.1 f.2) := by
  induction fs with
  | nil => rfl
  | cons f fs ih =>
    rw [mapFields, ih, List.map_cons]
    rfl

theorem lookup_mapFields (fs : List (String × Tree)) (key : String) :
    (mapFields φ fs).lookup key = (fs.lookup key).map (φ.member key) := by
  induction fs with
  | nil => rfl
  | cons f fs ih =>
    obtain ⟨k, v⟩ := f
    rw [mapFields, List.lookup_cons, List.lookup_cons, ih]
    cases hk : key == k with
    | false => rfl
    | true =>
      obtain rfl := eq_of_beq hk
      rfl

@[simp]
theorem mapNames_atom (a : Atom) : (atom a).mapNames φ = atom a := by rw [mapNames]

@[simp]
theorem mapNames_str (s : String) : (str s).mapNames φ = str s := mapNames_atom (.str s)

theorem member_arr (key : String) (l : Label) (vs : List Tree) :
    φ.member key (arr l vs) = arr l (vs.map (mapNames φ)) := by
  rw [NameMap.member, mapNames, mapItems_eq]
  exact ite_self _

theorem member_obj (key : String) (l : Label) (fs : List (String × Tree)) :
    φ.member key (obj l fs) = obj l (mapFields φ fs) := by
  rw [NameMap.member, mapNames]
  exact ite_self _

theorem member_atom (φ : NameMap) (key : String) (a : Atom) :
    ∃ b, φ.member key (atom a) = atom b := by
  rw [NameMap.member, mapNames_atom]
  split
  · exact ⟨φ.atom a, rfl⟩
  · exact ⟨a, rfl⟩

@[simp]
theorem label?_mapNames (t : Tree) : (t.mapNames φ).label? = t.label? := by
  cases t <;> simp [mapNames, label?]

@[simp]
theorem asKind_mapNames (t : Tree) : (t.mapNames φ).asKind = t.asKind := by
  cases t <;> simp [mapNames, asKind]

@[simp]
theorem isText_mapNames (t : Tree) (s : String) : (t.mapNames φ).isText s = t.isText s := by
  cases t <;> simp [mapNames, isText]

@[simp]
theorem truthy_mapNames (t : Tree) : (t.mapNames φ).truthy = t.truthy := by
  cases t <;> simp [mapNames, truthy, mapItems_eq, mapFields_eq]

end Tree

def Fault.mapNames (φ : NameMap) : Fault → Fault
  | unsupportedPattern t => unsupportedPattern (t.mapNames φ)
  | e => e

def Node.mapNames (φ : NameMap) (n : Node) : Node := ⟨n.label, Tree.mapFields φ n.fields⟩

namespace Node

variable (n : Node)

@[simp]
theorem label_mapNames : (n.mapNames φ).label = n.label := rfl

theorem tree_mapNames : (n.mapNames φ).tree = n.tree.mapNames φ := by
  rw [tree, tree, Tree.mapNames]
  rfl

theorem get_mapNames {key : String} (h : key ≠ "name") :
    (n.mapNames φ).get key = (n.get key).mapNames φ := by
  simp only [get, mapNames, Tree.lookup_mapFields, funext (NameMap.member_of_ne h)]
  cases n.fields.lookup key with
  | none => exact (Tree.mapNames_atom .null).symm
  | some v => rfl

@[simp]
theorem kind_mapNames : (n.mapNames φ).kind = n.kind := by
  rw [kind, kind, get_mapNames n (by decide), Tree.asKind_mapNames]

theorem alike_mapNames : n.Alike (n.mapNames φ) where
  label := rfl
  kind := n.kind_mapNames
  value _ := by rw [n.get_mapNames (by decide), Tree.label?_mapNames]

theorem forall₂_alike_mapNames (ns : List Node) :
    List.Forall₂ Node.Alike ns (ns.map (Node.mapNames φ)) := by
  rw [List.forall₂_map_right_iff]
  exact List.forall₂_same.mpr fun n _ => n.alike_mapNames

end Node

namespace Tree

variable (t : Tree)

theorem object?_mapNames : (t.mapNames φ).object? = t.object?.map (Node.mapNames φ) := by
  cases t <;> simp [mapNames, object?, Node.mapNames]

theorem node?_mapNames : (t.mapNames φ).node? = t.node?.map (Node.mapNames φ) := by
  cases t with
  | obj l fs =>
    simp only [mapNames, node?, lookup_mapFields, Option.isSome_map]
    split <;> rfl
  | _ => simp [mapNames, node?]

theorem field_mapNames (key : String) : (t.mapNames φ).field key =
    ((t.field key).map (φ.member key)).mapError (Fault.mapNames φ) := by
  cases t with
  | obj l fs =>
    simp only [mapNames, field, lookup_mapFields]
    cases fs.lookup key <;> rfl
  | _ =>
    rw [mapNames]
    rfl

theorem ofExcept_name_mapNames :
    Yield.ofExcept (((t.mapNames φ).field "name").map ([·])) =
      (Yield.ofExcept ((t.field "name").map ([·]))).bimap (φ.member "name") (Fault.mapNames φ) := by
  rw [field_mapNames]
  cases t.field "name" <;> rfl

theorem get?_mapNames {key : String} (h : key ≠ "name") : (t.mapNames φ).get? key =
    ((t.get? key).map (mapNames φ)).mapError (Fault.mapNames φ) := by
  cases t with
  | obj l fs =>
    rw [mapNames]
    exact congrArg Except.ok (Node.get_mapNames ⟨l, fs⟩ h)
  | _ =>
    rw [mapNames]
    rfl

theorem elements_mapNames : (t.mapNames φ).elements =
    (t.elements.map (List.map (mapNames φ))).mapError (Fault.mapNames φ) := by
  unfold elements
  rw [truthy_mapNames]
  split
  · cases t with
    | arr l vs => simp [mapNames, mapItems_eq, Except.map, Except.mapError]
    | obj l fs => simp [mapNames, mapFields_eq, Except.map, Except.mapError]
    | atom a => cases a <;> simp [Except.map, Except.mapError, Fault.mapNames]
  · rfl

theorem ofExcept_elements_mapNames : Yield.ofExcept (t.mapNames φ).elements =
    (Yield.ofExcept t.elements).bimap (mapNames φ) (Fault.mapNames φ) := by
  rw [elements_mapNames, Yield.ofExcept_bimap]

end Tree

end LexicalScope
