import LexicalScope.Proofs.Renaming.Follow
import LexicalScope.Tree.Walk

/-! # Renaming within a function

A renaming puts a text in the place of one name within the parameters and the body of one function.
It changes the values of members called `name` only, so a renamed tree has the same labels, the same
kinds and, in the same order, the renamed slots.
-/

namespace LexicalScope

structure Renaming where
  function : Label
  old : Atom
  new : String

namespace Renaming

variable (ρ : Renaming)

def atom (a : Atom) : Atom := if a.key = ρ.old.key then .str ρ.new else a

def name (inside : Bool) : Tree → Tree
  | .atom a => .atom (if inside then ρ.atom a else a)
  | t => t

/-- Whether a member lies within the parameters or the body of the function. -/
def enters (inside : Bool) (owner : Label) (key : String) : Bool :=
  inside || owner == ρ.function && (key == "params" || key == "body")

end Renaming

namespace Tree

mutual

/-- Rename a tree that lies inside or outside of the parameters and the body. -/
def rename (ρ : Renaming) (inside : Bool) : Tree → Tree
  | atom a => atom a
  | arr l vs => arr l (renameItems ρ inside vs)
  | obj l fs => obj l (renameFields ρ inside l fs)

def renameItems (ρ : Renaming) (inside : Bool) : List Tree → List Tree
  | [] => []
  | v :: vs => v.rename ρ inside :: renameItems ρ inside vs

def renameFields (ρ : Renaming) (inside : Bool) (owner : Label) :
    List (String × Tree) → List (String × Tree)
  | [] => []
  | (k, v) :: fs =>
    (k, ρ.name (inside && k == "name") (v.rename ρ (ρ.enters inside owner k))) ::
      renameFields ρ inside owner fs

end

variable {ρ : Renaming} {inside : Bool}

theorem renameItems_eq (vs : List Tree) : renameItems ρ inside vs = vs.map (rename ρ inside) := by
  induction vs with
  | nil => rfl
  | cons v vs ih => rw [renameItems, ih, List.map_cons]

theorem renameFields_eq (owner : Label) (fs : List (String × Tree)) :
    renameFields ρ inside owner fs = fs.map fun f =>
      (f.1, ρ.name (inside && f.1 == "name") (f.2.rename ρ (ρ.enters inside owner f.1))) := by
  induction fs with
  | nil => rfl
  | cons f fs ih => rw [renameFields, ih, List.map_cons]

theorem lookup_renameFields (owner : Label) (fs : List (String × Tree)) (key : String) :
    (renameFields ρ inside owner fs).lookup key = (fs.lookup key).map fun v =>
      ρ.name (inside && key == "name") (v.rename ρ (ρ.enters inside owner key)) := by
  induction fs with
  | nil => rfl
  | cons f fs ih =>
    obtain ⟨k, v⟩ := f
    rw [renameFields, List.lookup_cons, List.lookup_cons, ih]
    cases hk : key == k with
    | false => rfl
    | true =>
      obtain rfl := eq_of_beq hk
      rfl

@[simp]
theorem rename_atom (a : Atom) : (atom a).rename ρ inside = atom a := by rw [rename]

@[simp]
theorem rename_null : null.rename ρ inside = null := rename_atom .null

@[simp]
theorem rename_str (s : String) : (str s).rename ρ inside = str s := rename_atom (.str s)

@[simp]
theorem label?_rename (t : Tree) : (t.rename ρ inside).label? = t.label? := by
  cases t <;> simp [rename, label?]

@[simp]
theorem asKind_rename (t : Tree) : (t.rename ρ inside).asKind = t.asKind := by
  cases t <;> simp [rename, asKind]

@[simp]
theorem isText_rename (t : Tree) (s : String) : (t.rename ρ inside).isText s = t.isText s := by
  cases t <;> simp [rename, isText]

@[simp]
theorem truthy_rename (t : Tree) : (t.rename ρ inside).truthy = t.truthy := by
  cases t <;> simp [rename, truthy, renameItems_eq, renameFields_eq]

end Tree

namespace Renaming

variable {ρ : Renaming}

@[simp]
theorem name_false (t : Tree) : ρ.name false t = t := by cases t <;> rfl

end Renaming

/-- Members that a renaming treats like the whole of a node. -/
def Plain (key : String) : Prop := key ≠ "name" ∧ key ≠ "params" ∧ key ≠ "body"

instance (key : String) : Decidable (Plain key) := inferInstanceAs (Decidable (_ ∧ _ ∧ _))

namespace Node

variable {ρ : Renaming} {inside : Bool}

def rename (ρ : Renaming) (inside : Bool) (n : Node) : Node :=
  ⟨n.label, Tree.renameFields ρ inside n.label n.fields⟩

@[simp]
theorem label_rename (n : Node) : (n.rename ρ inside).label = n.label := rfl

theorem tree_rename (n : Node) : (n.rename ρ inside).tree = n.tree.rename ρ inside := by
  rw [tree, tree, Tree.rename]
  rfl

theorem get_rename (n : Node) {key : String} (h : key ≠ "name") :
    (n.rename ρ inside).get key = (n.get key).rename ρ (ρ.enters inside n.label key) := by
  have hk : (key == "name") = false := by simpa using h
  simp only [get, rename, Tree.lookup_renameFields, hk, Bool.and_false, Renaming.name_false]
  cases n.fields.lookup key <;> simp

theorem enters_plain {owner : Label} {key : String} (h : Plain key) :
    ρ.enters inside owner key = inside := by
  simp [Renaming.enters, h.2.1, h.2.2]

theorem get_rename_plain (n : Node) {key : String} (h : Plain key) :
    (n.rename ρ inside).get key = (n.get key).rename ρ inside := by
  rw [get_rename n h.1, enters_plain h]

@[simp]
theorem kind_rename (n : Node) : (n.rename ρ inside).kind = n.kind := by
  rw [kind, kind, get_rename_plain n (by decide), Tree.asKind_rename]

end Node

namespace Tree

variable {ρ : Renaming} {inside : Bool}

theorem object?_rename (t : Tree) :
    (t.rename ρ inside).object? = t.object?.map (Node.rename ρ inside) := by
  cases t <;> simp [rename, object?, Node.rename]

theorem node?_rename (t : Tree) :
    (t.rename ρ inside).node? = t.node?.map (Node.rename ρ inside) := by
  cases t with
  | obj l fs =>
    simp only [rename, node?, lookup_renameFields, Option.isSome_map]
    split <;> rfl
  | atom a => simp [node?]
  | arr l vs => simp [rename, node?]

theorem field_rename (t : Tree) {key : String} (h : Plain key) :
    (t.rename ρ inside).field key = (t.field key).map (rename ρ inside) := by
  have hk : (key == "name") = false := by simpa using h.1
  cases t with
  | obj l fs =>
    simp only [rename, field, lookup_renameFields, hk, Bool.and_false, Renaming.name_false,
      Node.enters_plain h]
    cases fs.lookup key <;> rfl
  | atom a => rw [rename_atom]; rfl
  | arr l vs => rw [rename]; rfl

theorem field_name_rename (t : Tree) :
    (t.rename ρ inside).field "name" =
      (t.field "name").map fun v => ρ.name inside (v.rename ρ inside) := by
  cases t with
  | obj l fs =>
    have hk : ρ.enters inside l "name" = inside := by simp [Renaming.enters]
    simp only [rename, field, lookup_renameFields, beq_self_eq_true, Bool.and_true, hk]
    cases fs.lookup "name" <;> rfl
  | atom a => rw [rename_atom]; rfl
  | arr l vs => rw [rename]; rfl

theorem get?_rename (t : Tree) {key : String} (h : Plain key) :
    (t.rename ρ inside).get? key = (t.get? key).map (rename ρ inside) := by
  cases t with
  | obj l fs =>
    rw [rename, get?, get?, Except.map]
    exact congrArg _ (Node.get_rename_plain ⟨l, fs⟩ h)
  | atom a => rw [rename_atom]; rfl
  | arr l vs => rw [rename]; rfl

theorem elements_rename (t : Tree) :
    (t.rename ρ inside).elements = t.elements.map (List.map (rename ρ inside)) := by
  unfold elements
  rw [truthy_rename]
  split
  · cases t with
    | arr l vs => simp [rename, renameItems_eq, Except.map]
    | obj l fs => simp [rename, renameFields_eq, Except.map]
    | atom a => cases a <;> simp [Except.map]
  · rfl

theorem follows_elements (t : Tree) :
    (Yield.ofExcept t.elements).Follows (fun v v' => v' = v.rename ρ inside)
      (Yield.ofExcept (t.rename ρ inside).elements) := by
  rw [elements_rename]
  cases t.elements with
  | error e => exact Yield.follows_fail
  | ok vs => exact Yield.follows_map (.ofList vs) _

end Tree

/-- What stands in a slot is no node, or it is the renamed node of another slot. -/
def Slot.Renamed (ρ : Renaming) (inside : Bool) (s s' : Slot) : Prop :=
  s'.value.node? = s.value.node?.map (Node.rename ρ inside) ∧ s'.target = s.target

theorem Slot.renamed_rename {ρ : Renaming} {inside : Bool} (t : Tree) (target : Bool) :
    Slot.Renamed ρ inside ⟨t, target⟩ ⟨t.rename ρ inside, target⟩ := ⟨t.node?_rename, rfl⟩

namespace Node

variable {ρ : Renaming} {inside : Bool} {n : Node}

def Keeps (ρ : Renaming) (inside : Bool) (p q : Yield Slot) : Prop :=
  p.Follows (Slot.Renamed ρ inside) q

theorem keeps_empty : Keeps ρ inside .empty .empty := Yield.follows_empty

theorem Keeps.append {p p' q q' : Yield Slot} (h : Keeps ρ inside p q)
    (h' : Keeps ρ inside p' q') : Keeps ρ inside (p ++ p') (q ++ q') := Yield.Follows.append h h'

theorem keeps_plain {key : String} {flag : Bool} (h : key ≠ "name")
    (hf : ρ.enters inside n.label key = flag) :
    Keeps ρ flag (n.plain key) ((n.rename ρ inside).plain key) := by
  rw [plain, plain, get_rename n h, hf]
  exact Yield.follows_single (Slot.renamed_rename _ _)

theorem keeps_target {key : String} {flag : Bool} (h : key ≠ "name")
    (hf : ρ.enters inside n.label key = flag) :
    Keeps ρ flag (n.target key) ((n.rename ρ inside).target key) := by
  rw [target, target, get_rename n h, hf]
  exact Yield.follows_single (Slot.renamed_rename _ _)

theorem keeps_elements {key : String} {flag : Bool} (h : key ≠ "name")
    (hf : ρ.enters inside n.label key = flag) (target : Bool) :
    Keeps ρ flag ((Yield.ofExcept (n.get key).elements).map (⟨·, target⟩))
      ((Yield.ofExcept ((n.rename ρ inside).get key).elements).map (⟨·, target⟩)) := by
  rw [get_rename n h, hf]
  refine (Tree.follows_elements _).map ?_
  rintro v _ rfl
  exact Slot.renamed_rename v target

theorem keeps_computedKey {key : String} (h : Plain key) :
    Keeps ρ inside (n.computedKey key) ((n.rename ρ inside).computedKey key) := by
  unfold computedKey
  rw [get_rename_plain n (by decide), Tree.truthy_rename]
  split
  · exact keeps_plain h.1 (enters_plain h)
  · exact keeps_empty

theorem keeps_propertySlots (entry : Tree) :
    Keeps ρ inside (propertySlots entry) (propertySlots (entry.rename ρ inside)) := by
  unfold propertySlots
  rw [Tree.node?_rename]
  cases entry.node? with
  | none => exact keeps_empty
  | some p =>
    simp only [Option.map_some, kind_rename]
    split
    · exact (keeps_computedKey (by decide)).append
        (keeps_target (by decide) (enters_plain (by decide)))
    · exact keeps_target (by decide) (enters_plain (by decide))

theorem forall₂_memberSlots (key : String) (v : Tree) (named : Bool) :
    List.Forall₂ (Slot.Renamed ρ inside) (memberSlots (key, v))
      (memberSlots (key, ρ.name named (v.rename ρ inside))) := by
  unfold memberSlots
  split
  · exact .nil
  · cases v with
    | atom a => exact .cons ⟨rfl, rfl⟩ .nil
    | arr l vs =>
      simp only [Tree.rename, Tree.renameItems_eq, Renaming.name, List.map_map]
      rw [List.forall₂_map_left_iff, List.forall₂_map_right_iff]
      exact List.forall₂_same.mpr fun v _ => Slot.renamed_rename v false
    | obj l fs =>
      simp only [Tree.rename, Renaming.name]
      have slot : Slot.Renamed ρ inside ⟨.obj l fs, false⟩
          ⟨(Tree.obj l fs).rename ρ inside, false⟩ := Slot.renamed_rename _ _
      exact .cons (by simpa only [Tree.rename] using slot) .nil

theorem keeps_properties {key : String} (h : Plain key) :
    Keeps ρ inside ((Yield.ofExcept (n.get key).elements).flatMap propertySlots)
      ((Yield.ofExcept ((n.rename ρ inside).get key).elements).flatMap propertySlots) := by
  rw [get_rename_plain n h]
  refine (Tree.follows_elements _).flatMap ?_
  rintro entry - _ rfl
  exact keeps_propertySlots entry

theorem keeps_members (flag : ∀ key, ρ.enters inside n.label key = inside) :
    Keeps ρ inside (.ofList (n.fields.flatMap memberSlots))
      (.ofList ((n.rename ρ inside).fields.flatMap memberSlots)) := by
  refine Yield.follows_ofList ?_
  rw [rename, Tree.renameFields_eq, List.flatMap_map]
  refine List.rel_flatMap (R := Eq) (by simp) ?_
  rintro ⟨k, v⟩ _ rfl
  simp only [flag]
  exact forall₂_memberSlots k v _

theorem keeps_slots (h : n.label ≠ ρ.function) :
    Keeps ρ inside n.slots (n.rename ρ inside).slots := by
  have flag (key : String) : ρ.enters inside n.label key = inside := by simp [Renaming.enters, h]
  unfold slots
  rw [kind_rename]
  split
  all_goals
    repeat'
      first
      | with_reducible apply Keeps.append
      | with_reducible exact keeps_empty
      | with_reducible exact keeps_plain (by decide) (flag _)
      | with_reducible exact keeps_target (by decide) (flag _)
      | with_reducible exact keeps_computedKey (by decide)
      | with_reducible exact keeps_properties (by decide)
      | with_reducible exact keeps_members flag
      | exact keeps_elements (by decide) (flag _) _

end Node

end LexicalScope
