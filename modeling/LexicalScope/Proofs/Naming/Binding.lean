import LexicalScope.Proofs.Binding.Alike
import LexicalScope.Proofs.Binding.Merge
import LexicalScope.Proofs.Naming.Walk

/-! # Binding a tree with other names

The entries that binding a tree with other names makes are the images of those of the tree itself.
Since different names have different images, a table says of an image what it said of the name, so
adding the images of entries to the image of a table gives the image of the table they make.
-/

namespace LexicalScope

variable {φ : NameMap}

def Entry.mapNames (φ : NameMap) : Entry → Entry
  | scope owner => scope owner
  | name owner x => name owner (φ.atom x)

namespace Binding

variable {owner : Label}

theorem declareName_mapNames (v : Tree) : declareName owner (φ.member "name" v) =
    (declareName owner v).bimap (Entry.mapNames φ) (Fault.mapNames φ) := by
  cases v with
  | atom a => rfl
  | arr l vs =>
    rw [Tree.member_arr]
    rfl
  | obj l fs =>
    rw [Tree.member_obj]
    rfl

theorem declarePattern_mapNames (pattern : Tree) : declarePattern owner (pattern.mapNames φ) =
    (declarePattern owner pattern).bimap (Entry.mapNames φ) (Fault.mapNames φ) := by
  rw [declarePattern, Pattern.names_mapNames,
    Yield.flatMap_bimap fun v _ => declareName_mapNames v, declarePattern, Yield.bimap_append]
  rfl

theorem declareField_mapNames (φ : NameMap) (owner : Label) (identifier : Tree) :
    (Yield.ofExcept (((identifier.mapNames φ).field "name").map ([·]))).flatMap
        (declareName owner) =
      ((Yield.ofExcept ((identifier.field "name").map ([·]))).flatMap
        (declareName owner)).bimap (Entry.mapNames φ) (Fault.mapNames φ) := by
  rw [Tree.ofExcept_name_mapNames, Yield.flatMap_bimap fun v _ => declareName_mapNames v]

theorem declareIdentifier_mapNames (identifier : Tree) :
    declareIdentifier owner (identifier.mapNames φ) =
      (declareIdentifier owner identifier).bimap (Entry.mapNames φ) (Fault.mapNames φ) := by
  unfold declareIdentifier
  rw [Tree.truthy_mapNames, declareField_mapNames]
  split
  · rw [Yield.bimap_append]
    rfl
  · rfl

theorem declarators_mapNames (n : Node) : declarators (n.mapNames φ) owner =
    (declarators n owner).bimap (Entry.mapNames φ) (Fault.mapNames φ) := by
  have each (d : Tree) : declarator owner (d.mapNames φ) =
      (declarator owner d).bimap (Entry.mapNames φ) (Fault.mapNames φ) := by
    unfold declarator
    rw [Tree.field_mapNames]
    cases d.field "id" with
    | error e => rfl
    | ok pattern => exact declarePattern_mapNames pattern
  rw [declarators, n.get_mapNames (by decide), Tree.ofExcept_elements_mapNames,
    Yield.flatMap_bimap fun d _ => each d, declarators, Yield.bimap_append]
  rfl

theorem functionNames_mapNames (n : Node) : functionNames (n.mapNames φ) =
    (functionNames n).bimap (Entry.mapNames φ) (Fault.mapNames φ) := by
  rw [functionNames, n.get_mapNames (by decide), n.get_mapNames (by decide),
    Tree.ofExcept_elements_mapNames, Node.label_mapNames, declareIdentifier_mapNames,
    Yield.flatMap_bimap fun p _ => declarePattern_mapNames p, functionNames, Yield.bimap_append,
    Yield.bimap_append]
  rfl

theorem catchNames_mapNames (n : Node) : catchNames (n.mapNames φ) =
    (catchNames n).bimap (Entry.mapNames φ) (Fault.mapNames φ) := by
  unfold catchNames
  rw [n.get_mapNames (by decide)]
  simp only [Tree.truthy_mapNames]
  split
  · cases n.get "handler" with
    | obj l fs =>
      have parameter : Node.get ⟨l, Tree.mapFields φ fs⟩ "param" =
          (Node.get ⟨l, fs⟩ "param").mapNames φ :=
        Node.get_mapNames ⟨l, fs⟩ (by decide)
      simp only [Tree.mapNames, parameter, Tree.truthy_mapNames]
      split
      · exact declarePattern_mapNames _
      · rfl
    | _ =>
      rw [Tree.mapNames]
      rfl
  · rfl

theorem importName_mapNames (n : Node) (root : Label) : importName (n.mapNames φ) root =
    (importName n root).bimap (Entry.mapNames φ) (Fault.mapNames φ) := by
  unfold importName
  rw [Node.tree_mapNames, Tree.field_mapNames, funext (NameMap.member_of_ne (by decide)),
    Yield.bimap_append]
  congr 1
  cases n.tree.field "local" with
  | error e => rfl
  | ok identifier =>
    have names := declareField_mapNames φ root identifier
    simpa [bind, Except.bind, pure, Except.pure, Except.map, Except.mapError] using names

theorem nearest?_mapNames (test : Kind → Bool) (ns : List Node) :
    nearest? test (ns.map (Node.mapNames φ)) =
      ((nearest? test ns).map (Option.map (Node.mapNames φ))).mapError (Fault.mapNames φ) := by
  induction ns with
  | nil => rfl
  | cons n ns ih =>
    rw [List.map_cons, nearest?, nearest?, Node.kind_mapNames, ih]
    split
    · rfl
    · split <;> rfl

theorem atNearest_mapNames {bind bind' : Label → Yield Entry} (test : Kind → Bool)
    (ns : List Node)
    (each : ∀ owner, bind' owner = (bind owner).bimap (Entry.mapNames φ) (Fault.mapNames φ)) :
    atNearest test (ns.map (Node.mapNames φ)) bind' =
      (atNearest test ns bind).bimap (Entry.mapNames φ) (Fault.mapNames φ) := by
  unfold atNearest
  rw [nearest?_mapNames]
  cases nearest? test ns with
  | error e => rfl
  | ok found =>
    cases found with
    | none => rfl
    | some n => exact each n.label

end Binding

namespace Event

variable (e : Event)

@[simp]
theorem kind_mapNames : (e.mapNames φ).kind = e.kind := rfl

@[simp]
theorem node_mapNames : (e.mapNames φ).node = e.node.mapNames φ := rfl

@[simp]
theorem outer_mapNames : (e.mapNames φ).outer = e.outer.map (Node.mapNames φ) := rfl

@[simp]
theorem label_root_mapNames : (e.mapNames φ).root.label = e.root.label :=
  label_getLastD_alike e.node.alike_mapNames (Node.forall₂_alike_mapNames e.outer)

theorem entries_mapNames (mode : ScopeMode) : (e.mapNames φ).entries mode =
    (e.entries mode).bimap (Entry.mapNames φ) (Fault.mapNames φ) := by
  have id : (e.node.mapNames φ).get "id" = (e.node.get "id").mapNames φ :=
    e.node.get_mapNames (by decide)
  unfold entries
  rw [kind_mapNames, label_root_mapNames, node_mapNames, outer_mapNames]
  split
  · rw [e.node.get_mapNames (by decide), Tree.isText_mapNames]
    exact Binding.atNearest_mapNames _ (e.node :: e.outer) fun owner =>
      Binding.declarators_mapNames e.node
  · rw [id]
    exact Binding.atNearest_mapNames _ _ fun owner => Binding.declareIdentifier_mapNames _
  · exact Binding.functionNames_mapNames e.node
  · rw [id]
    exact Binding.atNearest_mapNames _ _ fun owner => Binding.declareIdentifier_mapNames _
  · rw [id]
    exact Binding.declareIdentifier_mapNames _
  · exact Binding.catchNames_mapNames e.node
  all_goals
    first
    | rfl
    | exact Binding.importName_mapNames e.node e.root.label

end Event

theorem Tree.entries_mapNames (t : Tree) (mode : ScopeMode) : (t.mapNames φ).entries mode =
    (t.entries mode).bimap (Entry.mapNames φ) (Fault.mapNames φ) := by
  rw [entries, events_mapNames, Yield.flatMap_bimap fun e _ => e.entries_mapNames mode]
  rfl

def Scope.mapNames (φ : NameMap) (s : Scope) : Scope := ⟨s.owner, s.locals.map φ.atom⟩

theorem Scope.declares_mapNames (s : Scope) (x : Atom) :
    (s.mapNames φ).declares (φ.atom x) = s.declares x := by
  unfold declares mapNames
  rw [List.any_map]
  congr 1
  funext y
  rw [Bool.eq_iff_iff]
  simp [NameMap.key_atom_eq_iff]

theorem Scope.declare_mapNames (s : Scope) (x : Atom) :
    (s.declare x).mapNames φ = (s.mapNames φ).declare (φ.atom x) := by
  unfold declare
  rw [declares_mapNames]
  split
  · rfl
  · simp [mapNames]

namespace ScopeTable

def mapNames (φ : NameMap) (table : ScopeTable) : ScopeTable where
  scopes := table.scopes.map (Scope.mapNames φ)
  nodup := by
    rw [List.map_map]
    exact table.nodup

variable (table : ScopeTable) (owner : Label) (x : Atom)

@[simp]
theorem mapNames_empty : empty.mapNames φ = empty := rfl

theorem scopes_mapNames : (table.mapNames φ).scopes = table.scopes.map (Scope.mapNames φ) := rfl

@[simp]
theorem owners_mapNames : (table.mapNames φ).owners = table.owners := by
  rw [owners, owners, scopes_mapNames, List.map_map]
  rfl

theorem get?_mapNames : (table.mapNames φ).get? owner =
    (table.get? owner).map (Scope.mapNames φ) := by
  rw [get?, get?, scopes_mapNames, List.find?_map]
  rfl

theorem declares_mapNames : (table.mapNames φ).declares owner (φ.atom x) =
    table.declares owner x := by
  rw [declares, declares, get?_mapNames, Option.any_map]
  congr 1
  funext s
  exact s.declares_mapNames x

theorem create_mapNames : (table.create owner).mapNames φ = (table.mapNames φ).create owner := by
  apply eq_of_scopes
  rw [scopes_mapNames, scopes_create, scopes_create, owners_mapNames]
  split
  · rfl
  · rw [List.map_append]
    rfl

theorem declare_mapNames :
    (table.declare owner x).mapNames φ = (table.mapNames φ).declare owner (φ.atom x) := by
  apply eq_of_scopes
  rw [scopes_declare, ← create_mapNames, scopes_mapNames, scopes_mapNames, scopes_declare,
    List.map_map, List.map_map]
  congr 1
  funext s
  simp only [Function.comp_apply, apply_ite (Scope.mapNames φ), Scope.declare_mapNames]
  rfl

theorem enter_mapNames (entry : Entry) :
    (table.enter entry).mapNames φ = (table.mapNames φ).enter (entry.mapNames φ) := by
  cases entry with
  | scope owner => exact create_mapNames table owner
  | name owner x => exact declare_mapNames table owner x

end ScopeTable

/-- Binding a tree with other names leaves the image of the table that binding the tree leaves. -/
theorem bindScopes_mapNames (t : Tree) (mode : ScopeMode) (table : ScopeTable) :
    bindScopes (t.mapNames φ) mode (table.mapNames φ) =
      ((bindScopes t mode table).1.mapNames φ,
        (bindScopes t mode table).2.map (Fault.mapNames φ)) := by
  unfold bindScopes
  simp only [t.entries_mapNames, Yield.bimap, List.foldl_map]
  rw [List.foldl_hom (ScopeTable.mapNames φ) fun table entry => (table.enter_mapNames entry).symm]

end LexicalScope
