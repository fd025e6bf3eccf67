import LexicalScope.Proofs.Binding.Function
import LexicalScope.Proofs.Renaming.Walk
import LexicalScope.Scope.Binding

/-! # Binding a renamed tree

The entries that binding a renamed tree makes are those of the tree itself, for the same owners. A
name is a renamed one only at the function or at an owner inside it, since the function is the
nearest scope around whatever is declared inside.
-/

namespace LexicalScope

/-- An entry for the same owner, which has the renamed name only if its label is one of some. -/
inductive Entry.Renamed (ρ : Renaming) (inner : List Label) : Entry → Entry → Prop where
  | scope (owner : Label) : Renamed ρ inner (.scope owner) (.scope owner)
  | kept (owner : Label) (x : Atom) : Renamed ρ inner (.name owner x) (.name owner x)
  | renamed {owner : Label} (x : Atom) (within : owner ∈ inner) :
    Renamed ρ inner (.name owner x) (.name owner (ρ.atom x))

namespace Binding

variable {ρ : Renaming} {inner : List Label} {inside : Bool} {owner : Label}

theorem follows_declareName (within : inside = true → owner ∈ inner) (v : Tree) :
    (declareName owner v).Follows (Entry.Renamed ρ inner)
      (declareName owner (ρ.name inside (v.rename ρ inside))) := by
  cases v with
  | atom a =>
    rw [Tree.rename_atom]
    cases inside with
    | false => exact Yield.follows_single (.kept owner a)
    | true => exact Yield.follows_single (.renamed a (within rfl))
  | arr l vs => exact Yield.follows_fail
  | obj l fs => exact Yield.follows_fail

theorem follows_declarePattern (within : inside = true → owner ∈ inner) (pattern : Tree) :
    (declarePattern owner pattern).Follows (Entry.Renamed ρ inner)
      (declarePattern owner (pattern.rename ρ inside)) := by
  refine (Yield.follows_single (.scope owner)).append ?_
  refine (Pattern.follows_names ρ inside pattern).flatMap ?_
  rintro v - _ rfl
  exact follows_declareName within v

theorem follows_names (within : inside = true → owner ∈ inner) (identifier : Tree) :
    ((Yield.ofExcept ((identifier.field "name").map ([·]))).flatMap (declareName owner)).Follows
      (Entry.Renamed ρ inner)
      ((Yield.ofExcept (((identifier.rename ρ inside).field "name").map ([·]))).flatMap
        (declareName owner)) := by
  rw [Tree.field_name_rename]
  cases identifier.field "name" with
  | error e => exact Yield.follows_flatMap_fail
  | ok v =>
    refine Yield.Follows.flatMap (R := fun v v' => v' = ρ.name inside (v.rename ρ inside))
      (Yield.follows_single rfl) ?_
    rintro v - _ rfl
    exact follows_declareName within v

theorem follows_declareIdentifier (within : inside = true → owner ∈ inner) (identifier : Tree) :
    (declareIdentifier owner identifier).Follows (Entry.Renamed ρ inner)
      (declareIdentifier owner (identifier.rename ρ inside)) := by
  unfold declareIdentifier
  rw [Tree.truthy_rename]
  split
  · exact (Yield.follows_single (.scope owner)).append (follows_names within identifier)
  · exact Yield.follows_empty

theorem follows_declarators (within : inside = true → owner ∈ inner) (n : Node) :
    (declarators n owner).Follows (Entry.Renamed ρ inner)
      (declarators (n.rename ρ inside) owner) := by
  refine (Yield.follows_single (.scope owner)).append ?_
  rw [n.get_rename_plain (by decide)]
  refine (Tree.follows_elements _).flatMap ?_
  rintro d - _ rfl
  unfold declarator
  rw [Tree.field_rename _ (by decide)]
  cases d.field "id" with
  | error e => exact Yield.follows_fail
  | ok pattern => exact follows_declarePattern within pattern

theorem follows_functionNames {n : Node} (hf : n.label = ρ.function → n.label ∈ inner)
    (within : inside = true → n.label ∈ inner) :
    (functionNames n).Follows (Entry.Renamed ρ inner) (functionNames (n.rename ρ inside)) := by
  refine Yield.Follows.append ((Yield.follows_single (.scope n.label)).append ?params) ?id
  case params =>
    rw [n.get_rename (by decide)]
    refine (Tree.follows_elements _).flatMap ?_
    rintro p - _ rfl
    refine follows_declarePattern ?_ p
    intro h
    rcases Bool.or_eq_true_iff.mp h with h | h
    · exact within h
    · exact hf (eq_of_beq (Bool.and_eq_true_iff.mp h).1)
  case id =>
    rw [n.get_rename_plain (by decide)]
    exact follows_declareIdentifier within _

theorem follows_catchNames {n : Node}
    (within : ∀ c, (n.get "handler").object? = some c → inside = true → c.label ∈ inner) :
    (catchNames n).Follows (Entry.Renamed ρ inner) (catchNames (n.rename ρ inside)) := by
  unfold catchNames
  rw [n.get_rename_plain (by decide)]
  simp only [Tree.truthy_rename]
  split
  · cases hh : n.get "handler" with
    | atom a => exact Yield.follows_fail
    | arr l vs => exact Yield.follows_fail
    | obj l fs =>
      rw [Tree.rename]
      have param : ((Node.mk l fs).rename ρ inside).get "param" =
          ((Node.mk l fs).get "param").rename ρ inside := Node.get_rename_plain _ (by decide)
      simp only [Node.rename] at param
      simp only [param, Tree.truthy_rename]
      split
      · exact follows_declarePattern (within ⟨l, fs⟩ (by rw [hh]; rfl)) _
      · exact Yield.follows_empty
  · exact Yield.follows_empty

theorem follows_importName (n : Node) (root : Label) :
    (importName n root).Follows (Entry.Renamed ρ inner) (importName (n.rename ρ false) root) := by
  refine (Yield.follows_single (.scope root)).append ?_
  rw [Node.tree_rename, Tree.field_rename _ (by decide)]
  cases n.tree.field "local" with
  | error e => exact Yield.follows_flatMap_fail
  | ok identifier => exact follows_names (by simp) identifier

theorem follows_atNearest {test : Kind → Bool} {ns ns' : List Node}
    {bind bind' : Label → Yield Entry} (h : List.Forall₂ Node.Alike ns ns')
    (hb : ∀ m, ns.find? (fun m => test m.kind) = some m →
      (bind m.label).Follows (Entry.Renamed ρ inner) (bind' m.label)) :
    (atNearest test ns bind).Follows (Entry.Renamed ρ inner) (atNearest test ns' bind') := by
  rw [atNearest_alike test bind' h]
  unfold atNearest
  cases hn : nearest? test ns with
  | error e => exact Yield.follows_fail
  | ok found =>
    cases found with
    | none => exact Yield.follows_empty
    | some m => exact hb m (find?_of_nearest? hn)

end Binding

/-- The function that a renaming is about, at its place in a tree. -/
structure Renaming.At (ρ : Renaming) (t : Tree) (function : Node) (around : List Node) : Prop where
  ends : t.events.fault = none
  visits : Visits [] ⟨t, false⟩ function around
  label : function.label = ρ.function
  isFunction : function.kind.isFunction = true
  nodup : t.labels.Nodup

namespace Renaming.At

variable {ρ : Renaming} {t : Tree} {function n : Node} {around ns : List Node}

theorem functionAt (at_ : ρ.At t function around) : t.FunctionAt function around :=
  ⟨at_.ends, at_.visits, at_.isFunction, at_.nodup⟩

theorem unique (at_ : ρ.At t function around) (h : Visits [] ⟨t, false⟩ n ns)
    (hl : n.label = ρ.function) : n = function ∧ ns = around :=
  at_.functionAt.unique h (hl.trans at_.label.symm)

theorem nearest_within (at_ : ρ.At t function around) (h : Visits [] ⟨t, false⟩ n ns)
    {test : Kind → Bool} (hk : test function.kind = true) {path : List Node}
    (hp : path <:+ n :: ns) (hf : function ∈ path) {m : Node}
    (hm : path.find? (fun m => test m.kind) = some m) : m.label ∈ function.tree.labels := by
  obtain ⟨-, before, rest, rfl, hb⟩ := List.find?_eq_some_iff_append.mp hm
  have below : function ∈ m :: rest := by
    rcases List.mem_append.mp hf with hf | hf
    · simpa [hk] using hb function hf
    · exact hf
  have hv := h.of_suffix at_.ends ((List.suffix_append before (m :: rest)).trans hp) (Nat.zero_le _)
  exact hv.labels_subset below List.mem_cons_self

end Renaming.At

namespace Event.Renamed

variable {ρ : Renaming} {t : Tree} {function : Node} {around : List Node} {inside : Bool}
  {e e' : Event}

theorem alike_outer (h : e.Renamed ρ function around inside e') :
    List.Forall₂ Node.Alike e.outer e'.outer := h.outer.imp fun _ _ => Node.Renamed.alike

theorem alike_path (h : e.Renamed ρ function around inside e') :
    List.Forall₂ Node.Alike e.path e'.path :=
  .cons (Node.Renamed.alike ⟨inside, h.node⟩) h.alike_outer

theorem root_label (h : e.Renamed ρ function around inside e') : e'.root.label = e.root.label :=
  label_getLastD_alike (List.forall₂_cons.mp h.alike_path).1 h.alike_outer

theorem labels_subset (h : e.Renamed ρ function around inside e') (he : e ∈ t.events.items)
    (hi : inside = true) : e.node.tree.labels ⊆ function.tree.labels := by
  have hv : Visits [] ⟨t, false⟩ e.node e.outer := Visits.of_mem_walk he
  exact hv.labels_subset (List.mem_cons_of_mem _ (h.within hi))

theorem follows_importName (h : e.Renamed ρ function around inside e')
    (imports : function ∈ e.outer → e.kind ≠ .importSpecifier ∧ e.kind ≠ .importDefaultSpecifier ∧
      e.kind ≠ .importNamespaceSpecifier)
    (hk : e.kind = .importSpecifier ∨ e.kind = .importDefaultSpecifier ∨
      e.kind = .importNamespaceSpecifier) :
    (Binding.importName e.node e.root.label).Follows (Entry.Renamed ρ function.tree.labels)
      (Binding.importName (e.node.rename ρ inside) e'.root.label) := by
  have outside : inside = false := by
    by_contra hi
    obtain ⟨hs, hd, hn⟩ := imports (h.within (by simpa using hi))
    rcases hk with hk | hk | hk
    · exact hs hk
    · exact hd hk
    · exact hn hk
  rw [outside, h.root_label]
  exact Binding.follows_importName e.node e.root.label

theorem follows_declarators (h : e.Renamed ρ function around inside e') (mode : ScopeMode)
    (at_ : ρ.At t function around) (he : e ∈ t.events.items) :
    (Binding.atNearest (if (e.node.get "kind").isText "var" then mode.isVarScope
      else Kind.isBlockScope) (e.node :: e.outer) (Binding.declarators e.node)).Follows
      (Entry.Renamed ρ function.tree.labels)
      (Binding.atNearest (if (e'.node.get "kind").isText "var" then mode.isVarScope
        else Kind.isBlockScope) (e'.node :: e'.outer) (Binding.declarators e'.node)) := by
  have scopes := Kind.scopes_of_isFunction at_.isFunction mode
  have kind : (e'.node.get "kind").isText "var" = (e.node.get "kind").isText "var" := by
    rw [h.node, e.node.get_rename_plain (by decide), Tree.isText_rename]
  rw [kind]
  apply Binding.follows_atNearest h.alike_path
  intro m hm
  rw [h.node]
  refine Binding.follows_declarators (fun hi => ?_) e.node
  refine at_.nearest_within (Visits.of_mem_walk he) ?_ List.suffix_rfl
    (List.mem_cons_of_mem _ (h.within hi)) hm
  split
  · exact scopes.1
  · exact scopes.2.1

/-- A report makes the same entries after the renaming, but for names at owners in the function. -/
theorem follows_entries (h : e.Renamed ρ function around inside e') (mode : ScopeMode)
    (at_ : ρ.At t function around) (he : e ∈ t.events.items)
    (imports : function ∈ e.outer → e.kind ≠ .importSpecifier ∧ e.kind ≠ .importDefaultSpecifier ∧
      e.kind ≠ .importNamespaceSpecifier) :
    (e.entries mode).Follows (Entry.Renamed ρ function.tree.labels) (e'.entries mode) := by
  have hv : Visits [] ⟨t, false⟩ e.node e.outer := Visits.of_mem_walk he
  have scopes := Kind.scopes_of_isFunction at_.isFunction mode
  have self (hi : inside = true) : e.node.label ∈ function.tree.labels :=
    h.labels_subset he hi List.mem_cons_self
  have nearest {test : Kind → Bool} (hk : test function.kind = true) {m : Node}
      (hm : e.outer.find? (fun m => test m.kind) = some m) (hi : inside = true) :
      m.label ∈ function.tree.labels :=
    at_.nearest_within hv hk (List.suffix_cons _ _) (h.within hi) hm
  unfold entries
  rw [h.kind, h.node]
  split
  · rw [← h.node]
    exact h.follows_declarators mode at_ he
  · rw [e.node.get_rename_plain (by decide)]
    apply Binding.follows_atNearest h.alike_outer
    intro m hm
    exact Binding.follows_declareIdentifier (nearest scopes.2.2 hm) _
  · refine Binding.follows_functionNames ?_ self
    intro hl
    obtain ⟨hf, -⟩ := at_.unique hv hl
    rw [hf]
    exact List.mem_cons_self
  · rw [e.node.get_rename_plain (by decide)]
    apply Binding.follows_atNearest h.alike_outer
    intro m hm
    exact Binding.follows_declareIdentifier (nearest scopes.2.1 hm) _
  · rw [e.node.get_rename_plain (by decide)]
    exact Binding.follows_declareIdentifier self _
  · apply Binding.follows_catchNames
    intro c hc hi
    apply h.labels_subset he hi
    apply e.node.labels_get_subset "handler"
    rw [← Tree.tree_of_object? hc]
    exact List.mem_cons_self
  · next hk => exact h.follows_importName imports (.inl hk)
  · next hk => exact h.follows_importName imports (.inr (.inl hk))
  · next hk => exact h.follows_importName imports (.inr (.inr hk))
  · exact Yield.follows_empty

end Event.Renamed

end LexicalScope
