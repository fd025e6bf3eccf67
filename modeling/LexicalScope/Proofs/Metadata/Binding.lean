import LexicalScope.Proofs.Binding.Alike
import LexicalScope.Proofs.Metadata.Walk

/-! # Binding a core

The core of a pattern binds the same names, so binding the core of a tree makes the same entries and
breaks off where binding the tree does. Only what the fault then says may differ, since the position
of what is no pattern is metadata.
-/

namespace LexicalScope

namespace Yield

variable {α β : Type}

/-- Two yields give the same and break off at the same point, if they do. -/
def Agrees (p q : Yield α) : Prop := q.items = p.items ∧ (q.fault = none ↔ p.fault = none)

namespace Agrees

variable {p p' q q' : Yield α}

theorem refl (p : Yield α) : p.Agrees p := ⟨rfl, .rfl⟩

theorem of_eq (h : q = p) : p.Agrees q := h ▸ refl q

theorem append (h : p.Agrees q) (h' : p'.Agrees q') : (p ++ p').Agrees (q ++ q') := by
  refine ⟨?_, by simp only [fault_append, h.2, h'.2]⟩
  obtain ⟨as, _ | e⟩ := p <;> obtain ⟨bs, _ | f⟩ := q <;> simp_all [Agrees]

theorem collect {f g : α → Yield β} {as : List α} (h : ∀ a ∈ as, (f a).Agrees (g a)) :
    (collect f as).Agrees (collect g as) := by
  induction as with
  | nil => exact refl _
  | cons a as ih =>
    obtain ⟨first, rest⟩ := List.forall_mem_cons.mp h
    exact first.append (ih rest)

theorem flatMap {f g : α → Yield β} (h : p.Agrees q) (hf : ∀ a ∈ p.items, (f a).Agrees (g a)) :
    (p.flatMap f).Agrees (q.flatMap g) := by
  have ends : (⟨[], p.fault⟩ : Yield β).Agrees ⟨[], q.fault⟩ := ⟨rfl, h.2⟩
  rw [Yield.flatMap, Yield.flatMap, h.1]
  exact (collect hf).append ends

end Agrees

end Yield

namespace Pattern

theorem isIdentifier_core (t : Tree) : isIdentifier t.core = isIdentifier t := by
  rw [isIdentifier, isIdentifier, Tree.object?_core, Option.any_map]
  simp

theorem isHole_core (t : Tree) : isHole t.core = isHole t := by
  cases t <;> simp [Tree.core, isHole]

theorem entryTarget_core (entry : Tree) :
    entryTarget entry.core = (entryTarget entry).map Tree.core := by
  unfold entryTarget
  rw [Tree.get?_core entry (by decide), Tree.get?_core entry (by decide)]
  cases entry.get? "value" with
  | error e => rfl
  | ok v =>
    simp only [bind, Except.bind, Except.map, Tree.truthy_core]
    split
    · rfl
    · cases entry.get? "argument" <;> rfl

theorem parts?_core (t : Tree) : parts? t.core = (parts? t).map (Yield.map Tree.core) := by
  unfold parts?
  rw [Tree.object?_core]
  cases t.object? with
  | none => rfl
  | some n =>
    simp only [Option.map_some, Option.bind_eq_bind, Option.bind_some, Node.kind_core]
    split
    · rw [n.get_core (by decide), Tree.ofExcept_elements_core, Option.map_some, Yield.flatMap_map,
        Yield.map_flatMap]
      exact congrArg some (Yield.flatMap_congr fun entry _ => entryTarget_core entry)
    · rw [n.get_core (by decide), Tree.elements_core, Option.map_some]
      cases (n.get "elements").elements with
      | error e => rfl
      | ok vs =>
        simp only [Except.map, Yield.ofExcept, List.filter_map, Function.comp_def, isHole_core]
        rfl
    · rw [n.get_core (by decide)]
      rfl
    · rw [n.get_core (by decide)]
      rfl
    · rfl

theorem names_core (t : Tree) : ((names t).map Tree.core).Agrees (names t.core) := by
  induction hk : t.height using Nat.strongRecOn generalizing t with
  | ind k ih =>
    cases hi : isIdentifier t with
    | true =>
      rw [names_of_isIdentifier hi, names_of_isIdentifier ((isIdentifier_core t).trans hi),
        Tree.field_core t (by decide)]
      cases t.field "name" <;> exact .refl _
    | false =>
      have hi' : isIdentifier t.core = false := (isIdentifier_core t).trans hi
      have parts := parts?_core t
      cases hp : parts? t with
      | none =>
        rw [hp] at parts
        rw [names_of_unsupported hi hp, names_of_unsupported hi' parts]
        exact ⟨rfl, by simp⟩
      | some ps =>
        rw [hp] at parts
        rw [names_of_parts hi hp, names_of_parts hi' parts, Yield.flatMap_map, Yield.map_flatMap]
        refine Yield.Agrees.flatMap (.refl ps) fun u hu => ?_
        exact ih u.height (hk ▸ height_of_mem_parts hp hu) u rfl

end Pattern

namespace Binding

variable {owner : Label}

theorem declareName_core (v : Tree) : declareName owner v.core = declareName owner v := by
  rw [declareName, declareName, Tree.asName_core]

theorem declarePattern_core (owner : Label) (pattern : Tree) :
    (declarePattern owner pattern).Agrees (declarePattern owner pattern.core) := by
  refine .append (.refl _) ?_
  have names : (Pattern.names pattern).flatMap (declareName owner) =
      ((Pattern.names pattern).map Tree.core).flatMap (declareName owner) := by
    rw [Yield.flatMap_map]
    exact Yield.flatMap_congr fun v _ => (declareName_core v).symm
  rw [names]
  exact (Pattern.names_core pattern).flatMap fun v _ => .refl _

theorem declareField_core (owner : Label) (identifier : Tree) :
    (Yield.ofExcept ((identifier.core.field "name").map ([·]))).flatMap (declareName owner) =
      (Yield.ofExcept ((identifier.field "name").map ([·]))).flatMap (declareName owner) := by
  rw [Tree.field_core identifier (by decide)]
  cases identifier.field "name" with
  | error e => rfl
  | ok v =>
    simp only [Except.map, Yield.ofExcept, Yield.flatMap_ofList, Yield.collect_cons,
      declareName_core]

theorem declareIdentifier_core (owner : Label) (identifier : Tree) :
    declareIdentifier owner identifier.core = declareIdentifier owner identifier := by
  rw [declareIdentifier, declareIdentifier, Tree.truthy_core, declareField_core]

theorem declarators_core (n : Node) (owner : Label) :
    (declarators n owner).Agrees (declarators n.core owner) := by
  refine .append (.refl _) ?_
  rw [n.get_core (by decide), Tree.ofExcept_elements_core, Yield.flatMap_map]
  refine Yield.Agrees.flatMap (.refl _) fun d _ => ?_
  rw [Function.comp_apply, declarator, declarator, Tree.field_core d (by decide)]
  cases d.field "id" with
  | error e => exact .refl _
  | ok pattern => exact declarePattern_core owner pattern

theorem functionNames_core (n : Node) : (functionNames n).Agrees (functionNames n.core) := by
  rw [functionNames, functionNames, n.get_core (by decide), n.get_core (by decide),
    Tree.ofExcept_elements_core, Yield.flatMap_map, declareIdentifier_core, Node.label_core]
  refine .append (.append (.refl _) ?_) (.refl _)
  exact Yield.Agrees.flatMap (.refl _) fun p _ => declarePattern_core n.label p

theorem catchNames_core (n : Node) : (catchNames n).Agrees (catchNames n.core) := by
  unfold catchNames
  rw [n.get_core (by decide)]
  simp only [Tree.truthy_core]
  split
  · cases n.get "handler" with
    | obj l fs =>
      have parameter : Node.get ⟨l, Tree.coreFields (Node.ignores ⟨l, fs⟩) fs⟩ "param" =
          (Node.get ⟨l, fs⟩ "param").core := Node.get_core ⟨l, fs⟩ (by decide)
      simp only [Tree.core, parameter, Tree.truthy_core]
      split
      · exact declarePattern_core l _
      · exact .refl _
    | _ =>
      rw [Tree.core]
      exact .refl _
  · exact .refl _

theorem importName_core (n : Node) (root : Label) :
    importName n.core root = importName n root := by
  unfold importName
  rw [Node.tree_core, Tree.field_core _ (by decide)]
  congr 1
  cases n.tree.field "local" with
  | error e => rfl
  | ok identifier =>
    have names := declareField_core root identifier
    simpa [bind, Except.bind, pure, Except.pure, Except.map] using names

theorem atNearest_core {bind bind' : Label → Yield Entry} (test : Kind → Bool) (ns : List Node)
    (each : ∀ owner, (bind owner).Agrees (bind' owner)) :
    (atNearest test ns bind).Agrees (atNearest test (ns.map Node.core) bind') := by
  rw [atNearest_alike test bind' (Node.forall₂_alike_core ns), atNearest, atNearest]
  cases nearest? test ns with
  | error e => exact .refl _
  | ok found =>
    cases found with
    | none => exact .refl _
    | some n => exact each n.label

end Binding

theorem Event.entries_core (e : Event) (mode : ScopeMode) :
    (e.entries mode).Agrees (e.core.entries mode) := by
  have id : e.node.core.get "id" = (e.node.get "id").core := e.node.get_core (by decide)
  have root : e.core.root.label = e.root.label :=
    label_getLastD_alike e.node.alike_core (Node.forall₂_alike_core e.outer)
  have kind : e.core.kind = e.kind := rfl
  have node : e.core.node = e.node.core := rfl
  have outer : e.core.outer = e.outer.map Node.core := rfl
  unfold entries
  rw [kind, root, node, outer, id]
  split
  · rw [e.node.get_core (by decide), Tree.isText_core]
    exact Binding.atNearest_core _ (e.node :: e.outer) (Binding.declarators_core e.node)
  · exact Binding.atNearest_core _ _ fun owner => .of_eq (Binding.declareIdentifier_core owner _)
  · exact Binding.functionNames_core e.node
  · exact Binding.atNearest_core _ _ fun owner => .of_eq (Binding.declareIdentifier_core owner _)
  · exact .of_eq (Binding.declareIdentifier_core _ _)
  · exact Binding.catchNames_core e.node
  all_goals
    first
    | exact .refl _
    | exact .of_eq (Binding.importName_core e.node _)

theorem Tree.entries_core (t : Tree) (mode : ScopeMode) :
    (t.entries mode).Agrees (t.core.entries mode) := by
  rw [entries, entries, events_core, Yield.flatMap_map]
  exact Yield.Agrees.flatMap (.refl _) fun e _ => e.entries_core mode

end LexicalScope
