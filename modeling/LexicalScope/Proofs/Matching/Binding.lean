import LexicalScope.Proofs.Binding.Alike
import LexicalScope.Proofs.Matching.Tree
import LexicalScope.Scope.Binding

/-! # Binding matching trees

Matching patterns bind the same names, and matching reports make the same entries, in the same order
if the order counts. Only a function that is opened may bind other parameters.
-/

namespace LexicalScope

variable {ordered : Bool} {opened : Label → Prop}

namespace Pattern

variable {t t' : Tree}

theorem isIdentifier_matches (h : t.Matches ordered opened t') :
    isIdentifier t' = isIdentifier t := by
  have node := h.object?
  unfold isIdentifier
  generalize t.object? = found, t'.object? = found' at node ⊢
  cases node with
  | none => rfl
  | some hn => simp [hn.kind]

theorem isHole_matches (h : t.Matches ordered opened t') : isHole t' = isHole t := by
  cases h <;> rfl

theorem arranges_entryTarget (h : t.Matches ordered opened t') : (entryTarget t).Arranges ordered
    (Tree.Matches ordered opened) (entryTarget t') := by
  unfold entryTarget
  cases hv : t.get? "value" with
  | error e => exact Yield.arranges_fail
  | ok v =>
    obtain ⟨v', hv', value⟩ := h.get? (fun _ => .inr (by decide)) hv
    simp only [hv', bind, Except.bind, value.truthy_eq]
    split
    · exact Yield.arranges_single value
    · cases ha : t.get? "argument" with
      | error e => exact Yield.arranges_fail
      | ok a =>
        obtain ⟨a', ha', argument⟩ := h.get? (fun _ => .inr (by decide)) ha
        rw [ha']
        exact Yield.arranges_single argument

theorem parts?_matches (h : t.Matches ordered opened t') {ps : Yield Tree}
    (hp : parts? t = some ps) : ∃ ps', parts? t' = some ps' ∧
      ps.Arranges ordered (Tree.Matches ordered opened) ps' := by
  have node := h.object?
  unfold parts? at hp ⊢
  generalize t.object? = found, t'.object? = found' at node hp ⊢
  cases node with
  | none => cases hp
  | @some n n' hn =>
    simp only [Option.bind_eq_bind, Option.bind_some, hn.kind] at hp ⊢
    split at hp
    · obtain rfl := Option.some.inj hp
      refine ⟨_, rfl, (hn.get _ (.inr (by decide))).elements.flatMap ?_⟩
      intro entry _ entry' he
      exact arranges_entryTarget he
    · obtain rfl := Option.some.inj hp
      refine ⟨_, rfl, ?_⟩
      have elements := (hn.get "elements" (.inr (by decide))).elements
      cases hv : (n.get "elements").elements with
      | error e => exact Yield.arranges_fail
      | ok vs =>
        rw [hv] at elements
        obtain ⟨ends, items⟩ := elements rfl
        obtain ⟨us, hu⟩ := Yield.fault_ofExcept.mp ends
        rw [hu] at items ⊢
        apply Yield.arranges_ofList
        refine items.filter ?_
        intro v _ u _ hm
        rw [isHole_matches hm]
    · obtain rfl := Option.some.inj hp
      exact ⟨_, rfl, Yield.arranges_single (hn.get _ (.inr (by decide)))⟩
    · obtain rfl := Option.some.inj hp
      exact ⟨_, rfl, Yield.arranges_single (hn.get _ (.inr (by decide)))⟩
    · cases hp

theorem arranges_names (h : t.Matches ordered opened t') :
    (names t).Arranges ordered (Tree.Matches ordered opened) (names t') := by
  induction hk : t.height using Nat.strongRecOn generalizing t t' with
  | ind k ih =>
    cases hi : isIdentifier t with
    | true =>
      rw [names_of_isIdentifier hi, names_of_isIdentifier ((isIdentifier_matches h).trans hi)]
      cases hv : t.field "name" with
      | error e => exact Yield.arranges_fail
      | ok v =>
        obtain ⟨v', hv', hm⟩ := h.field (by decide) hv
        rw [hv']
        exact Yield.arranges_single hm
    | false =>
      cases hp : parts? t with
      | none =>
        rw [names_of_unsupported hi hp]
        exact Yield.arranges_fail
      | some ps =>
        obtain ⟨ps', hp', parts⟩ := parts?_matches h hp
        rw [names_of_parts hi hp, names_of_parts ((isIdentifier_matches h).trans hi) hp']
        refine parts.flatMap ?_
        intro u hu u' hm
        exact ih u.height (hk ▸ height_of_mem_parts hp hu) hm rfl

end Pattern

namespace Binding

variable {t t' : Tree} {n n' : Node} {owner : Label}

theorem arranges_declareName (h : t.Matches ordered opened t') (owner : Label) :
    (declareName owner t).Arranges ordered (· = ·) (declareName owner t') := by
  cases t with
  | atom a =>
    cases h
    exact Yield.arranges_single rfl
  | _ => exact Yield.arranges_fail

theorem arranges_declarePattern (h : t.Matches ordered opened t') (owner : Label) :
    (declarePattern owner t).Arranges ordered (· = ·) (declarePattern owner t') := by
  refine (Yield.arranges_single rfl).append ((Pattern.arranges_names h).flatMap ?_)
  intro v _ v' hm
  exact arranges_declareName hm owner

theorem arranges_declareField (h : t.Matches ordered opened t') (owner : Label) :
    ((Yield.ofExcept ((t.field "name").map ([·]))).flatMap (declareName owner)).Arranges ordered
      (· = ·) ((Yield.ofExcept ((t'.field "name").map ([·]))).flatMap (declareName owner)) := by
  cases hv : t.field "name" with
  | error e =>
    intro hf
    cases (Yield.fault_flatMap.mp hf).1
  | ok v =>
    obtain ⟨v', hv', hm⟩ := h.field (by decide) hv
    rw [hv']
    refine (Yield.arranges_single hm).flatMap ?_
    intro v _ v' hm
    exact arranges_declareName hm owner

theorem arranges_declareIdentifier (h : t.Matches ordered opened t') (owner : Label) :
    (declareIdentifier owner t).Arranges ordered (· = ·) (declareIdentifier owner t') := by
  unfold declareIdentifier
  rw [h.truthy_eq]
  split
  · refine (Yield.arranges_single rfl).append ?_
    exact arranges_declareField h owner
  · exact Yield.arranges_empty

theorem arranges_declarators (h : n.Matches ordered opened n') (owner : Label) :
    (declarators n owner).Arranges ordered (· = ·) (declarators n' owner) := by
  refine (Yield.arranges_single rfl).append ?_
  refine (h.get _ (.inr (by decide))).elements.flatMap ?_
  intro d _ d' hd
  unfold declarator
  cases hv : d.field "id" with
  | error e => exact Yield.arranges_fail
  | ok pattern =>
    obtain ⟨pattern', hv', hm⟩ := hd.field (by decide) hv
    rw [hv']
    exact arranges_declarePattern hm owner

theorem arranges_functionNames (h : n.Matches ordered opened n') (closed : ¬ opened n.label) :
    (functionNames n).Arranges ordered (· = ·) (functionNames n') := by
  unfold functionNames
  rw [h.label]
  refine Yield.Arranges.append ((Yield.arranges_single rfl).append ?_)
    (arranges_declareIdentifier (h.get _ (.inr (by decide))) n.label)
  refine (h.get _ (.inl closed)).elements.flatMap ?_
  intro p _ p' hp
  exact arranges_declarePattern hp n.label

theorem arranges_catchNames (h : n.Matches ordered opened n') :
    (catchNames n).Arranges ordered (· = ·) (catchNames n') := by
  have handler := h.get "handler" (.inr (by decide))
  unfold catchNames
  simp only [handler.truthy_eq]
  split
  · generalize n.get "handler" = c, n'.get "handler" = c' at handler ⊢
    cases c with
    | obj l fs =>
      obtain ⟨gs, rfl, -⟩ := id handler.members
      have clause : Node.Matches ordered opened ⟨l, fs⟩ ⟨l, gs⟩ := handler
      have parameter := clause.get "param" (.inr (by decide))
      simp only [parameter.truthy_eq]
      split
      · exact arranges_declarePattern parameter l
      · exact Yield.arranges_empty
    | _ => exact Yield.arranges_fail
  · exact Yield.arranges_empty

theorem arranges_importName (h : n.Matches ordered opened n') (root : Label) :
    (importName n root).Arranges ordered (· = ·) (importName n' root) := by
  refine (Yield.arranges_single rfl).append ?_
  cases hi : n.tree.field "local" with
  | error e =>
    intro hf
    cases (Yield.fault_flatMap.mp hf).1
  | ok identifier =>
    obtain ⟨identifier', hi', him⟩ := Tree.Matches.field h (by decide) hi
    simp only [hi', bind, Except.bind]
    simpa [bind, Except.bind, pure, Except.pure, Except.map] using arranges_declareField him root

theorem arranges_atNearest {test : Kind → Bool} {ns ns' : List Node}
    {bind bind' : Label → Yield Entry} (h : List.Forall₂ Node.Alike ns ns')
    (hb : ∀ owner, (bind owner).Arranges ordered (· = ·) (bind' owner)) :
    (atNearest test ns bind).Arranges ordered (· = ·) (atNearest test ns' bind') := by
  rw [atNearest_alike test bind' h]
  unfold atNearest
  cases nearest? test ns with
  | error e => exact Yield.arranges_fail
  | ok found =>
    cases found with
    | none => exact Yield.arranges_empty
    | some owner => exact hb owner.label

end Binding

/-- Two reports of one kind on matching nodes with matching nodes around them. -/
structure Event.Matches (ordered : Bool) (opened : Label → Prop) (e e' : Event) : Prop where
  kind : e'.kind = e.kind
  node : e.node.Matches ordered opened e'.node
  outer : List.Forall₂ (Node.Matches ordered opened) e.outer e'.outer

namespace Event.Matches

variable {e e' : Event}

theorem path (h : e.Matches ordered opened e') :
    List.Forall₂ (Node.Matches ordered opened) e.path e'.path := .cons h.node h.outer

theorem alike (h : e.Matches ordered opened e') : e.Alike e' where
  kind := h.kind
  path := h.path.imp fun _ _ hn => hn.alike
  name := h.node.name?

/-- Matching reports make the same entries unless they are about an opened function. -/
theorem arranges_entries (h : e.Matches ordered opened e') (mode : ScopeMode)
    (closed : e.kind = .anyFunction → ¬ opened e.node.label) :
    (e.entries mode).Arranges ordered (· = ·) (e'.entries mode) := by
  have path := h.alike.path
  have outer := h.alike.outer
  have id := h.node.get "id" (.inr (by decide))
  unfold entries
  rw [h.kind]
  split
  · rw [(h.node.get "kind" (.inr (by decide))).isText_eq]
    exact Binding.arranges_atNearest path (Binding.arranges_declarators h.node)
  · exact Binding.arranges_atNearest outer fun owner => Binding.arranges_declareIdentifier id owner
  · next hk => exact Binding.arranges_functionNames h.node (closed hk)
  · exact Binding.arranges_atNearest outer fun owner => Binding.arranges_declareIdentifier id owner
  · rw [h.node.label]
    exact Binding.arranges_declareIdentifier id e.node.label
  · exact Binding.arranges_catchNames h.node
  all_goals
    first
    | exact Yield.arranges_empty
    | rw [h.alike.root_label]
      exact Binding.arranges_importName h.node e.root.label

end Event.Matches

end LexicalScope
