import LexicalScope.Pattern
import LexicalScope.Proofs.Walk.MadeOf

/-! # The vocabulary of syntax trees

A tree is in the vocabulary if every node that a walk meets has the members its kind asks for: names
are texts, binding targets are patterns of the grammar, lists are lists. Kinds of which nothing is
asked may hold anything that is in the vocabulary again, but a program only stands at the root, and
a catch clause only as the handler of a `try`.
-/

namespace LexicalScope

namespace Tree

/-- A list of trees of some sort, or nothing. -/
def IsListOf (P : Tree → Prop) (t : Tree) : Prop :=
  t = .null ∨ ∃ l vs, t = .arr l vs ∧ ∀ v ∈ vs, P v

/-- An identifier whose name is a text. -/
def IsIdentifier (t : Tree) (s : String) : Prop :=
  ∃ n, t.node? = some n ∧ n.kind = .identifier ∧ n.get "name" = .str s

theorem isIdentifier_identifier (l : Label) (s : String) : (identifier l s).IsIdentifier s :=
  ⟨_, rfl, rfl, rfl⟩

theorem elements_arr (l : Label) (vs : List Tree) : (arr l vs).elements = .ok vs := by
  cases vs <;> rfl

theorem IsListOf.elements {P : Tree → Prop} {t : Tree} (h : t.IsListOf P) :
    ∃ vs, t.elements = .ok vs ∧ ∀ v ∈ vs, P v := by
  rcases h with rfl | ⟨l, vs, rfl, h⟩
  · exact ⟨[], rfl, by simp⟩
  · exact ⟨vs, elements_arr l vs, h⟩

end Tree

theorem Tree.IsIdentifier.field {t : Tree} {s : String} (h : t.IsIdentifier s) :
    t.field "name" = .ok (.str s) := by
  obtain ⟨n, hn, -, hs⟩ := h
  rw [← Tree.tree_of_node? hn, Tree.field_eq_of_get (by simp [hs, Tree.str, Tree.null]), hs]

namespace Pattern

/-- The grammar of binding patterns. An entry of an object pattern is a property or a rest. -/
inductive InGrammar : Tree → Prop where
  | identifier {t : Tree} {s : String} (named : t.IsIdentifier s) : InGrammar t
  | object {t : Tree} {n : Node} {entries : List Tree} (node : t.node? = some n)
      (kind : n.kind = .objectPattern) (list : (n.get "properties").elements = .ok entries)
      (entry : ∀ v ∈ entries, ∃ p, v.node? = some p ∧
        (p.kind = .property ∨ p.kind = .restElement ∧ p.get "value" = .null))
      (value : ∀ v ∈ entries, ∀ p, v.node? = some p → p.kind = .property →
        InGrammar (p.get "value"))
      (rest : ∀ v ∈ entries, ∀ p, v.node? = some p → p.kind = .restElement →
        InGrammar (p.get "argument")) : InGrammar t
  | array {t : Tree} {n : Node} {elements : List Tree} (node : t.node? = some n)
      (kind : n.kind = .arrayPattern) (list : (n.get "elements").elements = .ok elements)
      (element : ∀ v ∈ elements, isHole v = false → InGrammar v) : InGrammar t
  | rest {t : Tree} {n : Node} (node : t.node? = some n) (kind : n.kind = .restElement)
      (argument : InGrammar (n.get "argument")) : InGrammar t
  | assignment {t : Tree} {n : Node} (node : t.node? = some n) (kind : n.kind = .assignmentPattern)
      (left : InGrammar (n.get "left")) : InGrammar t

theorem InGrammar.exists_node {t : Tree} (h : InGrammar t) : ∃ n, t.node? = some n := by
  cases h with
  | identifier named => exact ⟨_, named.choose_spec.1⟩
  | object node => exact ⟨_, node⟩
  | array node => exact ⟨_, node⟩
  | rest node => exact ⟨_, node⟩
  | assignment node => exact ⟨_, node⟩

theorem InGrammar.truthy {t : Tree} (h : InGrammar t) : t.truthy = true := by
  obtain ⟨n, hn⟩ := h.exists_node
  exact Tree.truthy_of_node? hn

theorem isIdentifier_eq {t : Tree} {n : Node} (h : t.node? = some n) :
    isIdentifier t = (n.kind == .identifier) := by
  rw [isIdentifier, Tree.object?_of_node? h, Option.any_some]

theorem entryTarget_property {v : Tree} {p : Node} (hv : v.node? = some p)
    (ht : (p.get "value").truthy = true) : entryTarget v = .single (p.get "value") := by
  rw [entryTarget, ← Tree.tree_of_node? hv]
  simp [Node.tree, Tree.get?, ht, bind, Except.bind, pure, Except.pure, Yield.ofExcept,
    Yield.single, Yield.ofList]

theorem entryTarget_rest {v : Tree} {p : Node} (hv : v.node? = some p)
    (ht : p.get "value" = .null) : entryTarget v = .single (p.get "argument") := by
  rw [entryTarget, ← Tree.tree_of_node? hv]
  simp [Node.tree, Tree.get?, ht, bind, Except.bind, pure, Except.pure, Yield.ofExcept,
    Yield.single, Yield.ofList, Tree.null, Tree.truthy, Atom.truthy]

end Pattern

namespace Node

/-- The members of a node are those that its kind asks for. -/
def WellShaped (n : Node) : Prop :=
  match n.kind with
  | .compound | .untyped | .all | .anyFunction | .anyClass | .variablePattern => False
  | .other name => name ≠ "pattern"
  | .program => (n.get "body").IsListOf fun v => ∃ m, v.object? = some m
  | .identifier => ∃ s, n.get "name" = .str s
  | .functionDeclaration | .functionExpression | .arrowFunctionExpression =>
    (n.get "id" = .null ∨ ∃ s, (n.get "id").IsIdentifier s) ∧
      (n.get "params").IsListOf Pattern.InGrammar
  | .classDeclaration | .classExpression => n.get "id" = .null ∨ ∃ s, (n.get "id").IsIdentifier s
  | .variableDeclaration => (n.get "declarations").IsListOf fun v =>
    ∃ d, v.object? = some d ∧ Pattern.InGrammar (d.get "id")
  | .tryStatement => n.get "handler" = .null ∨
    ∃ c, (n.get "handler").node? = some c ∧ c.kind = .catchClause
  | .catchClause => n.get "param" = .null ∨ Pattern.InGrammar (n.get "param")
  | .objectPattern => (n.get "properties").IsListOf fun _ => True
  | .arrayPattern => (n.get "elements").IsListOf fun _ => True
  | .importDeclaration => (n.get "specifiers").IsListOf fun _ => True
  | .importSpecifier | .importDefaultSpecifier | .importNamespaceSpecifier =>
    ∃ s, (n.get "local").IsIdentifier s
  | _ => True

/-- What may stand in a slot of a node. -/
def Admits (n : Node) (t : Tree) : Prop :=
  ∀ m, t.node? = some m → m.kind ≠ .program ∧
    (m.kind = .catchClause → n.kind = .tryStatement ∧ n.get "handler" = t)

end Node

inductive Tree.InVocabulary : Tree → Prop where
  | nothing {t : Tree} (absent : t.node? = none) : InVocabulary t
  | node {t : Tree} {n : Node} (present : t.node? = some n) (shape : n.WellShaped)
      (places : ∀ c ∈ n.slots.items, n.Admits c.value)
      (slots : ∀ c ∈ n.slots.items, InVocabulary c.value) : InVocabulary t

theorem Node.admits_of_kind {n m : Node} {t : Tree} (hm : t.node? = some m) (hp : m.kind ≠ .program)
    (hc : m.kind ≠ .catchClause) : n.Admits t := by
  intro k hk
  obtain rfl := Option.some.inj (hm.symm.trans hk)
  refine ⟨hp, ?_⟩
  intro h
  exact absurd h hc

theorem Tree.IsIdentifier.inVocabulary {t : Tree} {s : String} (h : t.IsIdentifier s) :
    t.InVocabulary := by
  obtain ⟨n, hn, hk, hs⟩ := h
  have none : n.slots.items = [] := by simp [Node.slots, hk]
  exact .node hn (by simp [Node.WellShaped, hk, hs]) (by simp [none]) (by simp [none])

section

variable {n : Node}

theorem fault_elements {P : Tree → Prop} {t : Tree} (h : t.IsListOf P) :
    (Yield.ofExcept t.elements).fault = none := by
  obtain ⟨vs, hv, -⟩ := h.elements
  rw [hv]
  rfl

@[simp]
theorem Node.fault_plain (key : String) : (n.plain key).fault = none := rfl

@[simp]
theorem Node.fault_target (key : String) : (n.target key).fault = none := rfl

@[simp]
theorem Node.fault_computedKey (key : String) : (n.computedKey key).fault = none := by
  unfold computedKey
  split <;> rfl

@[simp]
theorem Node.fault_propertySlots (entry : Tree) : (propertySlots entry).fault = none := by
  unfold propertySlots
  split
  · rfl
  · split <;> simp

theorem Node.WellShaped.fault_slots (h : n.WellShaped) : n.slots.fault = none := by
  unfold slots
  split
  case h_39 => rfl
  all_goals
    rename_i hk
    simp only [WellShaped, hk] at h <;>
      first
      | rfl
      | simp [targets, fault_elements h.2]
      | simp [targets, plains, fault_elements h]
      | simp

theorem Node.WellShaped.ne_compound (h : n.WellShaped) : n.kind ≠ .compound := by
  intro hk
  simp [WellShaped, hk] at h

theorem Node.WellShaped.isFunction {target : Bool} (h : n.WellShaped)
    (hr : .anyFunction ∈ n.reports target) : n.kind.isFunction = true := by
  refine isFunction_of_mem_reports hr fun hk => ?_
  simp [WellShaped, hk] at h

theorem Node.WellShaped.isClass {target : Bool} (h : n.WellShaped)
    (hr : .anyClass ∈ n.reports target) : n.kind.isClass = true := by
  refine isClass_of_mem_reports hr fun hk => ?_
  simp [WellShaped, hk] at h

theorem Node.WellShaped.function (h : n.WellShaped) (hk : n.kind.isFunction = true) :
    (n.get "id" = .null ∨ ∃ s, (n.get "id").IsIdentifier s) ∧
      (n.get "params").IsListOf Pattern.InGrammar := by
  cases hn : n.kind <;> simp_all [Kind.isFunction, WellShaped]

theorem Node.WellShaped.ofClass (h : n.WellShaped) (hk : n.kind.isClass = true) :
    n.get "id" = .null ∨ ∃ s, (n.get "id").IsIdentifier s := by
  cases hn : n.kind <;> simp_all [Kind.isClass, WellShaped]

theorem Node.mem_slots_member {key : String} {c : Node}
    (hs : n.slots = .ofList (n.fields.flatMap memberSlots)) (hk : key ∉ metadataKeys)
    (hc : (n.get key).node? = some c) : ⟨n.get key, false⟩ ∈ n.slots.items := by
  have ho := Tree.tree_of_node? hc
  rw [hs, Yield.items_ofList, List.mem_flatMap]
  cases hv : n.fields.lookup key with
  | none => simp [get, hv, Tree.null, Tree.node?] at hc
  | some v =>
    obtain ⟨before, after, hf, -⟩ := List.lookup_eq_some_iff.mp hv
    refine ⟨(key, v), by simp [hf], ?_⟩
    simp only [get, hv, Option.getD_some] at ho ⊢
    simp [← ho, memberSlots, hk, tree]

theorem Node.mem_slots_handler {c : Node} (hk : n.kind = .tryStatement)
    (hc : (n.get "handler").node? = some c) : ⟨n.get "handler", false⟩ ∈ n.slots.items :=
  mem_slots_member (by simp [slots, hk]) (by decide) hc

end

namespace Tree.InVocabulary

variable {outer : List Node} {s : Slot} {e : Event}

theorem wellShaped {t : Tree} {n : Node} (h : t.InVocabulary) (hn : t.node? = some n) :
    n.WellShaped ∧ ∀ c ∈ n.slots.items, n.Admits c.value ∧ c.value.InVocabulary := by
  cases h with
  | nothing absent => simp [absent] at hn
  | node present shape places slots =>
    obtain rfl := Option.some.inj (present.symm.trans hn)
    refine ⟨shape, ?_⟩
    intro c hc
    exact ⟨places c hc, slots c hc⟩

theorem madeOf {t : Tree} (h : t.InVocabulary) : t.MadeOf Node.WellShaped := by
  induction h with
  | nothing absent => exact .nothing absent
  | node present shape _ _ ih => exact .node present shape ih

/-- A walk through a tree of the vocabulary runs to its end. -/
theorem fault_walk (h : s.value.InVocabulary) : (walk outer s).fault = none :=
  h.madeOf.fault_walk fun _ shape => ⟨shape.fault_slots, shape.ne_compound⟩

theorem of_mem_walk (h : s.value.InVocabulary) (he : e ∈ (walk outer s).items) :
    e.node.tree.node? = some e.node ∧ e.node.tree.InVocabulary := by
  induction s using slot_induction generalizing outer with
  | step s ih =>
    obtain ⟨n, hn, he | ⟨c, hc, he⟩⟩ := mem_walk he
    · obtain ⟨-, -, rfl, -⟩ := Node.mem_events.mp he
      rw [Tree.tree_of_node? hn]
      exact ⟨hn, h⟩
    · exact ih n hn c hc ((h.wellShaped hn).2 c hc).2 he

theorem wellShaped_path (h : s.value.InVocabulary) (ho : ∀ m ∈ outer, m.WellShaped)
    (he : e ∈ (walk outer s).items) : ∀ m ∈ e.path, m.WellShaped :=
  h.madeOf.path ho he

theorem admits_parent (h : s.value.InVocabulary) (he : e ∈ (walk outer s).items) :
    e.outer = outer ∨ ∃ p around, e.outer = p :: around ∧ p.Admits e.node.tree := by
  induction s using slot_induction generalizing outer with
  | step s ih =>
    obtain ⟨n, hn, he | ⟨c, hc, he⟩⟩ := mem_walk he
    · exact .inl (Node.mem_events.mp he).2.2.2
    · obtain ⟨shape, inner⟩ := h.wellShaped hn
      refine .inr ?_
      rcases ih n hn c hc (inner c hc).2 he with ho | hp
      · obtain ⟨m, hm, hs⟩ := suffix_path_of_mem_walk he
        have same := hs.eq_of_length (by simp [Event.path, ho])
        obtain ⟨rfl, -⟩ := List.cons.inj same
        exact ⟨n, outer, ho, Tree.tree_of_node? hm ▸ (inner c hc).1⟩
      · exact hp

end Tree.InVocabulary

end LexicalScope
