import LexicalScope.Proofs.Binding.Exactness
import LexicalScope.Proofs.Vocabulary.Basic

/-! # What a pattern reaches

The parts of a pattern node are what it holds where a pattern is expected: the values and the rest
of an object pattern, the elements of an array pattern, the argument of a rest and the target of a
default. Keys and default values are no parts. Flattening goes from a pattern over the parts, and a
walk meets every part as a target.
-/

namespace LexicalScope

/-- A node of a pattern holds a tree where a pattern is expected. -/
inductive Node.HasPart (n : Node) : Tree → Prop where
  | value {entry : Tree} {p : Node} (kind : n.kind = .objectPattern)
      (holds : (n.get "properties").Holds entry) (node : entry.node? = some p)
      (property : p.kind = .property) : HasPart n (p.get "value")
  | remainder {entry : Tree} {p : Node} (kind : n.kind = .objectPattern)
      (holds : (n.get "properties").Holds entry) (node : entry.node? = some p)
      (rest : p.kind = .restElement) : HasPart n (p.get "argument")
  | element {v : Tree} (kind : n.kind = .arrayPattern) (holds : (n.get "elements").Holds v)
      (present : Pattern.isHole v = false) : HasPart n v
  | argument (kind : n.kind = .restElement) : HasPart n (n.get "argument")
  | left (kind : n.kind = .assignmentPattern) : HasPart n (n.get "left")

/-- A pattern leads over parts to a tree, with some nodes around it in the pattern, innermost
first. -/
inductive Pattern.Reaches (pattern : Tree) : List Node → Tree → Prop where
  | whole : Reaches pattern [] pattern
  | part {n : Node} {around : List Node} {u v : Tree} (inner : Reaches pattern around u)
      (node : u.node? = some n) (part : n.HasPart v) : Reaches pattern (n :: around) v

namespace Node

variable {n : Node} {v : Tree}

theorem HasPart.isPattern (h : n.HasPart v) : n.kind.isPattern = true := by
  cases h with
  | value kind | remainder kind | element kind | argument kind | left kind =>
    rw [kind]
    rfl

theorem hasPart_object (hk : n.kind = .objectPattern) : n.HasPart v ↔ ∃ entry p,
    (n.get "properties").Holds entry ∧ entry.node? = some p ∧
      (p.kind = .property ∧ v = p.get "value" ∨ p.kind = .restElement ∧ v = p.get "argument") := by
  constructor
  · intro h
    cases h with
    | value _ holds node property => exact ⟨_, _, holds, node, .inl ⟨property, rfl⟩⟩
    | remainder _ holds node rest => exact ⟨_, _, holds, node, .inr ⟨rest, rfl⟩⟩
    | element kind | argument kind | left kind => simp [hk] at kind
  · rintro ⟨entry, p, holds, node, ⟨property, rfl⟩ | ⟨rest, rfl⟩⟩
    · exact .value hk holds node property
    · exact .remainder hk holds node rest

theorem hasPart_array (hk : n.kind = .arrayPattern) :
    n.HasPart v ↔ (n.get "elements").Holds v ∧ Pattern.isHole v = false := by
  constructor
  · intro h
    cases h with
    | element _ holds present => exact ⟨holds, present⟩
    | value kind | remainder kind | argument kind | left kind => simp [hk] at kind
  · rintro ⟨holds, present⟩
    exact .element hk holds present

theorem hasPart_rest (hk : n.kind = .restElement) : n.HasPart v ↔ v = n.get "argument" := by
  constructor
  · intro h
    cases h with
    | argument => rfl
    | value kind | remainder kind | element kind | left kind => simp [hk] at kind
  · rintro rfl
    exact .argument hk

theorem hasPart_assignment (hk : n.kind = .assignmentPattern) :
    n.HasPart v ↔ v = n.get "left" := by
  constructor
  · intro h
    cases h with
    | left => rfl
    | value kind | remainder kind | element kind | argument kind => simp [hk] at kind
  · rintro rfl
    exact .left hk

theorem HasPart.mem_slots (h : n.HasPart v) : ⟨v, true⟩ ∈ n.slots.items := by
  have entry {key : String} {entry : Tree} (holds : (n.get key).Holds entry) {c : Slot}
      (hc : c ∈ (propertySlots entry).items) :
      c ∈ ((Yield.ofExcept (n.get key).elements).flatMap propertySlots).items := by
    obtain ⟨vs, hv, hm⟩ := holds
    rw [hv]
    refine (Yield.mem_flatMap_iff (Yield.fault_flatMap.mpr ⟨rfl, fun v _ => ?_⟩)).mpr
      ⟨entry, hm, hc⟩
    exact fault_propertySlots v
  cases h with
  | value kind holds node property =>
    simp only [slots, kind]
    refine entry holds ?_
    rw [propertySlots, node]
    simp only [property, if_true]
    refine (Yield.mem_append_iff ?_).mpr (.inr List.mem_cons_self)
    exact Yield.fault_append.mpr ⟨fault_computedKey _, rfl⟩
  | remainder kind holds node rest =>
    simp only [slots, kind]
    refine entry holds ?_
    rw [propertySlots, node]
    simp only [rest, reduceCtorEq, if_false]
    exact List.mem_cons_self
  | element kind holds present =>
    obtain ⟨vs, hv, hm⟩ := holds
    simp only [slots, kind, targets, hv]
    exact List.mem_map_of_mem hm
  | argument kind =>
    simp only [slots, kind]
    exact List.mem_cons_self
  | left kind =>
    simp only [slots, kind]
    exact List.mem_cons_self

/-- The parts of a node can be told, for its lists are lists and its entries properties or rests. -/
def HasParts (n : Node) : Prop :=
  match n.kind with
  | .objectPattern => ∃ vs, (n.get "properties").elements = .ok vs ∧ ∀ v ∈ vs, ∃ p,
    v.node? = some p ∧ (p.kind = .property ∧ (p.get "value").truthy = true ∨
      p.kind = .restElement ∧ p.get "value" = .null)
  | .arrayPattern => ∃ vs, (n.get "elements").elements = .ok vs
  | _ => True

end Node

namespace Pattern

variable {t u v : Tree} {n : Node} {around : List Node} {x : Atom}

theorem mem_entryTarget {entry : Tree} {p : Node} (hp : entry.node? = some p)
    (shape : p.kind = .property ∧ (p.get "value").truthy = true ∨
      p.kind = .restElement ∧ p.get "value" = .null) :
    (entryTarget entry).fault = none ∧ (v ∈ (entryTarget entry).items ↔
      p.kind = .property ∧ v = p.get "value" ∨ p.kind = .restElement ∧ v = p.get "argument") := by
  rcases shape with ⟨kind, truthy⟩ | ⟨kind, none⟩
  · rw [entryTarget_property hp truthy]
    simp [kind]
  · rw [entryTarget_rest hp none]
    simp [kind]

/-- The flattening of a pattern node goes over just its parts. -/
theorem exists_parts (hn : t.node? = some n) (hk : n.kind.isPattern = true) (shape : n.HasParts) :
    ∃ ps, parts? t = some ps ∧ ps.fault = none ∧ ∀ v, v ∈ ps.items ↔ n.HasPart v := by
  have ho := Tree.object?_of_node? hn
  unfold Node.HasParts at shape
  cases kind : n.kind <;> simp only [kind, Kind.isPattern, Bool.false_eq_true] at hk shape
  case objectPattern =>
    obtain ⟨vs, list, each⟩ := shape
    have ends : ((Yield.ofExcept (.ok vs)).flatMap entryTarget).fault = none := by
      refine Yield.fault_flatMap.mpr ⟨rfl, fun entry holds => ?_⟩
      obtain ⟨p, hp, shape⟩ := each entry holds
      exact (mem_entryTarget (v := entry) hp shape).1
    refine ⟨_, by simp [parts?, ho, kind, list], ends, fun v => ?_⟩
    rw [Yield.mem_flatMap_iff ends, Node.hasPart_object kind]
    constructor
    · rintro ⟨entry, holds, hv⟩
      obtain ⟨p, hp, shape⟩ := each entry holds
      exact ⟨entry, p, ⟨vs, list, holds⟩, hp, (mem_entryTarget hp shape).2.mp hv⟩
    · rintro ⟨entry, p, ⟨vs', list', holds⟩, hp, target⟩
      obtain rfl : vs = vs' := Except.ok.inj (list.symm.trans list')
      obtain ⟨p', hp', shape⟩ := each entry holds
      obtain rfl : p = p' := Option.some.inj (hp.symm.trans hp')
      exact ⟨entry, holds, (mem_entryTarget hp shape).2.mpr target⟩
  case arrayPattern =>
    obtain ⟨vs, list⟩ := shape
    refine ⟨.ofList (vs.filter (!isHole ·)), ?_, rfl, fun v => ?_⟩
    · simp [parts?, ho, kind, list, Except.map, Yield.ofExcept]
    · rw [Node.hasPart_array kind, Yield.items_ofList, List.mem_filter]
      simp [Tree.Holds, list]
  case restElement =>
    refine ⟨.single (n.get "argument"), by simp [parts?, ho, kind], rfl, fun v => ?_⟩
    rw [Node.hasPart_rest kind, Yield.items_single, List.mem_singleton]
  case assignmentPattern =>
    refine ⟨.single (n.get "left"), by simp [parts?, ho, kind], rfl, fun v => ?_⟩
    rw [Node.hasPart_assignment kind, Yield.items_single, List.mem_singleton]

theorem isIdentifier_of_isPattern (hn : t.node? = some n) (hk : n.kind.isPattern = true) :
    isIdentifier t = false := by
  rw [isIdentifier_eq hn]
  cases kind : n.kind <;> simp_all [Kind.isPattern]

theorem names_of_hasParts (hn : t.node? = some n) (hk : n.kind.isPattern = true)
    (shape : n.HasParts) : ((names t).fault = none ↔ ∀ v, n.HasPart v → (names v).fault = none) ∧
      ((names t).fault = none → ∀ x, Binds t x ↔ ∃ v, n.HasPart v ∧ Binds v x) := by
  obtain ⟨ps, parts, ends, mem⟩ := exists_parts hn hk shape
  rw [names_of_parts (isIdentifier_of_isPattern hn hk) parts]
  refine ⟨?_, fun h x => ?_⟩
  · simp only [Yield.fault_flatMap, ends, mem, true_and]
  · rw [Binds, names_of_parts (isIdentifier_of_isPattern hn hk) parts, Yield.mem_flatMap_iff h]
    simp only [mem, Binds]

theorem Reaches.isPattern (h : Reaches t around u) : ∀ m ∈ around, m.kind.isPattern = true := by
  induction h with
  | whole => simp
  | part _ _ part ih => exact List.forall_mem_cons.mpr ⟨part.isPattern, ih⟩

theorem Reaches.exists_node (h : Reaches t around u) (hu : u.node? = some n) :
    ∃ m, t.node? = some m := by
  induction h generalizing n with
  | whole => exact ⟨n, hu⟩
  | part _ node _ ih => exact ih node

theorem InGrammar.shape (h : InGrammar t) (hn : t.node? = some n) : n.HasParts ∧
    (n.kind = .identifier ∧ (∃ s, n.get "name" = .str s) ∨ n.kind.isPattern = true) := by
  cases h with
  | @identifier _ s named =>
    obtain ⟨m, hm, kind, name⟩ := named
    obtain rfl := Option.some.inj (hn.symm.trans hm)
    exact ⟨by simp [Node.HasParts, kind], .inl ⟨kind, s, name⟩⟩
  | object node kind list entry value =>
    obtain rfl := Option.some.inj (hn.symm.trans node)
    refine ⟨?_, .inr (by rw [kind]; rfl)⟩
    simp only [Node.HasParts, kind]
    refine ⟨_, list, fun v hv => ?_⟩
    obtain ⟨p, hp, shape⟩ := entry v hv
    exact ⟨p, hp, shape.imp_left fun hk => ⟨hk, (value v hv p hp hk).truthy⟩⟩
  | array node kind list =>
    obtain rfl := Option.some.inj (hn.symm.trans node)
    refine ⟨?_, .inr (by rw [kind]; rfl)⟩
    simp only [Node.HasParts, kind]
    exact ⟨_, list⟩
  | rest node kind | assignment node kind =>
    obtain rfl := Option.some.inj (hn.symm.trans node)
    exact ⟨by simp [Node.HasParts, kind], .inr (by rw [kind]; rfl)⟩

theorem InGrammar.part (h : InGrammar t) (hn : t.node? = some n) (hv : n.HasPart v) :
    InGrammar v := by
  cases h with
  | identifier named =>
    obtain ⟨m, hm, kind, -⟩ := named
    obtain rfl := Option.some.inj (hn.symm.trans hm)
    have hk := hv.isPattern
    rw [kind] at hk
    cases hk
  | object node kind list entry value rest =>
    obtain rfl := Option.some.inj (hn.symm.trans node)
    obtain ⟨e, p, ⟨vs, list', he⟩, hp, ⟨hk, rfl⟩ | ⟨hk, rfl⟩⟩ := (Node.hasPart_object kind).mp hv
      <;> obtain rfl := Except.ok.inj (list.symm.trans list')
    · exact value e he p hp hk
    · exact rest e he p hp hk
  | array node kind list element =>
    obtain rfl := Option.some.inj (hn.symm.trans node)
    obtain ⟨⟨vs, list', hm⟩, present⟩ := (Node.hasPart_array kind).mp hv
    obtain rfl := Except.ok.inj (list.symm.trans list')
    exact element v hm present
  | rest node kind argument =>
    obtain rfl := Option.some.inj (hn.symm.trans node)
    rwa [(Node.hasPart_rest kind).mp hv]
  | assignment node kind left =>
    obtain rfl := Option.some.inj (hn.symm.trans node)
    rwa [(Node.hasPart_assignment kind).mp hv]

theorem InGrammar.of_reaches (h : InGrammar t) (reaches : Reaches t around u) : InGrammar u := by
  induction reaches with
  | whole => exact h
  | part _ node part ih => exact ih.part node part

theorem binds_of_isIdentifier {s : String} (h : u.IsIdentifier s) : Binds u (.str s) := by
  obtain ⟨n, hn, kind, -⟩ := id h
  rw [Binds, names_of_isIdentifier (by simp [isIdentifier_eq hn, kind]), h.field]
  exact List.mem_singleton_self _

end Pattern

end LexicalScope
