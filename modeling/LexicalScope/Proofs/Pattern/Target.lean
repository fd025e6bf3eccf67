import LexicalScope.Proofs.BindingSite
import LexicalScope.Proofs.Walk.Below

/-! # Patterns as targets

Flattening a pattern and walking it as a target are two recursions over one grammar. Of what a walk
reports, the leaves of the pattern are the targets with nothing but pattern nodes around them. Their
names are those that flattening gives, one for one, and nothing that a default value or a computed
key holds is among them.
-/

namespace LexicalScope

namespace Yield

variable {α β : Type}

theorem prefix_append (p q : Yield α) : p.items <+: (p ++ q).items := by
  obtain ⟨as, _ | e⟩ := p
  · exact List.prefix_append _ _
  · exact List.prefix_rfl

theorem mem_append_or {p q : Yield α} {a : α} (h : a ∈ (p ++ q).items) :
    a ∈ p.items ∨ p.fault = none ∧ a ∈ q.items := by
  obtain ⟨as, _ | e⟩ := p
  · simpa using h
  · exact .inl (by simpa using h)

theorem exists_infix_collect {f : α → Yield β} {as : List α} {b : β}
    (h : b ∈ (collect f as).items) :
    ∃ a ∈ as, b ∈ (f a).items ∧ (f a).items <:+: (collect f as).items := by
  induction as with
  | nil => cases h
  | cons a as ih =>
    rcases mem_append_or h with h | ⟨ends, h⟩
    · exact ⟨a, List.mem_cons_self, h, (prefix_append _ _).isInfix⟩
    · obtain ⟨c, hc, h, part⟩ := ih h
      refine ⟨c, List.mem_cons_of_mem _ hc, h, part.trans ?_⟩
      rw [collect_cons, items_append _ ends]
      exact (List.suffix_append _ _).isInfix

theorem exists_infix_flatMap {p : Yield α} {f : α → Yield β} {b : β}
    (h : b ∈ (p.flatMap f).items) :
    ∃ a ∈ p.items, b ∈ (f a).items ∧ (f a).items <:+: (p.flatMap f).items := by
  rcases mem_append h with h | h
  · obtain ⟨a, ha, h, part⟩ := exists_infix_collect h
    exact ⟨a, ha, h, part.trans (prefix_append _ _).isInfix⟩
  · cases h

theorem collect_filter (q : α → Bool) (f : α → Yield β) (as : List α) :
    collect f (as.filter q) = collect (fun a => if q a then f a else empty) as := by
  induction as with
  | nil => rfl
  | cons a as ih =>
    rw [collect_cons, ← ih, List.filter_cons]
    split
    · rfl
    · rw [empty_append]

end Yield

/-- The slots of a reported node have been walked to their ends, each in one stretch of the walk. -/
theorem Visits.walk_slots {outer around : List Node} {s : Slot} {n : Node}
    (h : Visits outer s n around) : n.slots.fault = none ∧ ∀ c ∈ n.slots.items,
      (walk (n :: around) c).fault = none ∧
        (walk (n :: around) c).items <:+: (walk outer s).items := by
  induction s using slot_induction generalizing outer with
  | step s ih =>
    obtain ⟨e, he, rfl, rfl⟩ := h
    obtain ⟨m, hm, -⟩ := LexicalScope.mem_walk he
    rw [walk_of_node?_eq_some hm] at he ⊢
    have inner := Yield.prefix_append (m.slots.flatMap (walk (m :: outer)))
      (m.events outer s.target)
    rcases Yield.mem_append_or he with he | ⟨ends, he⟩
    · obtain ⟨d, hd, he, part⟩ := Yield.exists_infix_flatMap he
      obtain ⟨slots, each⟩ := ih m hm d hd ⟨e, he, rfl, rfl⟩
      refine ⟨slots, fun c hc => ?_⟩
      exact (each c hc).imp_right fun h => (h.trans part).trans inner.isInfix
    · obtain ⟨-, -, rfl, rfl⟩ := Node.mem_events.mp he
      obtain ⟨slots, each⟩ := Yield.fault_flatMap.mp ends
      refine ⟨slots, fun c hc => ⟨each c hc, List.IsInfix.trans ?_ inner.isInfix⟩⟩
      obtain ⟨before, after, split⟩ := List.append_of_mem hc
      rw [Yield.items_flatMap ends, split, List.flatMap_append, List.flatMap_cons]
      exact List.infix_append' _ _ _

namespace Event

/-- The report of a target with nothing but pattern nodes around it. -/
def isLeaf (e : Event) : Bool :=
  e.kind == .variablePattern && e.outer.all (·.kind.isPattern)

def leafNames (y : Yield Event) : Yield Tree :=
  ⟨(y.items.filter isLeaf).map (·.node.get "name"), y.fault⟩

variable {y : Yield Event} {n : Node}

theorem leafNames_append (p q : Yield Event) :
    leafNames (p ++ q) = leafNames p ++ leafNames q := by
  obtain ⟨as, _ | e⟩ := p <;> simp [leafNames]

theorem leafNames_collect {α : Type} (f : α → Yield Event) (as : List α) :
    leafNames (Yield.collect f as) = Yield.collect (fun a => leafNames (f a)) as := by
  induction as with
  | nil => rfl
  | cons a as ih => rw [Yield.collect_cons, leafNames_append, ih, Yield.collect_cons]

theorem leafNames_flatMap {α : Type} (p : Yield α) (f : α → Yield Event) :
    leafNames (p.flatMap f) = p.flatMap fun a => leafNames (f a) := by
  rw [Yield.flatMap, leafNames_append, leafNames_collect]
  rfl

theorem leafNames_eq_empty (ends : y.fault = none) (none : ∀ e ∈ y.items, e.isLeaf = false) :
    leafNames y = .empty := by
  have empty : y.items.filter isLeaf = [] := by
    rw [List.filter_eq_nil_iff]
    intro e he
    simp [none e he]
  rw [leafNames, empty, ends]
  rfl

theorem leafNames_below (hn : n.kind.isPattern = true) (y : Yield Event) :
    leafNames (y.map (below [n])) = leafNames y := by
  have same : isLeaf ∘ below [n] = isLeaf := by
    funext e
    simp [isLeaf, hn]
  have name : (fun e : Event => e.node.get "name") ∘ below [n] = fun e => e.node.get "name" := rfl
  rw [leafNames, Yield.items_map, List.filter_map, List.map_map, same, name, Yield.fault_map]
  rfl

end Event

/-- An expression, as far as a pattern has to do with it: it can be walked and is no pattern itself.
-/
def Tree.IsExpression (t : Tree) : Prop :=
  t.events.fault = none ∧
    ∀ m, t.node? = some m → m.kind ≠ .variablePattern ∧ m.kind.isPattern = false

/-- A node of a pattern holds an expression: a default value or a computed key. -/
inductive Node.HasExpression (n : Node) : Tree → Prop where
  | default (kind : n.kind = .assignmentPattern) : HasExpression n (n.get "right")
  | key {entry : Tree} {p : Node} (kind : n.kind = .objectPattern)
      (holds : (n.get "properties").Holds entry) (node : entry.node? = some p)
      (property : p.kind = .property) (computed : (p.get "computed").truthy = true) :
      HasExpression n (p.get "key")

/-- A pattern holds an expression, with some nodes around it in the pattern, innermost first. -/
inductive Pattern.HoldsExpression (pattern d : Tree) : List Node → Prop where
  | intro {u : Tree} {n : Node} {around : List Node} (reaches : Reaches pattern around u)
      (node : u.node? = some n) (holds : n.HasExpression d) :
      HoldsExpression pattern d (n :: around)

/-- A node has a pattern for its target: what is declared, taken as an argument, caught or assigned
to. -/
inductive Node.HasTarget (n : Node) : Tree → Prop where
  | declared (kind : n.kind = .variableDeclarator) : HasTarget n (n.get "id")
  | parameter {p : Tree} (kind : n.kind.isFunction = true) (holds : (n.get "params").Holds p) :
      HasTarget n p
  | caught (kind : n.kind = .catchClause) : HasTarget n (n.get "param")
  | assigned (kind : n.kind = .assignmentExpression) : HasTarget n (n.get "left")

namespace Node

variable {n : Node} {d p : Tree}

theorem HasTarget.mem_slots (h : n.HasTarget p) (ends : n.slots.fault = none) :
    ⟨p, true⟩ ∈ n.slots.items := by
  cases h with
  | declared kind => exact mem_slots_id (.inl kind)
  | parameter kind holds => exact mem_slots_params kind ends holds
  | caught kind => exact mem_slots_param kind
  | assigned kind => simp [slots, kind, target, Yield.single]

theorem HasExpression.mem_slots (h : n.HasExpression d) : ⟨d, false⟩ ∈ n.slots.items := by
  cases h with
  | default kind => simp [slots, kind, plain, target, Yield.single]
  | @key entry p kind holds node property computed =>
    have own : ⟨p.get "key", false⟩ ∈ (propertySlots entry).items := by
      simp [propertySlots, node, property, computedKey, computed, plain, target, Yield.single]
    obtain ⟨vs, list, hm⟩ := holds
    simp only [slots, kind, list]
    refine (Yield.mem_flatMap_iff (Yield.fault_flatMap.mpr ⟨rfl, fun v _ => ?_⟩)).mpr
      ⟨entry, hm, own⟩
    exact fault_propertySlots v

end Node

/-- Below an expression no target is a leaf, for the expression stands around all that it holds. -/
theorem Tree.IsExpression.exists_between {d : Tree} (h : d.IsExpression) {e : Event}
    (he : e ∈ (walk [] ⟨d, false⟩).items) :
    (∃ k ∈ e.outer, k.kind.isPattern = false) ∨ e.outer = [] ∧ d.node? = some e.node ∧
      e.kind ∈ e.node.reports false ∧ e.kind ≠ .variablePattern := by
  obtain ⟨m, hm, own⟩ := mem_walk he
  obtain ⟨target, pattern⟩ := h.2 m hm
  rcases own with own | ⟨c, -, inner⟩
  · obtain ⟨-, reports, rfl, outer⟩ := Node.mem_events.mp own
    refine .inr ⟨outer, hm, reports, fun leaf => ?_⟩
    rw [leaf] at reports
    have identifier := Node.kind_of_variablePattern_mem_reports reports target
    simp [Node.reports, identifier] at reports
  · obtain ⟨k, -, path⟩ := suffix_path_of_mem_walk inner
    refine .inl ⟨m, ?_, pattern⟩
    -- the expression is one of the nodes around the report
    rcases List.suffix_cons_iff.mp path with same | inside
    · rw [← (List.cons.inj same).2]
      exact List.mem_cons_self
    · exact inside.subset (List.mem_cons_of_mem _ List.mem_cons_self)

namespace Pattern

variable {p d u : Tree} {n : Node} {around : List Node}

theorem leafNames_walk_node (hn : u.node? = some n) (hp : n.kind.isPattern = true) :
    Event.leafNames (walk [] ⟨u, true⟩) =
      n.slots.flatMap fun c => Event.leafNames (walk [] c) := by
  have own : Event.leafNames (n.events [] true) = .empty := by
    refine Event.leafNames_eq_empty (Node.fault_events.mpr fun compound => ?_) fun e he => ?_
    · rw [compound] at hp
      cases hp
    · obtain ⟨-, reports, rfl, -⟩ := Node.mem_events.mp he
      have kind := Node.kind_of_mem_reports reports
      cases hk : e.node.kind <;>
        simp_all [Kind.isPattern, Kind.isFunction, Kind.isClass, Event.isLeaf]
  rw [walk_of_node?_eq_some hn, Event.leafNames_append, own, Yield.append_empty,
    Event.leafNames_flatMap]
  refine Yield.flatMap_congr fun c _ => ?_
  rw [show [n] = [] ++ [n] from rfl, walk_append, Event.leafNames_below hp]

theorem leafNames_walk_expression (h : d.IsExpression) :
    Event.leafNames (walk [] ⟨d, false⟩) = .empty := by
  refine Event.leafNames_eq_empty h.1 fun e he => ?_
  rw [Event.isLeaf, Bool.and_eq_false_iff]
  rcases h.exists_between he with ⟨k, hk, pattern⟩ | ⟨-, -, -, target⟩
  · exact .inr (List.all_eq_false.mpr ⟨k, hk, by simp [pattern]⟩)
  · exact .inl (by simpa using target)

/-- A pattern node gives what its slots give, if these are its parts and inspected alike. -/
theorem leafNames_walk_of_parts {parts : Yield Tree} (hn : u.node? = some n)
    (hp : n.kind.isPattern = true) (hu : parts? u = some parts)
    (same : (n.slots.flatMap fun c => Event.leafNames (walk [] c)) = parts.flatMap names) :
    Event.leafNames (walk [] ⟨u, true⟩) = names u := by
  rw [leafNames_walk_node hn hp, names_of_parts (isIdentifier_of_isPattern hn hp) hu, same]

theorem leafNames_walk_identifier {s : String} (named : u.IsIdentifier s) :
    Event.leafNames (walk [] ⟨u, true⟩) = names u := by
  obtain ⟨n, hn, kind, name⟩ := id named
  rw [names_of_isIdentifier (by simp [isIdentifier_eq hn, kind]), named.field,
    walk_of_node?_eq_some hn]
  simp [Node.slots, kind, Node.events, Node.reports, Event.leafNames, Event.isLeaf, name,
    Except.map, Yield.ofExcept, Yield.ofList, Yield.flatMap, Yield.empty]

theorem leafNames_computedKey {p : Node}
    (key : (p.get "computed").truthy = true →
      Event.leafNames (walk [] ⟨p.get "key", false⟩) = .empty) :
    (p.computedKey "key").flatMap (fun c => Event.leafNames (walk [] c)) = .empty := by
  unfold Node.computedKey
  split
  · next computed =>
    rw [Node.plain, Yield.flatMap_single]
    exact key computed
  · rfl

theorem leafNames_property {v : Tree} {p : Node} (hv : v.node? = some p)
    (property : p.kind = .property) (truthy : (p.get "value").truthy = true)
    (key : (p.get "computed").truthy = true →
      Event.leafNames (walk [] ⟨p.get "key", false⟩) = .empty)
    (value : Event.leafNames (walk [] ⟨p.get "value", true⟩) = names (p.get "value")) :
    ((Node.propertySlots v).flatMap fun c => Event.leafNames (walk [] c)) =
      (entryTarget v).flatMap names := by
  rw [entryTarget_property hv truthy, Yield.flatMap_single]
  simp only [Node.propertySlots, hv, property, if_true]
  rw [Yield.flatMap_append, leafNames_computedKey key, Yield.empty_append, Node.target,
    Yield.flatMap_single, value]

theorem leafNames_remainder {v : Tree} {p : Node} (hv : v.node? = some p)
    (rest : p.kind = .restElement) (none : p.get "value" = .null)
    (argument : Event.leafNames (walk [] ⟨p.get "argument", true⟩) = names (p.get "argument")) :
    ((Node.propertySlots v).flatMap fun c => Event.leafNames (walk [] c)) =
      (entryTarget v).flatMap names := by
  rw [entryTarget_rest hv none, Yield.flatMap_single]
  simp only [Node.propertySlots, hv, rest, reduceCtorEq, if_false]
  rw [Node.target, Yield.flatMap_single, argument]

theorem leafNames_walk_object {entries : List Tree} (hn : u.node? = some n)
    (kind : n.kind = .objectPattern) (list : (n.get "properties").elements = .ok entries)
    (each : ∀ v ∈ entries, ((Node.propertySlots v).flatMap fun c => Event.leafNames (walk [] c)) =
      (entryTarget v).flatMap names) :
    Event.leafNames (walk [] ⟨u, true⟩) = names u := by
  have parts : parts? u = some ((Yield.ofList entries).flatMap entryTarget) := by
    simp [parts?, Tree.object?_of_node? hn, kind, list, Yield.ofExcept]
  have slots : n.slots = (Yield.ofList entries).flatMap Node.propertySlots := by
    simp [Node.slots, kind, list, Yield.ofExcept]
  refine leafNames_walk_of_parts hn (by rw [kind]; rfl) parts ?_
  rw [slots, Yield.flatMap_ofList, Yield.flatMap_ofList, Yield.flatMap_collect,
    Yield.flatMap_collect]
  exact Yield.collect_congr each

theorem leafNames_walk_array {elements : List Tree} (hn : u.node? = some n)
    (kind : n.kind = .arrayPattern) (list : (n.get "elements").elements = .ok elements)
    (each : ∀ v ∈ elements, isHole v = false →
      Event.leafNames (walk [] ⟨v, true⟩) = names v) :
    Event.leafNames (walk [] ⟨u, true⟩) = names u := by
  have parts : parts? u = some (.ofList (elements.filter (!isHole ·))) := by
    simp [parts?, Tree.object?_of_node? hn, kind, list, Except.map, Yield.ofExcept]
  have slots : n.slots = (Yield.ofList elements).map (⟨·, true⟩) := by
    simp [Node.slots, kind, Node.targets, list, Yield.ofExcept]
  refine leafNames_walk_of_parts hn (by rw [kind]; rfl) parts ?_
  rw [slots, Yield.flatMap_map, Yield.flatMap_ofList, Yield.flatMap_ofList, Yield.collect_filter]
  refine Yield.collect_congr fun v hv => ?_
  cases hole : isHole v with
  | true =>
    obtain rfl := isHole_eq_true.mp hole
    rw [Function.comp_apply, walk_of_node?_eq_none rfl]
    rfl
  | false => exact each v hv hole

theorem leafNames_walk_rest (hn : u.node? = some n) (kind : n.kind = .restElement)
    (argument : Event.leafNames (walk [] ⟨n.get "argument", true⟩) = names (n.get "argument")) :
    Event.leafNames (walk [] ⟨u, true⟩) = names u := by
  have parts : parts? u = some (.single (n.get "argument")) := by
    simp [parts?, Tree.object?_of_node? hn, kind]
  refine leafNames_walk_of_parts hn (by rw [kind]; rfl) parts ?_
  simp only [Node.slots, kind]
  rw [Node.target, Yield.flatMap_single, Yield.flatMap_single, argument]

theorem leafNames_walk_assignment (hn : u.node? = some n) (kind : n.kind = .assignmentPattern)
    (left : Event.leafNames (walk [] ⟨n.get "left", true⟩) = names (n.get "left"))
    (right : Event.leafNames (walk [] ⟨n.get "right", false⟩) = .empty) :
    Event.leafNames (walk [] ⟨u, true⟩) = names u := by
  have parts : parts? u = some (.single (n.get "left")) := by
    simp [parts?, Tree.object?_of_node? hn, kind]
  refine leafNames_walk_of_parts hn (by rw [kind]; rfl) parts ?_
  simp only [Node.slots, kind]
  rw [Yield.flatMap_append, Node.target, Node.plain, Yield.flatMap_single, Yield.flatMap_single,
    Yield.flatMap_single, left, right, Yield.append_empty]

/-- Flattening and walking agree on all that a pattern leads to. -/
theorem leafNames_walk (expressions : ∀ d around, HoldsExpression p d around → d.IsExpression)
    (reaches : Reaches p around u) (grammar : InGrammar u) :
    Event.leafNames (walk [] ⟨u, true⟩) = names u := by
  have empty {n : Node} {around : List Node} {u d : Tree} (reaches : Reaches p around u)
      (hn : u.node? = some n) (hd : n.HasExpression d) :
      Event.leafNames (walk [] ⟨d, false⟩) = .empty :=
    leafNames_walk_expression (expressions d _ (.intro reaches hn hd))
  induction grammar generalizing around with
  | identifier named => exact leafNames_walk_identifier named
  | object node kind list entry value rest ihValue ihRest =>
    refine leafNames_walk_object node kind list fun v hv => ?_
    obtain ⟨k, hk, property | ⟨isRest, none⟩⟩ := entry v hv
    · have part := Reaches.part reaches node (.value kind ⟨_, list, hv⟩ hk property)
      exact leafNames_property hk property (value v hv k hk property).truthy
        (fun computed => empty reaches node (.key kind ⟨_, list, hv⟩ hk property computed))
        (ihValue v hv k hk property part)
    · have part := Reaches.part reaches node (.remainder kind ⟨_, list, hv⟩ hk isRest)
      exact leafNames_remainder hk isRest none (ihRest v hv k hk isRest part)
  | array node kind list element ih =>
    exact leafNames_walk_array node kind list fun v hv hole =>
      ih v hv hole (.part reaches node (.element kind ⟨_, list, hv⟩ hole))
  | rest node kind argument ih =>
    exact leafNames_walk_rest node kind (ih (.part reaches node (.argument kind)))
  | assignment node kind left ih =>
    exact leafNames_walk_assignment node kind (ih (.part reaches node (.left kind)))
      (empty reaches node (.default kind))

theorem Reaches.visits (reaches : Reaches p around u) (ends : (walk [] ⟨p, true⟩).fault = none)
    (hu : u.node? = some n) : Visits [] ⟨p, true⟩ n around := by
  induction reaches generalizing n with
  | whole => exact (Visits.iff hu ends).mpr (.inr ⟨rfl, rfl⟩)
  | part _ node part ih => exact (ih node).slot ends part.mem_slots hu

/-- Flattening a pattern gives the names of its leaves in the order of the walk, none of them from
inside an expression. -/
theorem names_eq_leaves (grammar : InGrammar p)
    (expressions : ∀ d around, HoldsExpression p d around → d.IsExpression) :
    ∃ events, walk [] ⟨p, true⟩ = .ofList events ∧
      names p = .ofList ((events.filter Event.isLeaf).map (·.node.get "name")) ∧
      (∀ (t : Tree) n ns, Visits [] ⟨t, false⟩ n ns → n.HasTarget p →
        events.map (Event.below (n :: ns)) <:+: t.events.items) ∧
      ∀ d around, HoldsExpression p d around → ∃ inner, d.events = .ofList inner ∧
        inner.map (Event.below around) <:+: events ∧
        ∀ e ∈ inner, (∃ k ∈ e.outer, k.kind.isPattern = false) ∨
          e.outer = [] ∧ d.node? = some e.node ∧ e.kind ∈ e.node.reports false ∧
            e.kind ≠ .variablePattern := by
  have same := leafNames_walk expressions .whole grammar
  have ends : (walk [] ⟨p, true⟩).fault = none :=
    (congrArg Yield.fault same).trans grammar.fault_names
  have complete {y : Yield Event} (h : y.fault = none) : y = .ofList y.items := by
    obtain ⟨items, fault⟩ := y
    obtain rfl : fault = none := h
    rfl
  refine ⟨_, complete ends, ?_, fun t n ns visits target => ?_, fun d around holds => ?_⟩
  · rw [← same, Event.leafNames, ends]
    rfl
  · obtain ⟨slots, each⟩ := visits.walk_slots
    have part := (each _ (target.mem_slots slots)).2
    rwa [← List.nil_append (n :: ns), walk_append] at part
  · have expression := expressions d around holds
    refine ⟨_, complete expression.1, ?_, fun e he => expression.exists_between he⟩
    obtain ⟨reaches, node, own⟩ := holds
    have part := ((reaches.visits ends node).walk_slots.2 _ own.mem_slots).2
    rwa [← List.nil_append (_ :: _), walk_append] at part

end Pattern

def Tree.isExpression (t : Tree) : Bool :=
  t.events.fault.isNone && t.node?.all fun m => m.kind != .variablePattern && !m.kind.isPattern

theorem Tree.isExpression_sound {t : Tree} (h : t.isExpression = true) : t.IsExpression := by
  rw [isExpression, Bool.and_eq_true] at h
  refine ⟨Option.isNone_iff_eq_none.mp h.1, fun m hm => ?_⟩
  simpa [hm] using h.2

def Pattern.holdsExpressions : Nat → Tree → Bool
  | 0, _ => false
  | depth + 1, t => t.node?.all fun n => n.slots.items.all fun c =>
    if c.target then holdsExpressions depth c.value else c.value.isExpression

theorem Pattern.holdsExpressions_sound (depth : Nat) {p d : Tree} {around : List Node}
    (h : holdsExpressions depth p = true) (holds : HoldsExpression p d around) :
    d.IsExpression := by
  induction depth generalizing p around with
  | zero => cases h
  | succ depth ih =>
    obtain ⟨reaches, node, own⟩ := holds
    rw [holdsExpressions] at h
    rcases reaches.eq_or_part with rfl | ⟨m, v, inner, hm, part, reaches⟩
    · rw [node, Option.all_some, List.all_eq_true] at h
      exact Tree.isExpression_sound (h _ own.mem_slots)
    · rw [hm, Option.all_some, List.all_eq_true] at h
      exact ih (h _ part.mem_slots) (.intro reaches node own)

/-- The expression `{ d } = e` -/
def reassignment : Node :=
  ⟨18, [("type", .str "AssignmentExpression"), ("operator", .str "="),
    ("left", .obj 19 [("type", .str "ObjectPattern"), ("properties", .arr 20 [.obj 21
      [("type", .str "Property"), ("key", .identifier 22 "d"), ("value", .identifier 23 "d")]])]),
    ("right", .identifier 24 "e")]⟩

/-- The pattern `c = ({ d } = e)` -/
def reassigningDefault : Node :=
  ⟨16, [("type", .str "AssignmentPattern"), ("left", .identifier 17 "c"),
    ("right", reassignment.tree)]⟩

/-- The pattern `[, c = ({ d } = e)]` -/
def elidingPattern : Node :=
  ⟨14, [("type", .str "ArrayPattern"), ("elements", .arr 15 [.null, reassigningDefault.tree])]⟩

def elidingEntry : Node :=
  ⟨12, [("type", .str "Property"), ("key", .identifier 13 "b"), ("value", elidingPattern.tree)]⟩

/-- The pattern `{ [k]: a, b: [, c = ({ d } = e)], ...r }` -/
def nestedPattern : Node :=
  ⟨5, [("type", .str "ObjectPattern"), ("properties", .arr 6 [
    .obj 7 [("type", .str "Property"), ("key", .identifier 8 "k"),
      ("computed", .atom (.bool true)), ("value", .identifier 9 "a")],
    elidingEntry.tree,
    .obj 25 [("type", .str "RestElement"), ("argument", .identifier 26 "r")]])]⟩

def nestedDeclarator : Node :=
  ⟨4, [("type", .str "VariableDeclarator"), ("id", nestedPattern.tree),
    ("init", .identifier 27 "f")]⟩

def nestedDeclaration : Node :=
  ⟨2, [("type", .str "VariableDeclaration"), ("kind", .str "var"),
    ("declarations", .arr 3 [nestedDeclarator.tree])]⟩

/-- The program `var { [k]: a, b: [, c = ({ d } = e)], ...r } = f;` -/
def nestedProgram : Node :=
  ⟨0, [("type", .str "Program"), ("body", .arr 1 [nestedDeclaration.tree])]⟩

/-- Of the targets `a`, `c`, `d` and `r` in the pattern, all but the `d` in the default value are
bound. -/
theorem Pattern.names_eq_leaves_nested : ∃ events, walk [] ⟨nestedPattern.tree, true⟩ =
      .ofList events ∧
    names nestedPattern.tree = .ofList ((events.filter Event.isLeaf).map (·.node.get "name")) ∧
    (events.filter Event.isLeaf).map (·.node.label) = [9, 17, 26] ∧
    (events.filter (·.kind == .variablePattern)).map (·.node.label) = [9, 17, 23, 26] ∧
    events.map (Event.below [nestedDeclarator, nestedDeclaration, nestedProgram]) <:+:
      nestedProgram.tree.events.items ∧
    ∃ inner, reassignment.tree.events = .ofList inner ∧
      inner.map (Event.below [reassigningDefault, elidingPattern, nestedPattern]) <:+: events := by
  have shape : inGrammar 5 nestedPattern.tree = true := by decide +kernel
  have grammar := inGrammar_sound shape
  have expressions (d around) (h : HoldsExpression nestedPattern.tree d around) :
      d.IsExpression :=
    holdsExpressions_sound 5 (by decide +kernel) h
  have ends : nestedProgram.tree.events.fault = none :=
    Option.isNone_iff_eq_none.mp (by decide +kernel)
  have declaration : Visits [] ⟨nestedProgram.tree, false⟩ nestedDeclaration [nestedProgram] :=
    visits_child rfl rfl List.mem_cons_self ends
  have visits := declaration.slot (m := nestedDeclarator) ends
    (List.mem_cons_of_mem _ List.mem_cons_self) rfl
  have value : nestedPattern.HasPart elidingPattern.tree :=
    .value (p := elidingEntry) rfl ⟨_, rfl, List.mem_cons_of_mem _ List.mem_cons_self⟩ rfl rfl
  have element : elidingPattern.HasPart reassigningDefault.tree :=
    .element rfl ⟨_, rfl, List.mem_cons_of_mem _ List.mem_cons_self⟩ rfl
  have inside : HoldsExpression nestedPattern.tree reassignment.tree
      [reassigningDefault, elidingPattern, nestedPattern] :=
    .intro (.part (.part .whole rfl value) rfl element) rfl (.default rfl)
  obtain ⟨events, walked, names, targets, each⟩ := names_eq_leaves grammar expressions
  obtain ⟨inner, reported, part, -⟩ := each _ _ inside
  have items : events = (walk [] ⟨nestedPattern.tree, true⟩).items := by rw [walked]; rfl
  refine ⟨events, walked, names, ?_, ?_, targets _ _ _ visits (.declared rfl), inner, reported,
    part⟩
  all_goals
    rw [items]
    decide +kernel

end LexicalScope
