import LexicalScope.Proofs.Analysis
import LexicalScope.Proofs.Pattern.Readable
import LexicalScope.Proofs.Reference.Partition
import LexicalScope.Proofs.Vocabulary.Check

/-! # Binding sites

A binding site is a place where a name is bound: a leaf of a declarator's target, of a parameter or
of what a clause catches, the name of a function or class, or anything in an import specifier. No
binding site is ever a free reference. A leaf of what is assigned to is a reference like any other.
-/

namespace LexicalScope

/-- An identifier that a pattern leads to, with the nodes around it in the pattern. -/
def Pattern.Leaf (pattern : Tree) (around : List Node) (m : Node) : Prop :=
  ∃ u, Reaches pattern around u ∧ u.node? = some m ∧ m.kind = .identifier

/-- A place at which a node that is walked binds a name. -/
inductive Tree.BindingSite (t : Tree) (l : Label) : Prop where
  | declarator {n m : Node} {ns around : List Node} (visits : Visits [] ⟨t, false⟩ n ns)
      (kind : n.kind = .variableDeclarator) (leaf : Pattern.Leaf (n.get "id") around m)
      (label : m.label = l)
  | parameter {n m : Node} {ns around : List Node} {p : Tree} (visits : Visits [] ⟨t, false⟩ n ns)
      (kind : n.kind.isFunction = true) (holds : (n.get "params").Holds p)
      (leaf : Pattern.Leaf p around m) (label : m.label = l)
  | caught {n m : Node} {ns around : List Node} (visits : Visits [] ⟨t, false⟩ n ns)
      (kind : n.kind = .catchClause) (leaf : Pattern.Leaf (n.get "param") around m)
      (label : m.label = l)
  | ownName {n : Node} {ns : List Node} (visits : Visits [] ⟨t, false⟩ n ns)
      (kind : n.kind.isFunction = true ∨ n.kind.isClass = true)
      (named : (n.get "id").label? = some l)
  | importSpecifier {n : Node} {ns : List Node} (visits : Visits [] ⟨t, false⟩ n ns)
      (kind : n.kind = .importSpecifier ∨ n.kind = .importDefaultSpecifier ∨
        n.kind = .importNamespaceSpecifier)
      (part : l ∈ n.tree.labels)

/-- A leaf of the left side of an assignment or loop, with the nodes around it. -/
inductive Tree.AssignedLeaf (t : Tree) (m : Node) : List Node → Prop where
  | intro {n : Node} {ns around : List Node} (visits : Visits [] ⟨t, false⟩ n ns)
      (kind : n.kind = .assignmentExpression ∨ n.kind = .other "ForInStatement" ∨
        n.kind = .other "ForOfStatement")
      (leaf : Pattern.Leaf (n.get "left") around m) : AssignedLeaf t m (around ++ n :: ns)

namespace Node

variable {n : Node}

theorem mem_slots_id (hk : n.kind = .variableDeclarator ∨ n.kind.isFunction = true ∨
    n.kind.isClass = true) : ⟨n.get "id", true⟩ ∈ n.slots.items := by
  have first (y : Yield Slot) : ⟨n.get "id", true⟩ ∈ (n.target "id" ++ y).items := by
    simp [target, Yield.single]
  unfold slots
  cases kind : n.kind <;> simp [kind, Kind.isFunction, Kind.isClass] at hk <;>
    simp only [Yield.append_assoc, first]

theorem mem_slots_params (hk : n.kind.isFunction = true) (ends : n.slots.fault = none) {p : Tree}
    (holds : (n.get "params").Holds p) : ⟨p, true⟩ ∈ n.slots.items := by
  have slots : n.slots = n.target "id" ++ n.targets "params" ++ n.plain "body" := by
    cases kind : n.kind <;> simp_all [Kind.isFunction, Node.slots]
  obtain ⟨vs, list, hp⟩ := holds
  rw [slots] at ends ⊢
  refine (Yield.mem_append_iff ends).mpr (.inl ?_)
  refine (Yield.mem_append_iff (Yield.fault_append.mp ends).1).mpr (.inr ?_)
  rw [targets, list]
  exact List.mem_map_of_mem hp

theorem mem_slots_param (hk : n.kind = .catchClause) : ⟨n.get "param", true⟩ ∈ n.slots.items := by
  simp [slots, hk, target, Yield.single]

theorem exists_mem_slots_left (hk : n.kind = .assignmentExpression ∨
    n.kind = .other "ForInStatement" ∨ n.kind = .other "ForOfStatement") {c : Node}
    (hc : (n.get "left").node? = some c) : ∃ target, ⟨n.get "left", target⟩ ∈ n.slots.items := by
  rcases hk with hk | hk | hk
  · exact ⟨true, by simp [slots, hk, target, Yield.single]⟩
  · exact ⟨false, mem_slots_member (by simp [slots, hk]) (by decide) hc⟩
  · exact ⟨false, mem_slots_member (by simp [slots, hk]) (by decide) hc⟩

end Node

section

variable {t pattern u : Tree} {n m : Node} {ns around : List Node} {target : Bool} {e : Event}

/-- What a pattern in a slot leads to stands in a slot of the innermost node around it. -/
theorem Visits.exists_slot_of_reaches (visits : Visits [] ⟨t, false⟩ n ns)
    (ends : t.events.fault = none) (slot : ⟨pattern, target⟩ ∈ n.slots.items)
    (reaches : Pattern.Reaches pattern around u) : ∃ k ks, Visits [] ⟨t, false⟩ k ks ∧
      k :: ks = around ++ n :: ns ∧ ⟨u, target || !around.isEmpty⟩ ∈ k.slots.items := by
  induction reaches with
  | whole => exact ⟨n, ns, visits, rfl, by simpa using slot⟩
  | @part p around u v inner node part ih =>
    obtain ⟨k, ks, met, path, slot⟩ := ih
    refine ⟨p, k :: ks, met.slot ends slot node, by rw [path]; rfl, ?_⟩
    simpa using part.mem_slots

theorem Visits.mem_events_of_leaf (visits : Visits [] ⟨t, false⟩ n ns)
    (ends : t.events.fault = none) (slot : ⟨pattern, target⟩ ∈ n.slots.items)
    (leaf : Pattern.Leaf pattern around m) :
    ⟨if target || !around.isEmpty then .variablePattern else .identifier, m, around ++ n :: ns⟩ ∈
      t.events.items := by
  obtain ⟨u, reaches, node, kind⟩ := leaf
  obtain ⟨k, ks, met, path, slot⟩ := visits.exists_slot_of_reaches ends slot reaches
  rw [← path]
  exact met.mem_walk_slot ends slot node (by simp [Node.reports, kind])

theorem Pattern.Leaf.isPattern (leaf : Pattern.Leaf pattern around m) :
    ∀ k ∈ around, k.kind.isPattern = true := by
  obtain ⟨u, reaches, -⟩ := leaf
  exact reaches.isPattern

theorem Pattern.Leaf.find? (leaf : Pattern.Leaf pattern around m) (hn : n.kind.isPattern = false) :
    (around ++ n :: ns).find? (fun k => !k.kind.isPattern) = some n := by
  have none : around.find? (fun k => !k.kind.isPattern) = none := by
    rw [List.find?_eq_none]
    intro k hk
    simpa using leaf.isPattern k hk
  rw [List.find?_append, none, Option.none_or, List.find?_cons, hn]
  rfl

theorem Pattern.Leaf.exists_binds (leaf : Pattern.Leaf pattern around m)
    (grammar : Pattern.InGrammar pattern) (shape : m.WellShaped) :
    ∃ s, m.get "name" = .str s ∧ Pattern.Binds pattern (.str s) := by
  obtain ⟨u, reaches, node, kind⟩ := leaf
  simp only [Node.WellShaped, kind] at shape
  obtain ⟨s, name⟩ := shape
  exact ⟨s, name, grammar.binds_of_reaches reaches
    (Pattern.binds_of_isIdentifier ⟨m, node, kind, name⟩)⟩

end

namespace Analysis

variable {t : Tree} {hostEmbedded : Bool} {e d : Event} {n : Node} {x : Atom}

theorem not_isFree_of_binds (a : Analysis t hostEmbedded) (hk : e.kind ≠ .thisExpression)
    (name : e.node.get "name" = .atom x) (hn : n ∈ e.path) (hd : d ∈ t.events.items)
    (hb : d.Binds a.mode n.label x) : ¬ e.IsFree a.table := by
  rintro (⟨-, unbound⟩ | ⟨this, -⟩)
  · have declared : a.table.declares n.label x = true :=
      (ScopeTable.declares_iff_binds a.bound).mpr ⟨x, rfl, d, hd, hb⟩
    have undeclared := unbound.undeclared n (Event.mem_chain.mpr hn)
    rw [name, ScopeTable.declaresName, declared] at undeclared
    cases undeclared
  · exact hk this

theorem label_ne_of_not_isFree (a : Analysis t hostEmbedded) (nodup : t.labels.Nodup)
    (he : e ∈ t.events.items) (hr : e.kind.refers = true) (hf : ¬ e.IsFree a.table)
    {r : FreeReference} (hm : r ∈ a.free) : r.node.label? ≠ some e.node.label := by
  obtain ⟨f, hf', free, rfl⟩ := a.mem_free.mp hm
  intro hl
  have same : f = e := Event.eq_of_refers nodup hf' he free.refers hr (Option.some.inj hl)
  exact hf (same ▸ free)

theorem label_ne_of_binds (a : Analysis t hostEmbedded) (nodup : t.labels.Nodup) {m : Node}
    {outer : List Node} (he : ⟨.variablePattern, m, outer⟩ ∈ t.events.items)
    (name : m.get "name" = .atom x) (hn : n ∈ outer) (hd : d ∈ t.events.items)
    (hb : d.Binds a.mode n.label x) {r : FreeReference} (hm : r ∈ a.free) :
    r.node.label? ≠ some m.label :=
  a.label_ne_of_not_isFree nodup he rfl
    (a.not_isFree_of_binds (by simp) name (List.mem_cons_of_mem _ hn) hd hb) hm

end Analysis

section

variable {t : Tree} {l : Label} {n : Node} {ns : List Node}

theorem Tree.InVocabulary.wellShaped_of_visits (h : t.InVocabulary)
    (visits : Visits [] ⟨t, false⟩ n ns) : n.WellShaped := by
  obtain ⟨e, he, rfl, -⟩ := visits
  exact h.wellShaped_path (s := ⟨t, false⟩) (by simp) he e.node List.mem_cons_self

theorem Tree.InVocabulary.exists_try (h : t.InVocabulary) (program : t.isProgram = true)
    (visits : Visits [] ⟨t, false⟩ n ns) (kind : n.kind = .catchClause) : ∃ p ps, ns = p :: ps ∧
      p.kind = .tryStatement ∧ (p.get "handler").object? = some n := by
  obtain ⟨e, he, rfl, rfl⟩ := visits
  rcases h.admits_parent (s := ⟨t, false⟩) he with none | ⟨p, ps, around, admits⟩
  · obtain ⟨root, hr, hk⟩ := exists_node_of_isProgram program
    obtain ⟨root', hr', hs⟩ := suffix_path_of_mem_walk he
    obtain rfl : root = root' := Option.some.inj (hr.symm.trans hr')
    obtain ⟨rfl, -⟩ := List.cons.inj (hs.eq_of_length (by simp [Event.path, none]))
    simp [hk] at kind
  · obtain ⟨hn, -⟩ := h.of_mem_walk (s := ⟨t, false⟩) he
    obtain ⟨try_, handler⟩ := (admits e.node hn).2 kind
    exact ⟨p, ps, around, try_, by rw [handler]; rfl⟩

theorem Visits.eq_of_slots_eq_nil {m : Node} {ms : List Node} (visits : Visits [] ⟨t, false⟩ m ms)
    (ends : t.events.fault = none) (empty : n.slots.items = []) (below : n :: ns <:+ m :: ms) :
    m = n := by
  obtain ⟨before, path⟩ := below
  cases before using List.reverseRecOn with
  | nil => exact (List.cons.inj path).1.symm
  | append_singleton before k =>
    have inner : k :: n :: ns <:+ m :: ms := ⟨before, by rw [← path]; simp⟩
    obtain ⟨c, hc, -⟩ := (visits.of_suffix ends inner (Nat.zero_le _)).exists_slot ends
      (Nat.zero_le _)
    rw [empty] at hc
    cases hc

end

namespace Analysis

/-! ## One lemma for each sort of site -/

variable {t pattern : Tree} {hostEmbedded : Bool} {l : Label} {n m : Node} {ns around : List Node}
  {d : Event} {r : FreeReference}

/-- A leaf of a target that some report binds at the node of the target is no free reference. -/
theorem label_ne_of_leaf (a : Analysis t hostEmbedded) (vocabulary : t.InVocabulary)
    (nodup : t.labels.Nodup) (visits : Visits [] ⟨t, false⟩ n ns)
    (slot : ⟨pattern, true⟩ ∈ n.slots.items) (leaf : Pattern.Leaf pattern around m)
    (grammar : Pattern.InGrammar pattern) (hd : d ∈ t.events.items)
    (binds : ∀ x, Pattern.Binds pattern x → d.Binds a.mode n.label x) (hm : r ∈ a.free) :
    r.node.label? ≠ some m.label := by
  have reported := visits.mem_events_of_leaf a.fault_events slot leaf
  obtain ⟨s, name, bound⟩ := leaf.exists_binds grammar
    (vocabulary.wellShaped_of_visits (.of_mem_walk reported))
  exact a.label_ne_of_binds nodup reported name (List.mem_append_right _ List.mem_cons_self) hd
    (binds _ bound) hm

theorem label_ne_of_declarator (a : Analysis t hostEmbedded) (nodup : t.labels.Nodup)
    (visits : Visits [] ⟨t, false⟩ n ns) (kind : n.kind = .variableDeclarator)
    (leaf : Pattern.Leaf (n.get "id") around m) (hm : r ∈ a.free) :
    r.node.label? ≠ some m.label := by
  have reported := visits.mem_events_of_leaf a.fault_events (Node.mem_slots_id (.inl kind)) leaf
  refine a.label_ne_of_not_isFree nodup reported rfl ?_ hm
  rintro (⟨hi | ⟨-, outside⟩, -⟩ | ⟨hk, -⟩)
  · cases hi
  · exact outside _ (leaf.find? (by rw [kind]; rfl)) kind
  · cases hk

theorem label_ne_of_parameter (a : Analysis t hostEmbedded) (vocabulary : t.InVocabulary)
    (nodup : t.labels.Nodup) (visits : Visits [] ⟨t, false⟩ n ns)
    (kind : n.kind.isFunction = true) (holds : (n.get "params").Holds pattern)
    (leaf : Pattern.Leaf pattern around m) (hm : r ∈ a.free) : r.node.label? ≠ some m.label := by
  have shape := vocabulary.wellShaped_of_visits visits
  have own := visits.mem_walk a.fault_events fun _ => Node.anyFunction_mem_reports kind
  exact a.label_ne_of_leaf vocabulary nodup visits
    (Node.mem_slots_params kind shape.fault_slots holds)
    leaf ((shape.function kind).2.of_holds holds) own (fun _ => .parameter rfl rfl holds) hm

/-- What a clause catches is bound by the report on the `try` around it. -/
theorem label_ne_of_caught (a : Analysis t hostEmbedded) (program : t.isProgram = true)
    (vocabulary : t.InVocabulary) (nodup : t.labels.Nodup) (visits : Visits [] ⟨t, false⟩ n ns)
    (kind : n.kind = .catchClause) (leaf : Pattern.Leaf (n.get "param") around m)
    (hm : r ∈ a.free) : r.node.label? ≠ some m.label := by
  have shape := vocabulary.wellShaped_of_visits visits
  simp only [Node.WellShaped, kind] at shape
  have grammar : Pattern.InGrammar (n.get "param") := by
    refine shape.resolve_left fun none => ?_
    obtain ⟨u, reaches, node, -⟩ := leaf
    obtain ⟨k, hk⟩ := reaches.exists_node node
    rw [none] at hk
    cases hk
  obtain ⟨p, ps, rfl, try_, handles⟩ := vocabulary.exists_try program visits kind
  have outer := visits.of_suffix a.fault_events (List.suffix_cons n (p :: ps)) (Nat.zero_le _)
  have own := outer.mem_walk a.fault_events (k := .tryStatement) fun _ => by
    simp [Node.reports, try_]
  exact a.label_ne_of_leaf vocabulary nodup visits (Node.mem_slots_param kind) leaf grammar own
    (fun _ => .caught rfl handles rfl) hm

theorem label_ne_of_ownName (a : Analysis t hostEmbedded) (vocabulary : t.InVocabulary)
    (nodup : t.labels.Nodup) (visits : Visits [] ⟨t, false⟩ n ns)
    (kind : n.kind.isFunction = true ∨ n.kind.isClass = true)
    (named : (n.get "id").label? = some l) (hm : r ∈ a.free) : r.node.label? ≠ some l := by
  have ends := a.fault_events
  have shape := vocabulary.wellShaped_of_visits visits
  have own : n.get "id" = .null ∨ ∃ s, (n.get "id").IsIdentifier s := by
    rcases kind with kind | kind
    · exact (shape.function kind).1
    · exact shape.ofClass kind
  rcases own with none | ⟨s, isIdentifier⟩
  · rw [none] at named
    cases named
  obtain ⟨m, hn, hk, name⟩ := id isIdentifier
  rw [← Tree.tree_of_node? hn] at named
  obtain rfl : m.label = l := Option.some.inj named
  have bound : (n.get "id").IsNamed (.str s) :=
    ⟨Tree.truthy_of_node? hn, isIdentifier.field⟩
  have reported := visits.mem_events_of_leaf ends (Node.mem_slots_id (.inr kind))
    ⟨_, .whole, hn, hk⟩
  obtain ⟨d, hd, binds⟩ : ∃ d ∈ t.events.items, d.Binds a.mode n.label (.str s) := by
    rcases kind with kind | kind
    · exact ⟨_, visits.mem_walk ends fun _ => Node.anyFunction_mem_reports kind,
        .functionSelf rfl rfl bound⟩
    · exact ⟨_, visits.mem_walk ends fun _ => Node.anyClass_mem_reports kind,
        .classSelf rfl rfl bound⟩
  exact a.label_ne_of_binds nodup reported name List.mem_cons_self hd binds hm

/-- A walk does not look into an import specifier, which is no reference itself. -/
theorem label_ne_of_importSpecifier (a : Analysis t hostEmbedded) (nodup : t.labels.Nodup)
    (visits : Visits [] ⟨t, false⟩ n ns) (kind : n.kind = .importSpecifier ∨
      n.kind = .importDefaultSpecifier ∨ n.kind = .importNamespaceSpecifier)
    (part : l ∈ n.tree.labels) (hm : r ∈ a.free) : r.node.label? ≠ some l := by
  obtain ⟨f, hf, free, rfl⟩ := a.mem_free.mp hm
  intro hl
  obtain rfl : f.node.label = l := Option.some.inj hl
  have below := visits.suffix_of_mem_labels nodup (.of_mem_walk hf) part
  have empty : n.slots.items = [] := by
    rcases kind with kind | kind | kind <;> simp [Node.slots, kind]
  have same := (Visits.of_mem_walk hf).eq_of_slots_eq_nil a.fault_events empty below
  obtain ⟨target, hr⟩ := exists_mem_reports hf
  have refers := free.refers
  rw [same] at hr
  rcases kind with kind | kind | kind <;> simp [Node.reports, kind] at hr <;>
    simp [hr, Kind.refers] at refers

/-- No binding site of a program of the vocabulary is the place of a free reference. -/
theorem label_ne_of_bindingSite (a : Analysis t hostEmbedded) (program : t.isProgram = true)
    (vocabulary : t.InVocabulary) (nodup : t.labels.Nodup) (site : t.BindingSite l)
    (hm : r ∈ a.free) : r.node.label? ≠ some l := by
  cases site with
  | declarator visits kind leaf label =>
    exact label ▸ a.label_ne_of_declarator nodup visits kind leaf hm
  | parameter visits kind holds leaf label =>
    exact label ▸ a.label_ne_of_parameter vocabulary nodup visits kind holds leaf hm
  | caught visits kind leaf label =>
    exact label ▸ a.label_ne_of_caught program vocabulary nodup visits kind leaf hm
  | ownName visits kind named => exact a.label_ne_of_ownName vocabulary nodup visits kind named hm
  | importSpecifier visits kind part =>
    exact a.label_ne_of_importSpecifier nodup visits kind part hm

end Analysis

theorem Tree.AssignedLeaf.exists_event {t : Tree} (ends : t.events.fault = none) {m : Node}
    {outer : List Node} (h : t.AssignedLeaf m outer) :
    ∃ e ∈ t.events.items, e.node = m ∧ e.outer = outer ∧ e.IsReference := by
  obtain ⟨visits, kind, leaf⟩ := h
  obtain ⟨u, reaches, node, -⟩ := id leaf
  obtain ⟨c, hc⟩ := reaches.exists_node node
  obtain ⟨target, slot⟩ := Node.exists_mem_slots_left kind hc
  refine ⟨_, visits.mem_events_of_leaf ends slot leaf, rfl, rfl, ?_⟩
  rw [Event.IsReference]
  split
  · refine .inr ⟨rfl, fun k hk => ?_⟩
    rw [leaf.find? (by rcases kind with kind | kind | kind <;> rw [kind] <;> rfl)] at hk
    obtain rfl := Option.some.inj hk
    rcases kind with kind | kind | kind <;> simp [kind]
  · exact .inl rfl

/-- An analysis reports no binding site, and an assigned leaf just if nothing around it binds its
name. -/
theorem findGlobals_bindingSites (parser : Parser) (options : GlobalsOptions) {t : Tree}
    (program : t.isProgram = true) (vocabulary : t.InVocabulary) (nodup : t.labels.Nodup) :
    ∃ gs, (findGlobals parser (.value t) options).outcome = .ok gs ∧
      (∀ l, t.BindingSite l → ∀ g ∈ gs, ∀ r ∈ g.members, r.node.label? ≠ some l) ∧
      ∃ a : Analysis t options.hostEmbedded, groupReferences a.free = .ok gs ∧
        ∀ m outer, t.AssignedLeaf m outer → ∃ e ∈ t.events.items, e.node = m ∧ e.outer = outer ∧
          ((∃ g ∈ gs, e.reference ∈ g.members) ↔ a.table.Unbound e.chain (m.get "name")) := by
  obtain ⟨root, hn, hk⟩ := Tree.exists_node_of_isProgram program
  obtain ⟨strict, resolved⟩ :=
    resolveMode_ok hn hk (vocabulary.wellShaped hn).1 options.hostEmbedded
  obtain ⟨a, gs, -, group, texts⟩ := Analysis.exists_of_named resolved
    (vocabulary.fault_entries _) fun e he => vocabulary.exists_text he
  have members {r : FreeReference} : (∃ g ∈ gs, r ∈ g.members) ↔ r ∈ a.free :=
    mem_groupByName_iff texts group
  refine ⟨gs, Analysis.outcome_findGlobals.mpr ⟨program, a, group⟩, ?_, a, group, ?_⟩
  · intro l site g hg r hr
    exact a.label_ne_of_bindingSite program vocabulary nodup site (members.mp ⟨g, hg, hr⟩)
  · intro m outer leaf
    obtain ⟨e, he, rfl, rfl, reference⟩ := leaf.exists_event a.fault_events
    refine ⟨e, he, rfl, rfl, ?_⟩
    rw [members, mem_freeReferences_iff a.classified nodup he reference, Event.IsFree]
    simp [reference, reference.ne_this]

/-- The pattern `b = c` -/
def defaultPattern : Node :=
  ⟨7, [("type", .str "AssignmentPattern"), ("left", .identifier 8 "b"),
    ("right", .identifier 9 "c")]⟩

/-- The pattern `[b = c]` -/
def declaredPattern : Node :=
  ⟨5, [("type", .str "ArrayPattern"), ("elements", .arr 6 [.null, defaultPattern.tree])]⟩

/-- The pattern `[e]` -/
def assignedPattern : Node :=
  ⟨14, [("type", .str "ArrayPattern"), ("elements", .arr 15 [.identifier 16 "e"])]⟩

def listDeclarator : Node :=
  ⟨4, [("type", .str "VariableDeclarator"), ("id", declaredPattern.tree),
    ("init", .identifier 10 "d")]⟩

def listDeclaration : Node :=
  ⟨2, [("type", .str "VariableDeclaration"), ("kind", .str "var"),
    ("declarations", .arr 3 [listDeclarator.tree])]⟩

def listAssignment : Node :=
  ⟨13, [("type", .str "AssignmentExpression"), ("operator", .str "="),
    ("left", assignedPattern.tree), ("right", .identifier 17 "d")]⟩

def listStatement : Node :=
  ⟨12, [("type", .str "ExpressionStatement"), ("expression", listAssignment.tree)]⟩

/-- The program `var [, b = c] = d; [e] = d;` -/
def listProgram : Node :=
  ⟨0, [("type", .str "Program"), ("body", .arr 1 [listDeclaration.tree, listStatement.tree])]⟩

theorem fault_events_listProgram : listProgram.tree.events.fault = none :=
  (Tree.inVocabulary_sound 10 (by decide) rfl).fault_walk

theorem listProgram_bindingSite : listProgram.tree.BindingSite 8 := by
  have declaration : Visits [] ⟨listProgram.tree, false⟩ listDeclaration [listProgram] :=
    visits_child rfl rfl List.mem_cons_self fault_events_listProgram
  have visits := declaration.slot (m := listDeclarator) fault_events_listProgram
    (List.mem_cons_of_mem _ List.mem_cons_self) rfl
  have element : declaredPattern.HasPart defaultPattern.tree :=
    .element rfl ⟨_, rfl, List.mem_cons_of_mem _ List.mem_cons_self⟩ rfl
  have left : defaultPattern.HasPart (.identifier 8 "b") := .left rfl
  exact .declarator visits rfl ⟨_, .part (.part .whole rfl element) rfl left, rfl, rfl⟩ rfl

theorem listProgram_assignedLeaf : listProgram.tree.AssignedLeaf
    ⟨16, [("type", .str "Identifier"), ("name", .str "e")]⟩
    [assignedPattern, listAssignment, listStatement, listProgram] := by
  have statement : Visits [] ⟨listProgram.tree, false⟩ listStatement [listProgram] :=
    visits_child rfl rfl (List.mem_cons_of_mem _ List.mem_cons_self) fault_events_listProgram
  have visits := statement.slot (m := listAssignment) fault_events_listProgram
    List.mem_cons_self rfl
  have element : assignedPattern.HasPart (.identifier 16 "e") :=
    .element rfl ⟨_, rfl, List.mem_cons_self⟩ rfl
  exact .intro visits (.inl rfl) ⟨_, .part .whole rfl element, rfl, rfl⟩

/-- Embedded in a host, `var [, b = c] = d; [e] = d;` reports all identifiers but `b`. -/
theorem findGlobals_bindingSites_list : ∃ gs,
    (findGlobals (fun _ => .returned .null false) (.value listProgram.tree)
      { hostEmbedded := true }).outcome = .ok gs ∧
    listProgram.tree.BindingSite 8 ∧ (∀ g ∈ gs, ∀ r ∈ g.members, r.node.label? ≠ some 8) ∧
    ∃ a : Analysis listProgram.tree true, groupReferences a.free = .ok gs ∧
      a.free.map (·.node.label?) = [some 9, some 10, some 16, some 17] ∧
      ∃ e ∈ listProgram.tree.events.items, e.node.label = 16 ∧
        ((∃ g ∈ gs, e.reference ∈ g.members) ↔ a.table.Unbound e.chain (.str "e")) := by
  have nodup : listProgram.tree.labels.Nodup := by decide +kernel
  have vocabulary : listProgram.tree.InVocabulary :=
    Tree.inVocabulary_sound 10 nodup (by decide +kernel)
  obtain ⟨gs, succeeds, sites, a, group, leaves⟩ := findGlobals_bindingSites
    (fun _ => .returned .null false) { hostEmbedded := true } (by decide) vocabulary nodup
  obtain ⟨e, he, node, -, tested⟩ := leaves _ _ listProgram_assignedLeaf
  refine ⟨gs, succeeds, listProgram_bindingSite, sites 8 listProgram_bindingSite, a, group, ?_,
    e, he, by rw [node], tested⟩
  have resolved : resolveMode listProgram.tree true = .ok ⟨false, false, true⟩ := rfl
  obtain ⟨rs, classified, places⟩ : ∃ rs, freeReferences listProgram.tree
      (bindScopes listProgram.tree ⟨false, false, true⟩ .empty).1 = .ok rs ∧
        rs.map (·.node.label?) = [some 9, some 10, some 16, some 17] :=
    exists_ok_of_map (by decide +kernel)
  rw [Except.ok.inj (resolved.symm.trans a.resolved), a.bound] at classified
  rw [Except.ok.inj (a.classified.symm.trans classified), places]

end LexicalScope
