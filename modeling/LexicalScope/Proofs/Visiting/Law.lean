import LexicalScope.Proofs.Visiting.Check
import LexicalScope.Proofs.Visiting.Order
import LexicalScope.Proofs.Visiting.Shown

/-! # What the walk reports

In a standard tree the walk reports each identifier once if the tree shows it, as a target or as a
reference, and does not report it otherwise.
-/

namespace LexicalScope

variable {t : Tree} {n : Node} {place : Place} {e : Event}

namespace Node

theorem reports_identifier (h : n.kind = .identifier) (target : Bool) :
    n.reports target = [if target then .variablePattern else .identifier] := by
  rw [reports, h]

theorem reports_function (h : n.kind.isFunction = true) (target : Bool) :
    n.reports target = [.anyFunction, n.kind] := by
  cases hk : n.kind <;> simp_all [Kind.isFunction, reports]

theorem reports_class (h : n.kind.isClass = true) (target : Bool) :
    n.reports target = [.anyClass, n.kind] := by
  cases hk : n.kind <;> simp_all [Kind.isClass, reports]

end Node

namespace Tree

theorem Shows.of_mem_events (standard : t.Standard) (he : e ∈ t.events.items) :
    ∃ b, t.Shows e.node (.ofTarget b) ∧ e.kind ∈ e.node.reports b := by
  obtain ⟨n, hn, -⟩ := mem_walk he
  exact of_mem_walk standard hn (.root hn) he

theorem Shows.kind_of_entry (standard : t.Standard) (h : t.Shows n .entry) :
    n.kind = .property ∨ n.kind = .restElement := by
  obtain ⟨o, place, object, above, -, among⟩ := h.meets standard
  exact (standard o above.mem_nodes).entries object n among

theorem eq_of_label_eq_of_mem_nodes (nodup : t.labels.Nodup) {m : Node} (hn : n ∈ t.nodes)
    (hm : m ∈ t.nodes) (h : n.label = m.label) : n = m :=
  List.inj_on_of_nodup_map (nodup.sublist t.labels_nodes_sublist) hn hm h

theorem Shows.exists_events (standard : t.Standard) (h : t.Shows n place)
    (hk : n.kind ≠ .property ∧ n.kind ≠ .restElement) :
    ∃ b around, place = .ofTarget b ∧ ∀ k ∈ n.reports b, ⟨k, n, around⟩ ∈ t.events.items := by
  have notEntry : place ≠ .entry := by
    rintro rfl
    exact (h.kind_of_entry standard).elim hk.1 hk.2
  obtain ⟨b, rfl⟩ := Place.exists_ofTarget notEntry
  obtain ⟨around, reported⟩ := meets_ofTarget.mp (h.meets standard)
  exact ⟨b, around, rfl, reported⟩

theorem Shows.filter_events (standard : t.Standard) (nodup : t.labels.Nodup)
    (h : t.Shows n place) (kind : n.kind = .identifier) :
    ∃ around, t.events.items.filter (·.node.label == n.label) =
      [⟨if place = .target then .variablePattern else .identifier, n, around⟩] := by
  obtain ⟨b, around, rfl, reported⟩ := h.exists_events standard (by simp [kind])
  have own := reported (if b then .variablePattern else .identifier)
    (by simp [Node.reports_identifier kind])
  have asPlace : (if Place.ofTarget b = .target then Kind.variablePattern else .identifier) =
      if b then .variablePattern else .identifier := by cases b <;> rfl
  rw [asPlace]
  refine ⟨around, ?_⟩
  -- at most one event of a place is under these two kinds, and all events of this place are
  let kinds (k : Kind) : Bool := k == .identifier || k == .variablePattern
  have single : ((t.events.items.filter fun e => kinds e.kind).map fun e => e.node.label).Nodup :=
    nodup_labels_walk kinds Node.length_filter_reports_le nodup
  have all (f : Event) (hf : f ∈ t.events.items) (same : f.node.label = n.label) :
      kinds f.kind = true := by
    obtain ⟨b', shown, hk⟩ := Shows.of_mem_events standard hf
    have eq : f.node = n :=
      eq_of_label_eq_of_mem_nodes nodup shown.mem_nodes h.mem_nodes same
    rw [eq, Node.reports_identifier kind, List.mem_singleton] at hk
    rw [hk]
    cases b' <;> rfl
  rw [← filter_eq_singleton single (List.mem_filter.mpr ⟨own, all _ own rfl⟩), List.filter_filter]
  refine List.filter_congr fun f hf => ?_
  cases same : f.node.label == n.label with
  | false => rfl
  | true => rw [all f hf (eq_of_beq same), Bool.and_true]

theorem Shows.infix_events (standard : t.Standard) (h : t.Shows n place) {k : Kind}
    (reports : ∀ b, n.reports b = [k, n.kind]) :
    ∃ around, [⟨k, n, around⟩, ⟨n.kind, n, around⟩] <:+: t.events.items := by
  have other : n.kind ≠ .property ∧ n.kind ≠ .restElement := by
    constructor
    all_goals
      intro hk
      simpa [Node.reports, hk] using reports false
  obtain ⟨b, around, -, reported⟩ := h.exists_events standard other
  have own := reported n.kind (by simp [reports])
  obtain ⟨b', together⟩ := reports_infix_walk standard.fault_events own
  rw [reports b'] at together
  exact ⟨around, together⟩

end Tree

/-- The walk of a standard tree reports what the tree shows, as its place asks for and after all
below it. -/
theorem Tree.events_shown (t : Tree) (nodup : t.labels.Nodup) (standard : t.Standard) :
    t.events.fault = none ∧
      (∀ n, (∃ e ∈ t.events.items, e.node = n) ↔ ∃ place ≠ .entry, t.Shows n place) ∧
      (∀ n ∈ t.nodes, n.kind = .identifier →
        (∀ place, t.Shows n place → ∃ around,
          t.events.items.filter (·.node.label == n.label) =
            [⟨if place = .target then .variablePattern else .identifier, n, around⟩]) ∧
        ((∀ place, ¬ t.Shows n place) →
          t.events.items.filter (·.node.label == n.label) = [])) ∧
      (∀ kind, ((t.events.items.filter (·.kind == kind)).map (·.node.label)).Nodup) ∧
      (t.events.items.Pairwise fun e f => f.node.label ∉ Tree.labelsFields e.node.fields) ∧
      ∀ n place, t.Shows n place →
        (n.kind.isFunction = true → ∃ around,
          [⟨.anyFunction, n, around⟩, ⟨n.kind, n, around⟩] <:+: t.events.items) ∧
        (n.kind.isClass = true → ∃ around,
          [⟨.anyClass, n, around⟩, ⟨n.kind, n, around⟩] <:+: t.events.items) := by
  have ends := standard.fault_events
  refine ⟨ends, fun n => ⟨?_, ?_⟩, fun n hn kind => ⟨?_, ?_⟩, nodup_labels_of_kind nodup,
    pairwise_walk nodup ends, fun n place h => ⟨?_, ?_⟩⟩
  · rintro ⟨e, he, rfl⟩
    obtain ⟨b, shown, -⟩ := Shows.of_mem_events standard he
    exact ⟨_, Place.ofTarget_ne_entry b, shown⟩
  · rintro ⟨place, notEntry, shown⟩
    obtain ⟨b, rfl⟩ := Place.exists_ofTarget notEntry
    obtain ⟨around, e, he, rfl, -⟩ := (shown.meets standard).visits
    exact ⟨e, he, rfl⟩
  · exact fun place shown => shown.filter_events standard nodup kind
  · intro hidden
    refine List.filter_eq_nil_iff.mpr fun e he same => ?_
    obtain ⟨b, shown, -⟩ := Shows.of_mem_events standard he
    obtain rfl := eq_of_label_eq_of_mem_nodes nodup shown.mem_nodes hn (eq_of_beq same)
    exact hidden _ shown
  · exact fun function => h.infix_events standard (Node.reports_function function)
  · exact fun cls => h.infix_events standard (Node.reports_class cls)

/-- The entry `a: b` of an object pattern. -/
def unpackedEntry : Node :=
  ⟨7, [("type", .str "Property"), ("key", .identifier 8 "a"), ("computed", .atom (.bool false)),
    ("value", .identifier 9 "b")]⟩

def unpackedPattern : Node :=
  ⟨5, [("type", .str "ObjectPattern"), ("properties", .arr 6 [unpackedEntry.tree])]⟩

/-- The statement `l: x.y;`. -/
def labeledAccess : Node :=
  ⟨12, [("type", .str "LabeledStatement"), ("label", .identifier 13 "l"),
    ("body", .obj 14 [("type", .str "ExpressionStatement"), ("expression",
      .obj 15 [("type", .str "MemberExpression"), ("object", .identifier 16 "x"),
        ("property", .identifier 17 "y"), ("computed", .atom (.bool false))])])]⟩

/-- The function `function f({ a: b }) { l: x.y; }`. -/
def unpacking : Node :=
  ⟨2, [("type", .str "FunctionDeclaration"), ("id", .identifier 3 "f"),
    ("params", .arr 4 [unpackedPattern.tree]),
    ("body", .obj 10 [("type", .str "BlockStatement"), ("body", .arr 11 [labeledAccess.tree])])]⟩

def unpackingProgram : Node :=
  ⟨0, [("type", .str "Program"), ("body", .arr 1 [unpacking.tree])]⟩

/-- The parameter of `unpacking` is reported once, as a target, and the member name `y` is hidden.
-/
theorem Tree.events_shown_unpacking :
    let t := unpackingProgram.tree
    let parameter : Node := ⟨9, [("type", .str "Identifier"), ("name", .str "b")]⟩
    let property : Node := ⟨17, [("type", .str "Identifier"), ("name", .str "y")]⟩
    t.labels.Nodup ∧ t.Standard ∧ t.Shows parameter .target ∧
      (∃ around, t.events.items.filter (·.node.label == 9) =
        [⟨.variablePattern, parameter, around⟩]) ∧
      property ∈ t.nodes ∧ ∀ place, ¬ t.Shows property place := by
  intro t parameter property
  have nodup : t.labels.Nodup := by decide
  have standard : t.Standard := standard_of_all (by decide +kernel)
  have shown : t.Shows parameter .target := by
    have declared : unpackingProgram.HasAmong "body" unpacking :=
      ⟨1, _, rfl, unpacking.tree, List.mem_cons_self, rfl⟩
    have taken : unpacking.HasAmong "params" unpackedPattern :=
      ⟨4, _, rfl, unpackedPattern.tree, List.mem_cons_self, rfl⟩
    have unpacked : unpackedPattern.HasAmong "properties" unpackedEntry :=
      ⟨6, _, rfl, unpackedEntry.tree, List.mem_cons_self, rfl⟩
    have function : t.Shows unpacking .plain :=
      (Shows.root rfl : t.Shows unpackingProgram .plain).member (.inr declared) (by decide +kernel)
    have pattern : t.Shows unpackedPattern .target :=
      function.member (.inr taken) (by decide +kernel)
    have entry : t.Shows unpackedEntry .entry := pattern.entry rfl unpacked
    have value : unpackedEntry.HasOne "value" parameter := rfl
    exact entry.member (.inl value) (by decide +kernel)
  have mem : property ∈ t.nodes := List.mem_of_getElem? (i := 13) rfl
  obtain ⟨-, -, identifiers, -⟩ := events_shown t nodup standard
  refine ⟨nodup, standard, shown, (identifiers parameter shown.mem_nodes rfl).1 _ shown, mem,
    fun place visible => ?_⟩
  obtain ⟨around, once⟩ := (identifiers property mem rfl).1 place visible
  have none : (t.events.items.filter (·.node.label == 17)).length = 0 := by decide +kernel
  rw [once] at none
  cases none

end LexicalScope
