import LexicalScope.Proofs.Visiting.Member

/-! # Shown nodes

A tree shows its root, and whatever a shown node holds in a member that hides nothing. In a standard
tree the walk reports the shown nodes, each as its place asks for, and meets the entries of object
patterns on its way only.
-/

namespace LexicalScope

namespace Tree

mutual

def nodes : Tree → List Node
  | atom _ => []
  | arr _ vs => nodesItems vs
  | obj l fs => (obj l fs).node?.toList ++ nodesFields fs

def nodesItems : List Tree → List Node
  | [] => []
  | v :: vs => v.nodes ++ nodesItems vs

def nodesFields : List (String × Tree) → List Node
  | [] => []
  | (_, v) :: fs => v.nodes ++ nodesFields fs

end

mutual

theorem labels_nodes_sublist (t : Tree) : (t.nodes.map Node.label).Sublist t.labels := by
  match t with
  | atom _ => exact List.Sublist.refl _
  | arr l vs => exact (labels_nodesItems_sublist vs).cons l
  | obj l fs =>
    rw [nodes, node?, List.map_append, labels]
    split
    · exact (labels_nodesFields_sublist fs).cons_cons l
    · exact (labels_nodesFields_sublist fs).cons l

theorem labels_nodesItems_sublist (vs : List Tree) :
    ((nodesItems vs).map Node.label).Sublist (labelsItems vs) := by
  match vs with
  | [] => exact List.Sublist.refl _
  | v :: vs =>
    rw [nodesItems, List.map_append, labelsItems]
    exact (labels_nodes_sublist v).append (labels_nodesItems_sublist vs)

theorem labels_nodesFields_sublist (fs : List (String × Tree)) :
    ((nodesFields fs).map Node.label).Sublist (labelsFields fs) := by
  match fs with
  | [] => exact List.Sublist.refl _
  | (_, v) :: fs =>
    rw [nodesFields, List.map_append, labelsFields]
    exact (labels_nodes_sublist v).append (labels_nodesFields_sublist fs)

end

theorem nodesItems_eq (vs : List Tree) : nodesItems vs = vs.flatMap nodes := by
  induction vs with
  | nil => rfl
  | cons v vs ih => rw [nodesItems, ih, List.flatMap_cons]

theorem nodesFields_eq (fs : List (String × Tree)) :
    nodesFields fs = fs.flatMap fun f => f.2.nodes := by
  induction fs with
  | nil => rfl
  | cons f fs ih => rw [nodesFields, ih, List.flatMap_cons]

def Standard (t : Tree) : Prop := ∀ n ∈ t.nodes, n.Standard

/-- A tree shows a node at a place if nothing on the way from the root to it is hidden. -/
inductive Shows (t : Tree) : Node → Place → Prop where
  | root {n : Node} (here : t.node? = some n) : t.Shows n .plain
  | member {n m : Node} {place : Place} {key : String} (above : t.Shows n place)
      (held : n.Holds key m) (shown : n.hides key = false) : t.Shows m (n.placeBelow place key)

end Tree

def Place.ofTarget (target : Bool) : Place := if target then .target else .plain

theorem Place.ofTarget_ne_entry (target : Bool) : ofTarget target ≠ .entry := by
  cases target <;> decide

theorem Place.exists_ofTarget {place : Place} (h : place ≠ .entry) :
    ∃ target, place = ofTarget target := by
  cases place with
  | plain => exact ⟨false, rfl⟩
  | target => exact ⟨true, rfl⟩
  | entry => exact absurd rfl h

namespace Node

variable {n m : Node} {key : String}

theorem Holds.node?_eq (h : n.Holds key m) : m.tree.node? = some m := by
  rcases h with hm | ⟨-, -, -, v, -, hm⟩ <;> rw [Tree.tree_of_node? hm, hm]

theorem Holds.nodes_subset (h : n.Holds key m) : m.tree.nodes ⊆ Tree.nodesFields n.fields := by
  have member (present : n.get key ≠ .null) : (n.get key).nodes ⊆ Tree.nodesFields n.fields := by
    rw [Tree.nodesFields_eq]
    exact fun k hk => List.mem_flatMap.mpr ⟨_, mem_fields_of_get present, hk⟩
  rcases h with hm | ⟨l, vs, hg, v, hv, hm⟩
  · rw [Tree.tree_of_node? hm]
    refine member fun null => ?_
    rw [HasOne, null] at hm
    cases hm
  · rw [Tree.tree_of_node? hm]
    refine List.Subset.trans (fun k hk => ?_) (member (by simp [hg, Tree.null]))
    rw [hg, Tree.nodes, Tree.nodesItems_eq]
    exact List.mem_flatMap.mpr ⟨v, hv, hk⟩

theorem Standard.hasAmong_properties (h : n.Standard) (object : n.kind = .objectPattern)
    (held : n.Holds key m) (shown : n.hides key = false) : n.HasAmong "properties" m := by
  have members : n.kind.members? = some [.many "properties"] := by rw [object]; rfl
  have noMetadata : key ∉ metadataKeys := by
    intro hk
    simp [hides, hk] at shown
  rcases held with held | held
  · simpa [noMetadata, Member.one, Member.many] using h.one _ members key m held
  · have own := h.among _ members key m held
    simp only [noMetadata, false_or, List.mem_singleton, Member.many, Member.mk.injEq,
      and_true] at own
    exact own ▸ held

theorem placeBelow_of_ne (h : n.kind ≠ .objectPattern) (place : Place) (key : String) :
    n.placeBelow place key = .ofTarget (n.targets? place key) := by
  rw [placeBelow, if_neg h, Place.ofTarget]

end Node

namespace Tree.Shows

variable {t : Tree} {n m : Node} {place : Place} {b : Bool}

theorem node?_eq (h : t.Shows n place) : n.tree.node? = some n := by
  cases h with
  | root here => rw [tree_of_node? here, here]
  | member _ held => exact held.node?_eq

theorem nodes_subset (h : t.Shows n place) : n.tree.nodes ⊆ t.nodes := by
  induction h with
  | root here =>
    rw [tree_of_node? here]
    exact List.Subset.refl _
  | member _ held _ ih =>
    refine List.Subset.trans held.nodes_subset (List.Subset.trans ?_ ih)
    exact List.subset_append_right _ _

theorem mem_nodes (h : t.Shows n place) : n ∈ t.nodes := by
  refine h.nodes_subset ?_
  have own := h.node?_eq
  rw [Node.tree] at own ⊢
  rw [nodes, own]
  exact List.mem_cons_self

theorem entry (h : t.Shows n place) (object : n.kind = .objectPattern)
    (held : n.HasAmong "properties" m) : t.Shows m .entry := by
  have shown : n.hides "properties" = false := by simp [Node.hides, object, metadataKeys]
  have below := h.member (.inr held) shown
  rwa [Node.placeBelow, if_pos object] at below

variable (standard : t.Standard)
include standard

theorem slot (h : t.Shows n place) (hp : place ≠ .entry) (hm : m.StandsIn n.slots b) :
    t.Shows m (.ofTarget b) := by
  have own := standard n h.mem_nodes
  by_cases object : n.kind = .objectPattern
  · have entries (p : Node) (hp : n.HasAmong "properties" p) : p.Standard :=
      standard p (h.entry object hp).mem_nodes
    obtain ⟨p, hp, key, held, shown, rfl⟩ := (own.standsIn_slots_objectPattern object entries).mp hm
    have other : p.kind ≠ .objectPattern := by
      rcases own.entries object p hp with hk | hk <;> rw [hk] <;> decide
    have below := (h.entry object hp).member held shown
    rwa [Node.placeBelow_of_ne other] at below
  · obtain ⟨key, held, shown, rfl⟩ := (own.standsIn_slots object hp).mp hm
    have below := h.member held shown
    rwa [Node.placeBelow_of_ne object] at below

theorem fault_walk {outer : List Node} {s : Slot} (hn : s.value.node? = some n)
    (h : t.Shows n place) (hp : place ≠ .entry) : (walk outer s).fault = none := by
  induction s using slot_induction generalizing outer n place with
  | step s ih =>
    have own := standard n h.mem_nodes
    refine (LexicalScope.fault_walk hn).mpr ⟨own.fault_slots, ?_, fun c hc => ?_⟩
    · intro compound
      have syntactic := own.syntactic
      simp [compound, Kind.isForeign] at syntactic
    · cases hm : c.value.node? with
      | none => rw [walk_of_node?_eq_none hm, Yield.fault_empty]
      | some m =>
        exact ih n hn c hc hm (h.slot standard hp ⟨c, hc, hm, rfl⟩) (Place.ofTarget_ne_entry _)

theorem of_mem_walk {outer : List Node} {s : Slot} {e : Event} (hn : s.value.node? = some n)
    (h : t.Shows n (.ofTarget s.target)) (he : e ∈ (walk outer s).items) :
    ∃ b, t.Shows e.node (.ofTarget b) ∧ e.kind ∈ e.node.reports b := by
  induction s using slot_induction generalizing outer n with
  | step s ih =>
    obtain ⟨n', hn', he | ⟨c, hc, he⟩⟩ := mem_walk he
    all_goals obtain rfl := Option.some.inj (hn'.symm.trans hn)
    · obtain ⟨-, hk, rfl, -⟩ := Node.mem_events.mp he
      exact ⟨_, h, hk⟩
    · obtain ⟨m, hm, -⟩ := mem_walk he
      exact ih _ hn c hc hm (h.slot standard (Place.ofTarget_ne_entry _) ⟨c, hc, hm, rfl⟩) he

end Tree.Shows

namespace Tree

variable {t : Tree} {n m : Node} {place : Place} {b : Bool} {around : List Node}

/-- The walk reports a node as its place asks for, or the pattern that it is an entry of. -/
def Meets (t : Tree) (n : Node) : Place → Prop
  | .entry => ∃ o place, o.kind = .objectPattern ∧ t.Shows o place ∧
    (∃ around, Visits [] ⟨t, false⟩ o around) ∧ o.HasAmong "properties" n
  | .plain => ∃ around, ∀ k ∈ n.reports false, ⟨k, n, around⟩ ∈ t.events.items
  | .target => ∃ around, ∀ k ∈ n.reports true, ⟨k, n, around⟩ ∈ t.events.items

theorem meets_ofTarget :
    t.Meets n (.ofTarget b) ↔ ∃ around, ∀ k ∈ n.reports b, ⟨k, n, around⟩ ∈ t.events.items := by
  cases b <;> rfl

theorem Meets.visits (h : t.Meets n (.ofTarget b)) : ∃ around, Visits [] ⟨t, false⟩ n around := by
  obtain ⟨around, h⟩ := meets_ofTarget.mp h
  obtain ⟨k, hk⟩ := List.exists_mem_of_ne_nil _ (n.reports_ne_nil b)
  exact ⟨around, _, h k hk, rfl, rfl⟩

theorem meets_of_standsIn (ends : t.events.fault = none) (h : Visits [] ⟨t, false⟩ n around)
    (hm : m.StandsIn n.slots b) : t.Meets m (.ofTarget b) := by
  obtain ⟨c, hc, hm, rfl⟩ := hm
  exact meets_ofTarget.mpr ⟨n :: around, fun k hk => h.mem_walk_slot ends hc hm hk⟩

theorem Standard.fault_events (standard : t.Standard) : t.events.fault = none := by
  cases hn : t.node? with
  | none => rw [events, walk_of_node?_eq_none hn, Yield.fault_empty]
  | some n => exact Shows.fault_walk standard hn (.root hn) nofun

/-- The walk meets every node that a standard tree shows. -/
theorem Shows.meets (standard : t.Standard) (h : t.Shows n place) : t.Meets n place := by
  have ends := standard.fault_events
  induction h with
  | @root n here =>
    refine ⟨[], fun k hk => ?_⟩
    exact (mem_walk_iff here ends).mpr (.inr ⟨hk, rfl, rfl⟩)
  | @member n m place key above held shown ih =>
    have own := standard n above.mem_nodes
    by_cases entry : place = .entry
    · subst entry
      obtain ⟨o, place, ho, outer, ⟨around, met⟩, among⟩ := ih
      have outerOwn := standard o outer.mem_nodes
      have entries (p : Node) (hp : o.HasAmong "properties" p) : p.Standard :=
        standard p (outer.entry ho hp).mem_nodes
      have other : n.kind ≠ .objectPattern := by
        rcases outerOwn.entries ho n among with hk | hk <;> rw [hk] <;> decide
      rw [Node.placeBelow_of_ne other]
      exact meets_of_standsIn ends met
        ((outerOwn.standsIn_slots_objectPattern ho entries).mpr ⟨n, among, key, held, shown, rfl⟩)
    · obtain ⟨b, rfl⟩ := Place.exists_ofTarget entry
      obtain ⟨around, met⟩ := ih.visits
      by_cases object : n.kind = .objectPattern
      · rw [Node.placeBelow, if_pos object]
        exact ⟨n, _, object, above, ⟨around, met⟩, own.hasAmong_properties object held shown⟩
      · rw [Node.placeBelow_of_ne object]
        exact meets_of_standsIn ends met
          ((own.standsIn_slots object entry).mpr ⟨key, held, shown, rfl⟩)

end Tree

end LexicalScope
