import LexicalScope.Proofs.Walk.Below
import LexicalScope.Proofs.Walk.Function

/-! # Fragments of a tree

A fragment is a node that a walk meets, taken as a tree of its own. A walk reports within the node
just what it reports of the fragment, with the nodes around it at the outer end of every path.
-/

namespace LexicalScope

section

variable {outer around : List Node} {s : Slot} {n : Node} {e : Event}

theorem Node.reports_eq (h : n.kind ≠ .identifier) (target : Bool) :
    n.reports target = n.reports false := by
  unfold reports
  split
  · contradiction
  all_goals rfl

theorem walk_eq_map_below (hn : s.value.node? = some n) (h : n.kind ≠ .identifier) :
    walk outer s = n.tree.events.map (Event.below outer) := by
  have alone : n.tree.node? = some n := by rwa [Tree.tree_of_node? hn]
  rw [Tree.events, ← walk_append, List.nil_append, walk_of_node?_eq_some hn,
    walk_of_node?_eq_some (s := ⟨n.tree, false⟩) alone, Node.events, Node.events,
    Node.reports_eq h s.target]

theorem filter_walks_eq_nil {ss : List Slot} {ls : List Label}
    (h : ∀ c ∈ ss, c.value.labels.Disjoint ls) :
    (ss.flatMap fun c => (walk outer c).items).filter (fun e => decide (e.node.label ∈ ls)) =
      [] := by
  rw [List.filter_eq_nil_iff]
  intro e he
  obtain ⟨c, hc, he⟩ := List.mem_flatMap.mp he
  simpa using h c hc (label_mem_of_mem_walk he)

/-- A walk reports within a node what it reports of the node alone. -/
theorem filter_walk_eq (nodup : s.value.labels.Nodup) (ends : (walk outer s).fault = none)
    (visits : Visits outer s n around) (h : n.kind ≠ .identifier) :
    (walk outer s).items.filter (fun e => decide (e.node.label ∈ n.tree.labels)) =
      n.tree.events.items.map (Event.below around) := by
  induction s using slot_induction generalizing outer with
  | step s ih =>
    obtain ⟨k, hk, -⟩ := visits.suffix_path
    rw [← Tree.tree_of_node? hk] at nodup
    have inner := ((fault_walk hk).mp ends).2.2
    rcases (Visits.iff hk ends).mp visits with ⟨c, hc, visits⟩ | ⟨rfl, rfl⟩
    · have labels : n.tree.labels ⊆ c.value.labels := by
        obtain ⟨e, he, rfl, -⟩ := visits
        exact labels_subset_of_mem_walk he
      obtain ⟨before, after, split⟩ := List.append_of_mem hc
      have apart := Node.pairwise_slots nodup
      rw [split, List.pairwise_append] at apart
      obtain ⟨-, later, across⟩ := apart
      have earlier (d : Slot) (hd : d ∈ before) : d.value.labels.Disjoint n.tree.labels :=
        fun l hl hm => across d hd c List.mem_cons_self hl (labels hm)
      have later (d : Slot) (hd : d ∈ after) : d.value.labels.Disjoint n.tree.labels :=
        fun l hl hm => (List.pairwise_cons.mp later).1 d hd (labels hm) hl
      have own : ((k.reports s.target).map (Event.mk · k outer)).filter
          (fun e => decide (e.node.label ∈ n.tree.labels)) = [] := by
        have absent : k.label ∉ n.tree.labels :=
          fun hl => (Node.nodup_labels nodup).1 (k.labels_slot_subset hc (labels hl))
        simp [List.filter_map, Function.comp_def, absent]
      rw [items_walk hk ends, split, List.flatMap_append, List.flatMap_cons]
      simp only [List.filter_append]
      rw [filter_walks_eq_nil earlier, filter_walks_eq_nil later, own,
        ih k hk c hc (Node.nodup_slot nodup hc) (inner c hc) visits, List.nil_append,
        List.append_nil, List.append_nil]
    · rw [List.filter_eq_self.mpr, walk_eq_map_below hk h, Yield.items_map]
      intro e he
      have hl := label_mem_of_mem_walk he
      rw [← Tree.tree_of_node? hk] at hl
      exact decide_eq_true hl

end

/-- A node at its place in a tree with distinct labels. -/
structure Tree.FragmentAt (t : Tree) (n : Node) (around : List Node) : Prop where
  ends : t.events.fault = none
  visits : Visits [] ⟨t, false⟩ n around
  nodup : t.labels.Nodup

namespace Tree.FragmentAt

variable {t : Tree} {n m : Node} {around : List Node} {e : Event}

theorem not_mem_labels (at_ : t.FragmentAt n around) (hm : m ∈ around) :
    m.label ∉ n.tree.labels := by
  intro hl
  obtain ⟨before, rest, rfl⟩ := List.append_of_mem hm
  have below : m :: rest <:+ n :: (before ++ m :: rest) :=
    (List.suffix_append _ _).trans (List.suffix_cons _ _)
  have hv := at_.visits.of_suffix at_.ends below (Nat.zero_le _)
  have hs := (at_.visits.suffix_of_mem_labels at_.nodup hv hl).length_le
  simp only [List.length_cons, List.length_append] at hs
  omega

theorem mem_labels_iff (at_ : t.FragmentAt n around) (he : e ∈ t.events.items) :
    e.node.label ∈ n.tree.labels ↔ ∃ m ∈ e.path, m.label = n.label := by
  have met : Visits [] ⟨t, false⟩ e.node e.outer := .of_mem_walk he
  constructor
  · intro hl
    have hs := at_.visits.suffix_of_mem_labels at_.nodup met hl
    exact ⟨n, hs.subset List.mem_cons_self, rfl⟩
  · rintro ⟨m, hm, hl⟩
    have visited : ∃ rest, Visits [] ⟨t, false⟩ m rest := by
      rcases List.mem_cons.mp hm with rfl | hm
      · exact ⟨_, met⟩
      · exact met.of_mem at_.ends hm
    obtain ⟨rest, hv⟩ := visited
    obtain ⟨rfl, -⟩ := Visits.eq_of_label_eq at_.nodup hv at_.visits hl
    exact met.labels_subset hm List.mem_cons_self

theorem exists_of_mem_path (at_ : t.FragmentAt n around) (h : n.kind ≠ .identifier)
    (he : e ∈ t.events.items) (hm : m ∈ e.path) (hl : m.label ∈ n.tree.labels) :
    ∃ f ∈ n.tree.events.items, f.below around = e := by
  have within : e.node.label ∈ n.tree.labels := by
    obtain ⟨before, rest, hp⟩ := List.append_of_mem hm
    have hv : Visits [] ⟨t, false⟩ m rest :=
      (Visits.of_mem_walk he).of_suffix at_.ends ⟨before, hp.symm⟩ (Nat.zero_le _)
    have hs := (at_.visits.suffix_of_mem_labels at_.nodup hv hl).subset List.mem_cons_self
    refine (at_.mem_labels_iff he).mpr ⟨n, ?_, rfl⟩
    rw [hp]
    exact List.mem_append_right _ hs
  have kept : e ∈ t.events.items.filter fun e => decide (e.node.label ∈ n.tree.labels) :=
    List.mem_filter.mpr ⟨he, decide_eq_true within⟩
  rw [Tree.events, filter_walk_eq (s := ⟨t, false⟩) at_.nodup at_.ends at_.visits h] at kept
  exact List.mem_map.mp kept

theorem mem_events (at_ : t.FragmentAt n around) (h : n.kind ≠ .identifier)
    (he : e ∈ n.tree.events.items) : e.below around ∈ t.events.items := by
  have kept : e.below around ∈ n.tree.events.items.map (Event.below around) :=
    List.mem_map_of_mem he
  rw [← filter_walk_eq (s := ⟨t, false⟩) at_.nodup at_.ends at_.visits h] at kept
  exact List.mem_of_mem_filter kept

end Tree.FragmentAt

end LexicalScope
