import LexicalScope.Proofs.Pointer
import LexicalScope.Proofs.Walk.Below
import LexicalScope.Proofs.Walk.Place

/-! # Nodes with one child

A node may have all its children under one key. A walk then looks there only, and every place below
that key is a place below what stands there.
-/

namespace LexicalScope

namespace Node

/-- A tree stands in a node under a key, and no other member holds a node. -/
def HoldsOnly (n : Node) (key : String) (child : Tree) : Prop :=
  ∃ before after, n.fields = before ++ (key, child) :: after ∧
    ∀ f ∈ before ++ after, f.1 ≠ key ∧ ∀ s ∈ memberSlots f, s.value.node? = none

def HasMemberSlots (n : Node) : Prop := n.slots = .ofList (n.fields.flatMap memberSlots)

theorem node?_tree {n : Node} (h : n.kind ≠ .untyped) : n.tree.node? = some n := by
  cases ht : n.fields.lookup "type" with
  | none =>
    have untyped : n.kind = .untyped := by
      rw [kind, get, ht]
      rfl
    exact absurd untyped h
  | some v =>
    refine if_pos ?_
    rw [ht]
    rfl

namespace HoldsOnly

variable {n m : Node} {key : String} {child : Tree} {outer : List Node}

theorem get (h : n.HoldsOnly key child) : n.get key = child := by
  obtain ⟨before, after, hf, others⟩ := h
  have none : before.lookup key = none := by
    rw [List.lookup_eq_none_iff]
    intro f hf
    simpa using Ne.symm (others f (List.mem_append_left _ hf)).1
  simp [Node.get, hf, List.lookup_append, none]

theorem labels_sublist (h : n.HoldsOnly key child) :
    child.labels.Sublist (Tree.labelsFields n.fields) := by
  obtain ⟨before, after, hf, -⟩ := h
  rw [hf, Tree.labelsFields_eq, List.flatMap_append, List.flatMap_cons]
  exact (List.sublist_append_left _ _).trans (List.sublist_append_right _ _)

theorem labels_subset (h : n.HoldsOnly key child) : child.labels ⊆ n.tree.labels :=
  fun _ hl => List.mem_cons_of_mem _ (h.labels_sublist.subset hl)

theorem nodup (h : n.HoldsOnly key child) (nodup : n.tree.labels.Nodup) :
    n.label ∉ child.labels ∧ child.labels.Nodup := by
  obtain ⟨own, inner⟩ := n.nodup_labels nodup
  exact ⟨fun hl => own (h.labels_sublist.subset hl), inner.sublist h.labels_sublist⟩

theorem flatMap_walk (h : n.HoldsOnly key child) (members : n.HasMemberSlots) :
    n.slots.flatMap (walk outer) = Yield.collect (walk outer) (memberSlots (key, child)) := by
  obtain ⟨before, after, hf, others⟩ := h
  have bare {fs : List (String × Tree)} (h : fs ⊆ before ++ after) :
      Yield.collect (walk outer) (fs.flatMap memberSlots) = .empty := by
    apply Yield.collect_eq_empty
    intro s hs
    obtain ⟨f, hf, hs⟩ := List.mem_flatMap.mp hs
    exact walk_of_node?_eq_none ((others f (h hf)).2 s hs)
  rw [members, Yield.flatMap_ofList, hf, List.flatMap_append, List.flatMap_cons,
    Yield.collect_append, Yield.collect_append, bare (List.subset_append_left _ _),
    bare (List.subset_append_right _ _), Yield.empty_append, Yield.append_empty]

/-- A walk reports what lies below the child and then the node. -/
theorem events_tree (h : n.HoldsOnly key m.tree) (members : n.HasMemberSlots)
    (plain : key ∉ metadataKeys) (typed : n.kind ≠ .untyped) :
    n.tree.events = m.tree.events.map (Event.below [n]) ++ n.events [] false := by
  have child : memberSlots (key, m.tree) = [⟨m.tree, false⟩] := by
    simp [memberSlots, tree, plain]
  rw [Tree.events, walk_of_node?_eq_some (node?_tree typed), h.flatMap_walk members, child,
    Yield.collect_cons, Yield.collect_nil, Yield.append_empty, Tree.events, ← walk_append,
    List.nil_append]

theorem events_list {l : Label} {xs : List Tree} (h : n.HoldsOnly key (.arr l xs))
    (members : n.HasMemberSlots) (plain : key ∉ metadataKeys) (typed : n.kind ≠ .untyped) :
    n.tree.events =
      (Yield.collect Tree.events xs).map (Event.below [n]) ++ n.events [] false := by
  have children : memberSlots (key, .arr l xs) = xs.map (⟨·, false⟩) := by
    simp [memberSlots, plain]
  have each (x : Tree) : walk [n] ⟨x, false⟩ = x.events.map (Event.below [n]) :=
    walk_append [] [n] ⟨x, false⟩
  rw [Tree.events, walk_of_node?_eq_some (node?_tree typed), h.flatMap_walk members, children,
    Yield.collect_map, Yield.map_collect]
  simp only [Function.comp_def, each]

theorem mem_places (h : n.HoldsOnly key child) {l : Label} {q : Pointer} {u : Tree} :
    (l, .key key :: q, u) ∈ n.tree.places [] ↔ (l, q, u) ∈ child.places [] := by
  obtain ⟨before, after, hf, others⟩ := h
  have fields : n.tree.places [] = (n.label, [], n.tree) :: Tree.placesFields [] n.fields := by
    rw [tree, Tree.places]
    rfl
  rw [fields, hf]
  simp only [List.mem_cons, Prod.mk.injEq, reduceCtorEq, false_and, and_false, false_or,
    Tree.mem_placesFields, List.cons.injEq, Step.key.injEq]
  constructor
  · rintro ⟨f, hf, r, ⟨hk, rfl⟩, hm⟩
    rcases List.mem_append.mp hf with hf | hf
    · exact absurd hk.symm (others f (List.mem_append_left _ hf)).1
    · rcases List.mem_cons.mp hf with rfl | hf
      · exact hm
      · exact absurd hk.symm (others f (List.mem_append_right _ hf)).1
  · intro hm
    exact ⟨(key, child), by simp, _, ⟨rfl, rfl⟩, hm⟩

end HoldsOnly

end Node

theorem Tree.mem_places_arr {list l : Label} {i : Nat} {q : Pointer} {u : Tree} {xs : List Tree} :
    (l, .index i :: q, u) ∈ (Tree.arr list xs).places [] ↔
      ∃ x, xs[i]? = some x ∧ (l, q, u) ∈ x.places [] := by
  simp only [Tree.places, List.mem_cons, Prod.mk.injEq, List.reverse_nil, reduceCtorEq, false_and,
    and_false, false_or, Tree.mem_placesItems, Nat.zero_add, List.cons.injEq, Step.index.injEq]
  constructor
  · rintro ⟨j, x, hx, r, ⟨rfl, rfl⟩, hm⟩
    exact ⟨x, hx, hm⟩
  · rintro ⟨x, hx, hm⟩
    exact ⟨i, x, hx, q, ⟨rfl, rfl⟩, hm⟩

end LexicalScope
