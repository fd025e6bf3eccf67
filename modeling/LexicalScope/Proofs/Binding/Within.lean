import LexicalScope.Proofs.Binding.Exactness
import LexicalScope.Proofs.Walk.Place

/-! # Owners lie within the tree

Whether or not binding a tree runs to its end, every owner that gets a scope or a name is a part of
that tree.
-/

namespace LexicalScope

variable {outer : List Node} {s : Slot} {e : Event} {entry : Entry}

theorem label_mem_or_mem_outer (he : e ∈ (walk outer s).items) {m : Node} (hm : m ∈ e.path) :
    m ∈ outer ∨ m.label ∈ s.value.labels := by
  induction s using slot_induction generalizing outer with
  | step s ih =>
    obtain ⟨n, hn, he | ⟨c, hc, he⟩⟩ := mem_walk he
    all_goals rw [← Tree.tree_of_node? hn]
    · obtain ⟨-, -, rfl, rfl⟩ := Node.mem_events.mp he
      rcases List.mem_cons.mp hm with rfl | hm
      · exact .inr List.mem_cons_self
      · exact .inl hm
    · rcases ih n hn c hc he with hm | hm
      · rcases List.mem_cons.mp hm with rfl | hm
        · exact .inr List.mem_cons_self
        · exact .inl hm
      · exact .inr (List.mem_cons_of_mem _ (n.labels_slot_subset hc hm))

namespace Binding

variable {owner : Label} {Q : Label → Prop}

def OwnedBy (Q : Label → Prop) (y : Yield Entry) : Prop := ∀ entry ∈ y.items, Q entry.owner

theorem OwnedBy.empty : OwnedBy Q .empty := by simp [OwnedBy]

theorem OwnedBy.fail (f : Fault) : OwnedBy Q (.fail f) := by simp [OwnedBy]

theorem OwnedBy.append {p q : Yield Entry} (hp : OwnedBy Q p) (hq : OwnedBy Q q) :
    OwnedBy Q (p ++ q) := fun entry h => (Yield.mem_append h).elim (hp entry) (hq entry)

theorem OwnedBy.flatMap {α : Type} {y : Yield α} {f : α → Yield Entry}
    (h : ∀ a, OwnedBy Q (f a)) : OwnedBy Q (y.flatMap f) := by
  intro entry he
  obtain ⟨a, -, he⟩ := Yield.mem_flatMap he
  exact h a entry he

theorem ownedBy_scope (h : Q owner) : OwnedBy Q (.single (.scope owner)) := by
  simpa [OwnedBy, Entry.owner] using h

theorem ownedBy_declareName (h : Q owner) (t : Tree) : OwnedBy Q (declareName owner t) := by
  intro entry he
  obtain ⟨es, hes, he⟩ := Yield.mem_ofExcept.mp he
  cases t <;> simp [Tree.asName, Except.map] at hes
  subst hes
  obtain rfl := List.mem_singleton.mp he
  exact h

theorem ownedBy_declarePattern (h : Q owner) (t : Tree) : OwnedBy Q (declarePattern owner t) :=
  (ownedBy_scope h).append (.flatMap (ownedBy_declareName h))

theorem ownedBy_declareIdentifier (h : Q owner) (t : Tree) :
    OwnedBy Q (declareIdentifier owner t) := by
  unfold declareIdentifier
  split
  · exact (ownedBy_scope h).append (.flatMap (ownedBy_declareName h))
  · exact .empty

theorem ownedBy_declarators (h : Q owner) (n : Node) : OwnedBy Q (declarators n owner) := by
  refine (ownedBy_scope h).append (.flatMap fun t => ?_)
  unfold declarator
  split
  · exact .fail _
  · exact ownedBy_declarePattern h _

theorem ownedBy_importName (h : Q owner) (n : Node) : OwnedBy Q (importName n owner) :=
  (ownedBy_scope h).append (.flatMap (ownedBy_declareName h))

theorem ownedBy_functionNames {n : Node} (h : Q n.label) : OwnedBy Q (functionNames n) :=
  ((ownedBy_scope h).append (.flatMap (ownedBy_declarePattern h))).append
    (ownedBy_declareIdentifier h _)

theorem ownedBy_catchNames {n : Node} (h : ∀ l ∈ (n.get "handler").labels, Q l) :
    OwnedBy Q (catchNames n) := by
  unfold catchNames
  dsimp only
  split
  · split
    · next l fs hs =>
      split
      · refine ownedBy_declarePattern (h l ?_) _
        rw [hs]
        exact List.mem_cons_self
      · exact .empty
    · exact .fail _
  · exact .empty

theorem ownedBy_atNearest {test : Kind → Bool} {nodes : List Node} {bind : Label → Yield Entry}
    (hq : ∀ n ∈ nodes, Q n.label) (h : ∀ l, Q l → OwnedBy Q (bind l)) :
    OwnedBy Q (atNearest test nodes bind) := by
  have found {n : Node} (hn : nearest? test nodes = .ok (some n)) : n ∈ nodes := by
    clear hq
    induction nodes with
    | nil => cases hn
    | cons m ns ih =>
      unfold nearest? at hn
      split at hn
      · cases hn
      · split at hn
        · cases hn
          exact List.mem_cons_self
        · exact List.mem_cons_of_mem _ (ih hn)
  unfold atNearest
  split
  · exact .fail _
  · exact .empty
  · next n hn => exact h _ (hq n (found hn))

end Binding

open Binding

/-- The owners of the entries of a report are nodes of its path, or lie below the reported node. -/
theorem Event.ownedBy_entries {Q : Label → Prop} (path : ∀ m ∈ e.path, Q m.label)
    (below : ∀ l ∈ e.node.tree.labels, Q l) (mode : ScopeMode) : OwnedBy Q (e.entries mode) := by
  obtain ⟨own, around⟩ := List.forall_mem_cons.mp path
  unfold entries
  split
  · exact ownedBy_atNearest path fun l h => ownedBy_declarators h _
  · exact ownedBy_atNearest around fun l h => ownedBy_declareIdentifier h _
  · exact ownedBy_functionNames own
  · exact ownedBy_atNearest around fun l h => ownedBy_declareIdentifier h _
  · exact ownedBy_declareIdentifier own _
  · exact ownedBy_catchNames fun l hl => below l (e.node.labels_get_subset _ hl)
  case h_10 => exact .empty
  all_goals exact ownedBy_importName (path _ List.getLastD_mem_cons) _

theorem Tree.owner_mem_labels {t : Tree} {mode : ScopeMode} (h : entry ∈ (t.entries mode).items) :
    entry.owner ∈ t.labels := by
  obtain ⟨e, he, h⟩ := Yield.mem_flatMap h
  have path (m : Node) (hm : m ∈ e.path) : m.label ∈ t.labels :=
    (label_mem_or_mem_outer he hm).resolve_left (by simp)
  exact e.ownedBy_entries path (fun l hl => labels_subset_of_mem_walk he hl) mode entry h

end LexicalScope
