import LexicalScope.Proofs.Matching.Binding
import LexicalScope.Proofs.Walk.Report

/-! # Walking matching trees

A node that is not opened has the slots of every matching node, with matching trees in them. So
where nothing is opened, walks through matching trees make matching reports, in the same order if
the order counts.
-/

namespace LexicalScope

variable {ordered : Bool} {opened : Label → Prop}

def Slot.Matches (ordered : Bool) (opened : Label → Prop) (s s' : Slot) : Prop :=
  s.value.Matches ordered opened s'.value ∧ s'.target = s.target

namespace Node.Matches

variable {n n' : Node}

theorem arranges_plain (h : n.Matches ordered opened n') {key : String}
    (kept : Kept opened n.label key) :
    (n.plain key).Arranges ordered (Slot.Matches ordered opened) (n'.plain key) :=
  Yield.arranges_single ⟨h.get _ kept, rfl⟩

theorem arranges_target (h : n.Matches ordered opened n') {key : String}
    (kept : Kept opened n.label key) :
    (n.target key).Arranges ordered (Slot.Matches ordered opened) (n'.target key) :=
  Yield.arranges_single ⟨h.get _ kept, rfl⟩

theorem arranges_elements (h : n.Matches ordered opened n') {key : String}
    (kept : Kept opened n.label key) (target : Bool) :
    ((Yield.ofExcept (n.get key).elements).map (⟨·, target⟩)).Arranges ordered
      (Slot.Matches ordered opened)
      ((Yield.ofExcept (n'.get key).elements).map (⟨·, target⟩)) :=
  (h.get _ kept).elements.map fun _ _ _ hv => ⟨hv, rfl⟩

theorem arranges_computedKey (h : n.Matches ordered opened n') {key : String}
    (kept : Kept opened n.label key) :
    (n.computedKey key).Arranges ordered (Slot.Matches ordered opened) (n'.computedKey key) := by
  unfold computedKey
  rw [(h.get _ (.inr (by decide))).truthy_eq]
  split
  · exact h.arranges_plain kept
  · exact Yield.arranges_empty

theorem arranges_propertySlots {v v' : Tree} (h : v.Matches ordered opened v') :
    (propertySlots v).Arranges ordered (Slot.Matches ordered opened) (propertySlots v') := by
  unfold propertySlots
  rcases h.node? with ⟨hn, hn'⟩ | ⟨p, p', hn, hn', hp⟩
  · rw [hn, hn']
    exact Yield.arranges_empty
  · simp only [hn, hn', hp.kind]
    split
    · exact (hp.arranges_computedKey (.inr (by decide))).append
        (hp.arranges_target (.inr (by decide)))
    · exact hp.arranges_target (.inr (by decide))

theorem arranged_memberSlots {f g : String × Tree} (hk : f.1 = g.1)
    (hm : f.2.Matches ordered opened g.2) :
    Arranged ordered (Slot.Matches ordered opened) (memberSlots f) (memberSlots g) := by
  obtain ⟨key, v⟩ := f
  obtain ⟨key', v'⟩ := g
  obtain rfl : key = key' := hk
  have hm : v.Matches ordered opened v' := hm
  unfold memberSlots
  split
  · exact .nil
  · cases v with
    | atom a =>
      cases hm
      exact .of_forall₂ (.cons ⟨.atom a, rfl⟩ .nil)
    | arr l vs =>
      obtain ⟨us, rfl, items⟩ := hm.items
      exact items.map fun _ _ _ hv => ⟨hv, rfl⟩
    | obj l fs =>
      obtain ⟨gs, rfl, -⟩ := id hm.members
      exact .of_forall₂ (.cons ⟨hm, rfl⟩ .nil)

theorem arranges_properties (h : n.Matches ordered opened n') {key : String}
    (kept : Kept opened n.label key) :
    ((Yield.ofExcept (n.get key).elements).flatMap propertySlots).Arranges ordered
      (Slot.Matches ordered opened)
      ((Yield.ofExcept (n'.get key).elements).flatMap propertySlots) :=
  (h.get _ kept).elements.flatMap fun _ _ _ hv => arranges_propertySlots hv

theorem arranges_members (h : n.Matches ordered opened n') (closed : ¬ opened n.label) :
    (Yield.ofList (n.fields.flatMap memberSlots)).Arranges ordered (Slot.Matches ordered opened)
      (Yield.ofList (n'.fields.flatMap memberSlots)) := by
  have whole : (Tree.obj n.label n.fields).Matches ordered opened n'.tree := h
  obtain ⟨gs, same, -, members⟩ := whole.members
  obtain ⟨-, rfl⟩ := Tree.obj.inj same
  refine Yield.arranges_ofList (members.flatMap ?_)
  rintro f - g ⟨hk, hm⟩
  exact arranged_memberSlots hk (hm (.inl closed))

theorem arranges_slots (h : n.Matches ordered opened n') (closed : ¬ opened n.label) :
    n.slots.Arranges ordered (Slot.Matches ordered opened) n'.slots := by
  have kept (key : String) : Kept opened n.label key := .inl closed
  unfold slots
  rw [h.kind]
  split
  all_goals
    repeat'
      first
      | with_reducible apply Yield.Arranges.append
      | with_reducible exact Yield.arranges_empty
      | with_reducible exact h.arranges_plain (kept _)
      | with_reducible exact h.arranges_target (kept _)
      | with_reducible exact h.arranges_computedKey (kept _)
      | with_reducible exact h.arranges_properties (kept _)
      | with_reducible exact h.arranges_members closed
      | exact h.arranges_elements (kept _) _

theorem reports_eq (h : n.Matches ordered opened n') (target : Bool) :
    n'.reports target = n.reports target := by
  unfold reports
  rw [h.kind]

theorem arranges_events (h : n.Matches ordered opened n') {outer outer' : List Node}
    (ho : List.Forall₂ (Node.Matches ordered opened) outer outer') (target : Bool) :
    (n.events outer target).Arranges ordered (Event.Matches ordered opened)
      (n'.events outer' target) := by
  unfold events
  rw [h.kind, h.reports_eq]
  split
  · exact Yield.arranges_fail
  · apply Yield.arranges_ofList
    apply Arranged.of_forall₂
    rw [List.forall₂_map_left_iff, List.forall₂_map_right_iff]
    exact List.forall₂_same.mpr fun k _ => ⟨rfl, h, ho⟩

end Node.Matches

/-- Where nothing is opened, walks through matching trees make matching reports. -/
theorem arranges_walk (closed : ∀ l, ¬ opened l) {s s' : Slot} (h : s.Matches ordered opened s')
    {outer outer' : List Node} (ho : List.Forall₂ (Node.Matches ordered opened) outer outer') :
    (walk outer s).Arranges ordered (Event.Matches ordered opened) (walk outer' s') := by
  induction s using slot_induction generalizing s' outer outer' with
  | step s ih =>
    obtain ⟨hv, ht⟩ := h
    rcases hv.node? with ⟨hn, hn'⟩ | ⟨n, n', hn, hn', hm⟩
    · rw [walk_of_node?_eq_none hn, walk_of_node?_eq_none hn']
      exact Yield.arranges_empty
    · rw [walk_of_node?_eq_some hn, walk_of_node?_eq_some hn', ht]
      refine Yield.Arranges.append ?_ (hm.arranges_events ho s.target)
      refine (hm.arranges_slots (closed _)).flatMap ?_
      intro c hc c' hcc
      exact ih n hn c hc hcc (.cons hm ho)

namespace Tree.Matches

variable {t t' : Tree}

theorem arranges_events (h : t.Matches ordered opened t') (closed : ∀ l, ¬ opened l) :
    t.events.Arranges ordered (Event.Matches ordered opened) t'.events := by
  have slot : Slot.Matches ordered opened ⟨t, false⟩ ⟨t', false⟩ := ⟨h, rfl⟩
  exact arranges_walk closed slot .nil

theorem arranges_entries (h : t.Matches ordered opened t') (closed : ∀ l, ¬ opened l)
    (mode : ScopeMode) : (t.entries mode).Arranges ordered (· = ·) (t'.entries mode) :=
  (h.arranges_events closed).flatMap fun _ _ _ he => he.arranges_entries mode fun _ => closed _

end Tree.Matches

end LexicalScope
