import LexicalScope.Proofs.Walk.Place

/-! # Descent

The chain of a report leads from the root of the walk down to the reported node. Each node of it
holds the next one in a member or in a list that is a member, except that an object pattern holds
the next one in one of its entries.
-/

namespace LexicalScope

theorem Tree.mem_elements_iff {t v : Tree} {m : Node} (hm : v.node? = some m) :
    v ∈ (Yield.ofExcept t.elements).items ↔ ∃ l vs, t = .arr l vs ∧ v ∈ vs := by
  constructor
  · intro h
    obtain ⟨vs, hvs, hv⟩ := Yield.mem_ofExcept.mp h
    unfold elements at hvs
    split at hvs
    · split at hvs
      · next l ws _ =>
        obtain rfl := Except.ok.inj hvs
        exact ⟨l, ws, rfl, hv⟩
      · obtain rfl := Except.ok.inj hvs
        obtain ⟨f, -, rfl⟩ := List.mem_map.mp hv
        cases hm
      · obtain rfl := Except.ok.inj hvs
        obtain ⟨c, -, rfl⟩ := List.mem_map.mp hv
        cases hm
      · cases hvs
    · cases hvs
      cases hv
  · rintro ⟨l, vs, rfl, hv⟩
    obtain ⟨w, ws, rfl⟩ := List.exists_cons_of_ne_nil (List.ne_nil_of_mem hv)
    exact Yield.mem_ofExcept.mpr ⟨_, rfl, hv⟩

namespace Node

/-- A tree is a member of a node or an item of a list that is one. -/
def Contains (n : Node) (t : Tree) : Prop :=
  ∃ f ∈ n.fields, f.2 = t ∨ ∃ l vs, f.2 = .arr l vs ∧ t ∈ vs

def HasEntry (n entry : Node) : Prop :=
  ∃ l vs, ("properties", .arr l vs) ∈ n.fields ∧ entry.tree ∈ vs

/-- The entries of an object pattern are left out of the chains of a walk. -/
def Encloses (n m : Node) : Prop :=
  if n.kind = .objectPattern then ∃ entry, n.HasEntry entry ∧ entry.Contains m.tree
  else n.Contains m.tree

theorem tree_injective : Function.Injective tree := by
  rintro ⟨l, fs⟩ ⟨k, gs⟩ h
  cases h
  rfl

variable {n m : Node} {key : String} {t : Tree} {p q : Yield Slot}

theorem mem_fields_of_get (h : n.get key ≠ .null) : (key, n.get key) ∈ n.fields := by
  unfold get at h ⊢
  cases hv : n.fields.lookup key with
  | none => simp [hv] at h
  | some v =>
    obtain ⟨before, after, hf, -⟩ := List.lookup_eq_some_iff.mp hv
    rw [hf]
    exact List.mem_append_right _ List.mem_cons_self

def ContainsAll (n : Node) (y : Yield Slot) : Prop :=
  ∀ c ∈ y.items, ∀ m, c.value.node? = some m → n.Contains m.tree

theorem containsAll_empty : n.ContainsAll .empty := by simp [ContainsAll]

theorem ContainsAll.append (hp : n.ContainsAll p) (hq : n.ContainsAll q) :
    n.ContainsAll (p ++ q) := fun c hc => (Yield.mem_append hc).elim (hp c) (hq c)

theorem contains_get (hm : (n.get key).node? = some m) : n.Contains m.tree := by
  have present : n.get key ≠ .null := by
    intro null
    rw [null] at hm
    cases hm
  exact ⟨_, mem_fields_of_get present, .inl (Tree.tree_of_node? hm).symm⟩

theorem containsAll_plain (key : String) : n.ContainsAll (n.plain key) := by
  intro c hc m hm
  obtain rfl := List.mem_singleton.mp hc
  exact contains_get hm

theorem containsAll_target (key : String) : n.ContainsAll (n.target key) := by
  intro c hc m hm
  obtain rfl := List.mem_singleton.mp hc
  exact contains_get hm

theorem containsAll_elements (key : String) (target : Bool) :
    n.ContainsAll ((Yield.ofExcept (n.get key).elements).map (⟨·, target⟩)) := by
  intro c hc m hm
  obtain ⟨t, ht, rfl⟩ := List.mem_map.mp hc
  obtain ⟨l, vs, hg, hv⟩ := (Tree.mem_elements_iff hm).mp ht
  have present : n.get key ≠ .null := by simp [hg, Tree.null]
  exact ⟨_, mem_fields_of_get present, .inr ⟨l, vs, hg, Tree.tree_of_node? hm ▸ hv⟩⟩

theorem containsAll_computedKey (key : String) : n.ContainsAll (n.computedKey key) := by
  unfold computedKey
  split
  · exact containsAll_plain key
  · exact containsAll_empty

theorem containsAll_members : n.ContainsAll (.ofList (n.fields.flatMap memberSlots)) := by
  intro c hc m hm
  obtain ⟨f, hf, hc⟩ := List.mem_flatMap.mp hc
  unfold memberSlots at hc
  split at hc
  · cases hc
  · split at hc
    · next l vs hv =>
      obtain ⟨t, ht, rfl⟩ := List.mem_map.mp hc
      exact ⟨f, hf, .inr ⟨l, vs, hv, (Tree.tree_of_node? hm).symm ▸ ht⟩⟩
    · obtain rfl := List.mem_singleton.mp hc
      exact ⟨f, hf, .inl (Tree.tree_of_node? hm).symm⟩

theorem containsAll_propertySlots {entry : Tree} (hn : entry.node? = some n) :
    n.ContainsAll (propertySlots entry) := by
  simp only [propertySlots, hn]
  split
  · exact (containsAll_computedKey _).append (containsAll_target _)
  · exact containsAll_target _

theorem containsAll_slots (h : n.kind ≠ .objectPattern) : n.ContainsAll n.slots := by
  unfold slots
  split
  all_goals
    repeat' with_reducible apply ContainsAll.append
  all_goals
    first
      | contradiction
      | exact containsAll_empty
      | exact containsAll_plain _
      | exact containsAll_target _
      | exact containsAll_computedKey _
      | exact containsAll_members
      | exact containsAll_elements _ _

theorem encloses_of_mem_slots {c : Slot} (hc : c ∈ n.slots.items) (hm : c.value.node? = some m) :
    n.Encloses m := by
  unfold Encloses
  split
  · next hk =>
    simp only [slots, hk] at hc
    obtain ⟨entry, he, hc⟩ := Yield.mem_flatMap hc
    cases hp : entry.node? with
    | none => simp [propertySlots, hp] at hc
    | some p =>
      obtain ⟨l, vs, hg, hv⟩ := (Tree.mem_elements_iff hp).mp he
      have list : n.HasEntry p := by
        refine ⟨l, vs, ?_, Tree.tree_of_node? hp ▸ hv⟩
        rw [← hg]
        exact mem_fields_of_get (by simp [hg, Tree.null])
      exact ⟨p, list, containsAll_propertySlots hp c hc m hm⟩
  · next hk => exact containsAll_slots hk c hc m hm

end Node

/-- A chain of nodes leads down a tree without meeting a place twice. -/
structure Tree.DescendsTo (t : Tree) (chain : List Node) (n : Node) : Prop where
  starts : chain.head?.map Node.tree = some t
  ends : chain.getLast? = some n
  nodup : (chain.map Node.label).Nodup
  linked : chain.IsChain Node.Encloses

theorem exists_way_of_mem_walk {outer : List Node} {s : Slot} {e : Event}
    (nodup : s.value.labels.Nodup) (h : e ∈ (walk outer s).items) :
    ∃ way, e.chain = outer.reverse ++ way ∧ s.value.DescendsTo way e.node ∧
      ∀ m ∈ way, m.label ∈ s.value.labels := by
  induction s using slot_induction generalizing outer with
  | step s ih =>
    obtain ⟨n, hn, h | ⟨c, hc, h⟩⟩ := mem_walk h
    all_goals rw [← Tree.tree_of_node? hn] at nodup ⊢
    · obtain ⟨-, -, rfl, rfl⟩ := Node.mem_events.mp h
      refine ⟨[e.node], by simp [Event.chain], ⟨rfl, rfl, by simp, by simp⟩, ?_⟩
      exact List.forall_mem_singleton.mpr List.mem_cons_self
    · obtain ⟨way, chain, down, below⟩ := ih n hn c hc (Node.nodup_slot nodup hc) h
      have inside (m : Node) (hm : m ∈ way) : m.label ∈ Tree.labelsFields n.fields :=
        n.labels_slot_subset hc (below m hm)
      obtain ⟨m, rest, rfl⟩ : ∃ m rest, way = m :: rest := by
        cases way with
        | nil => cases down.starts
        | cons m rest => exact ⟨m, rest, rfl⟩
      have first : c.value.node? = some m := by
        obtain ⟨k, hk, -⟩ := suffix_path_of_mem_walk h
        have same : m.tree = k.tree :=
          (Option.some.inj down.starts).trans (Tree.tree_of_node? hk).symm
        rw [hk, Node.tree_injective same]
      refine ⟨n :: m :: rest, by simp [chain], ⟨rfl, ?_, ?_, ?_⟩, ?_⟩
      · rw [List.getLast?_cons_cons]
        exact down.ends
      · refine List.nodup_cons.mpr ⟨?_, down.nodup⟩
        intro own
        obtain ⟨k, hk, same⟩ := List.mem_map.mp own
        exact (Node.nodup_labels nodup).1 (same ▸ inside k hk)
      · exact List.isChain_cons_cons.mpr ⟨Node.encloses_of_mem_slots hc first, down.linked⟩
      · refine List.forall_mem_cons.mpr ⟨List.mem_cons_self, fun k hk => ?_⟩
        exact List.mem_cons_of_mem _ (inside k hk)

/-- The chain of a report leads from the root of the walk to the reported node. -/
theorem descendsTo_of_mem_events {t : Tree} {e : Event} (nodup : t.labels.Nodup)
    (h : e ∈ t.events.items) : t.DescendsTo e.chain e.node := by
  obtain ⟨way, chain, down, -⟩ := exists_way_of_mem_walk nodup h
  rw [chain]
  exact down

end LexicalScope
