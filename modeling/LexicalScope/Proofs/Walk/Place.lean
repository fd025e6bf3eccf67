import Mathlib.Data.List.Flatten
import Mathlib.Data.List.Nodup
import Mathlib.Data.List.Pairwise
import Mathlib.Data.List.Perm.Subperm
import LexicalScope.Proofs.Walk.Report
import LexicalScope.Tree.Label

/-! # Places

In a tree whose labels are distinct, a label determines the place of a node: the node itself and the
nodes around it. Whatever a walk reports below a node has that node in its path, so two reported
nodes either share no label or lie on one path.
-/

namespace LexicalScope

namespace Tree

theorem labelsItems_eq (vs : List Tree) : labelsItems vs = vs.flatMap labels := by
  induction vs with
  | nil => rfl
  | cons v vs ih => simp [labelsItems, ih]

theorem labelsFields_eq (fs : List (String × Tree)) :
    labelsFields fs = fs.flatMap fun f => f.2.labels := by
  induction fs with
  | nil => rfl
  | cons f fs ih => simp [labelsFields, ih]

theorem labels_elements_sublist {t : Tree} {vs : List Tree} (h : t.elements = .ok vs) :
    (vs.flatMap labels).Sublist t.labels := by
  have texts {α : Type} (as : List α) (f : α → String) :
      (as.map fun a => str (f a)).flatMap labels = [] := by
    simp [List.flatMap_eq_nil_iff, str, labels]
  unfold elements at h
  split at h
  · split at h <;> simp only [Except.ok.injEq, reduceCtorEq] at h <;> subst h
    · simp [labels, labelsItems_eq]
    · simp [texts]
    · simp [texts]
  · cases h
    exact List.nil_sublist _

end Tree

def slotLabels (ss : List Slot) : List Label := ss.flatMap fun s => s.value.labels

@[simp]
theorem slotLabels_nil : slotLabels [] = [] := rfl

@[simp]
theorem slotLabels_append (ss ts : List Slot) :
    slotLabels (ss ++ ts) = slotLabels ss ++ slotLabels ts := List.flatMap_append

namespace Yield

theorem items_append_sublist {α : Type} (p q : Yield α) :
    (p ++ q).items.Sublist (p.items ++ q.items) := by
  obtain ⟨as, _ | e⟩ := p
  · exact List.Sublist.refl _
  · exact List.sublist_append_left _ _

theorem items_flatMap_sublist {α β : Type} (p : Yield α) (f : α → Yield β) :
    (p.flatMap f).items.Sublist (p.items.flatMap fun a => (f a).items) := by
  have collects (as : List α) :
      (collect f as).items.Sublist (as.flatMap fun a => (f a).items) := by
    induction as with
    | nil => exact List.Sublist.refl _
    | cons a as ih =>
      rw [collect_cons, List.flatMap_cons]
      exact (items_append_sublist _ _).trans ((List.Sublist.refl _).append ih)
  refine (items_append_sublist _ _).trans ?_
  simpa using collects p.items

end Yield

namespace Node

variable {n : Node}

theorem labels_tree (n : Node) : n.tree.labels = n.label :: Tree.labelsFields n.fields := rfl

/-- The slots of a yield take their trees from some members of a node, each label at most once. -/
def Takes (n : Node) (keys : List String) (y : Yield Slot) : Prop :=
  (slotLabels y.items).Subperm (keys.flatMap fun key => (n.get key).labels)

theorem takes_empty : n.Takes [] .empty := List.Subperm.refl _

theorem Takes.append {p q : Yield Slot} {ks ls : List String} (hp : n.Takes ks p)
    (hq : n.Takes ls q) : n.Takes (ks ++ ls) (p ++ q) := by
  rw [Takes, List.flatMap_append]
  have hs := (Yield.items_append_sublist p q).flatMap fun s => s.value.labels
  refine hs.subperm.trans ?_
  rw [List.flatMap_append]
  exact List.Subperm.append hp hq

theorem takes_plain (key : String) : n.Takes [key] (n.plain key) := by
  simp [Takes, plain, slotLabels, List.Subperm.refl]

theorem takes_target (key : String) : n.Takes [key] (n.target key) := by
  simp [Takes, target, slotLabels, List.Subperm.refl]

theorem takes_elements (key : String) (target : Bool) :
    n.Takes [key] ((Yield.ofExcept (n.get key).elements).map (⟨·, target⟩)) := by
  cases h : (n.get key).elements with
  | error e => simp [Takes, Yield.ofExcept]
  | ok vs =>
    simpa [Takes, Yield.ofExcept, slotLabels, List.flatMap_map] using
      (Tree.labels_elements_sublist h).subperm

theorem takes_computedKey (key : String) : n.Takes [key] (n.computedKey key) := by
  unfold computedKey
  split
  · exact takes_plain key
  · simp [Takes]

theorem subperm_members {ks : List String} (h : ks.Nodup) (fs : List (String × Tree)) :
    (ks.flatMap fun k => ((fs.lookup k).getD .null).labels).Subperm (Tree.labelsFields fs) := by
  induction ks generalizing fs with
  | nil => simp
  | cons k ks ih =>
    obtain ⟨hk, hks⟩ := List.nodup_cons.mp h
    rw [List.flatMap_cons]
    cases hv : fs.lookup k with
    | none => simpa [Tree.null, Tree.labels] using ih hks fs
    | some v =>
      obtain ⟨before, after, rfl, hb⟩ := List.lookup_eq_some_iff.mp hv
      have other (l : String) (hl : l ∈ ks) :
          (before ++ (k, v) :: after).lookup l = (before ++ after).lookup l := by
        have hne : (l == k) = false := by
          rw [beq_eq_false_iff_ne]
          rintro rfl
          exact hk hl
        simp [List.lookup_append, List.lookup_cons, hne]
      have rest : (ks.flatMap fun l =>
          (((before ++ (k, v) :: after).lookup l).getD .null).labels) =
          ks.flatMap fun l => (((before ++ after).lookup l).getD .null).labels :=
        List.flatMap_congr fun l hl => by rw [other l hl]
      have moved : (Tree.labelsFields (before ++ (k, v) :: after)).Perm
          (v.labels ++ Tree.labelsFields (before ++ after)) := by
        simp only [Tree.labelsFields_eq, List.flatMap_append, List.flatMap_cons]
        rw [← List.append_assoc, ← List.append_assoc]
        exact List.perm_append_comm.append_right _
      rw [rest, Option.getD_some]
      exact (List.Subperm.append (List.Subperm.refl _) (ih hks _)).trans moved.symm.subperm

theorem Takes.subperm {y : Yield Slot} {ks : List String} (h : n.Takes ks y) (hks : ks.Nodup) :
    (slotLabels y.items).Subperm (Tree.labelsFields n.fields) :=
  List.Subperm.trans h (subperm_members hks n.fields)

theorem propertySlots_subperm (entry : Tree) :
    (slotLabels (propertySlots entry).items).Subperm entry.labels := by
  unfold propertySlots
  split
  · simp
  · next p hp =>
    rw [← Tree.tree_of_node? hp]
    have inner : (Tree.labelsFields p.fields).Subperm p.tree.labels :=
      (List.sublist_cons_self _ _).subperm
    split
    · have takes := (takes_computedKey (n := p) "key").append (takes_target "value")
      exact (takes.subperm (by decide)).trans inner
    · exact ((takes_target "argument").subperm (by decide)).trans inner

theorem takes_properties : n.Takes ["properties"]
    ((Yield.ofExcept (n.get "properties").elements).flatMap propertySlots) := by
  have entries (vs : List Tree) : (vs.flatMap fun v => slotLabels (propertySlots v).items).Subperm
      (vs.flatMap Tree.labels) := by
    induction vs with
    | nil => simp
    | cons v vs ih => exact List.Subperm.append (propertySlots_subperm v) ih
  have hs := (Yield.items_flatMap_sublist (Yield.ofExcept (n.get "properties").elements)
    propertySlots).flatMap fun s => s.value.labels
  refine hs.subperm.trans ?_
  rw [List.flatMap_assoc]
  cases h : (n.get "properties").elements with
  | error e => simp [Yield.ofExcept]
  | ok vs =>
    simpa [Yield.ofExcept, slotLabels] using
      (entries vs).trans (Tree.labels_elements_sublist h).subperm

theorem labels_memberSlots_sublist (field : String × Tree) :
    (slotLabels (memberSlots field)).Sublist field.2.labels := by
  obtain ⟨key, v⟩ := field
  unfold memberSlots
  split
  · simp
  · cases v with
    | arr l vs => simp [slotLabels, List.flatMap_map, Tree.labels, Tree.labelsItems_eq]
    | atom a => simp [slotLabels]
    | obj l fs => simp [slotLabels]

theorem slotLabels_members_subperm (n : Node) :
    (slotLabels (Yield.ofList (n.fields.flatMap memberSlots)).items).Subperm
      (Tree.labelsFields n.fields) := by
  rw [Yield.items_ofList, slotLabels, List.flatMap_assoc, Tree.labelsFields_eq]
  exact (List.Sublist.flatMap_right _ fun f _ => labels_memberSlots_sublist f).subperm

/-- The slots of a node hold different parts of it. -/
theorem slotLabels_slots_subperm (n : Node) :
    (slotLabels n.slots.items).Subperm (Tree.labelsFields n.fields) := by
  unfold slots
  split
  all_goals
    first
    | with_reducible exact slotLabels_members_subperm n
    | apply Takes.subperm
      case h =>
        repeat'
          first
          | with_reducible apply Takes.append
          | with_reducible exact takes_empty
          | with_reducible exact takes_plain _
          | with_reducible exact takes_target _
          | with_reducible exact takes_computedKey _
          | with_reducible exact takes_properties
          | exact takes_elements _ _
      case hks => decide

theorem labels_slot_subset (n : Node) {c : Slot} (hc : c ∈ n.slots.items) :
    c.value.labels ⊆ Tree.labelsFields n.fields := by
  intro l hl
  exact (slotLabels_slots_subperm n).subset (List.mem_flatMap.mpr ⟨c, hc, hl⟩)

theorem labels_get_subset (n : Node) (key : String) : (n.get key).labels ⊆ n.tree.labels := by
  have one := subperm_members (List.nodup_singleton key) n.fields
  rw [List.flatMap_singleton] at one
  intro l hl
  exact List.mem_cons_of_mem _ (one.subset hl)

theorem nodup_labels (h : n.tree.labels.Nodup) :
    n.label ∉ Tree.labelsFields n.fields ∧ (Tree.labelsFields n.fields).Nodup :=
  List.nodup_cons.mp h

theorem nodup_slotLabels (h : n.tree.labels.Nodup) : (slotLabels n.slots.items).Nodup := by
  obtain ⟨ls, hp, hs⟩ := slotLabels_slots_subperm n
  exact hp.nodup_iff.mp ((nodup_labels h).2.sublist hs)

theorem nodup_slot (h : n.tree.labels.Nodup) {c : Slot} (hc : c ∈ n.slots.items) :
    c.value.labels.Nodup :=
  (List.nodup_flatMap.mp (nodup_slotLabels h)).1 c hc

theorem pairwise_slots (h : n.tree.labels.Nodup) :
    n.slots.items.Pairwise fun c d => c.value.labels.Disjoint d.value.labels :=
  (List.nodup_flatMap.mp (nodup_slotLabels h)).2

theorem slot_eq_of_mem_labels (h : n.tree.labels.Nodup) {c d : Slot} (hc : c ∈ n.slots.items)
    (hd : d ∈ n.slots.items) {l : Label} (hlc : l ∈ c.value.labels) (hld : l ∈ d.value.labels) :
    c = d := by
  by_contra hne
  have symm : Std.Symm fun c d : Slot => c.value.labels.Disjoint d.value.labels := by
    constructor
    intro c d h l hd hc
    exact h hc hd
  exact (pairwise_slots h).forall hc hd hne hlc hld

end Node

section

variable {outer : List Node} {s : Slot} {e f : Event}

theorem labels_subset_of_mem_walk (h : e ∈ (walk outer s).items) :
    e.node.tree.labels ⊆ s.value.labels := by
  induction s using slot_induction generalizing outer with
  | step s ih =>
    obtain ⟨n, hn, h | ⟨c, hc, h⟩⟩ := mem_walk h
    · obtain ⟨-, -, rfl, -⟩ := Node.mem_events.mp h
      rw [Tree.tree_of_node? hn]
      exact List.Subset.refl _
    · rw [← Tree.tree_of_node? hn, Node.labels_tree]
      intro l hl
      exact List.mem_cons_of_mem _ (n.labels_slot_subset hc (ih n hn c hc h hl))

theorem label_mem_of_mem_walk (h : e ∈ (walk outer s).items) : e.node.label ∈ s.value.labels :=
  labels_subset_of_mem_walk h List.mem_cons_self

theorem label_mem_of_mem_path {s : Slot} {e : Event} (he : e ∈ (walk [] s).items)
    (ends : (walk [] s).fault = none) {n : Node} (hn : n ∈ e.path) : n.label ∈ s.value.labels := by
  rcases List.mem_cons.mp hn with rfl | hn
  · exact label_mem_of_mem_walk he
  · obtain ⟨rest, f, hf, rfl, -⟩ := (Visits.of_mem_walk he).of_mem ends hn
    exact label_mem_of_mem_walk hf

theorem suffix_of_mem_labels (nodup : s.value.labels.Nodup) (he : e ∈ (walk outer s).items)
    (hf : f ∈ (walk outer s).items) (h : f.node.label ∈ e.node.tree.labels) :
    e.path <:+ f.path := by
  induction s using slot_induction generalizing outer with
  | step s ih =>
    obtain ⟨n, hn, he | ⟨c, hc, he⟩⟩ := mem_walk he
    · obtain ⟨-, -, rfl, rfl⟩ := Node.mem_events.mp he
      obtain ⟨m, hm, hs⟩ := suffix_path_of_mem_walk hf
      obtain rfl : m = e.node := Option.some.inj (hm.symm.trans hn)
      exact hs
    · rw [← Tree.tree_of_node? hn] at nodup
      have hl := labels_subset_of_mem_walk he h
      obtain ⟨m, hm, hf | ⟨d, hd, hf⟩⟩ := mem_walk hf
      · obtain ⟨-, -, rfl, -⟩ := Node.mem_events.mp hf
        obtain rfl : f.node = n := Option.some.inj (hm.symm.trans hn)
        exact absurd (Node.labels_slot_subset _ hc hl) (Node.nodup_labels nodup).1
      · obtain rfl : m = n := Option.some.inj (hm.symm.trans hn)
        obtain rfl := Node.slot_eq_of_mem_labels nodup hc hd hl (label_mem_of_mem_walk hf)
        exact ih m hn c hc (Node.nodup_slot nodup hc) he hf

/-- A label determines the place of a reported node. -/
theorem path_eq_of_label_eq (nodup : s.value.labels.Nodup) (he : e ∈ (walk outer s).items)
    (hf : f ∈ (walk outer s).items) (h : e.node.label = f.node.label) : e.path = f.path := by
  have hs := suffix_of_mem_labels nodup he hf (h ▸ List.mem_cons_self)
  have hs' := suffix_of_mem_labels nodup hf he (h ▸ List.mem_cons_self)
  exact hs.eq_of_length_le hs'.length_le

namespace Visits

variable {n m : Node} {ns ms : List Node}

theorem eq_of_label_eq (nodup : s.value.labels.Nodup)
    (hn : Visits outer s n ns) (hm : Visits outer s m ms) (h : n.label = m.label) :
    n = m ∧ ns = ms := by
  obtain ⟨e, he, rfl, rfl⟩ := hn
  obtain ⟨f, hf, rfl, rfl⟩ := hm
  exact List.cons.inj (path_eq_of_label_eq nodup he hf h)

theorem suffix_of_mem_labels (hn : Visits outer s n ns) (nodup : s.value.labels.Nodup)
    (hm : Visits outer s m ms) (h : m.label ∈ n.tree.labels) : n :: ns <:+ m :: ms := by
  obtain ⟨e, he, rfl, rfl⟩ := hn
  obtain ⟨f, hf, rfl, rfl⟩ := hm
  exact LexicalScope.suffix_of_mem_labels nodup he hf h

theorem labels_subset_of_suffix (hm : Visits outer s m ms) (hn : n :: ns <:+ m :: ms)
    (hl : outer.length ≤ ns.length) : m.tree.labels ⊆ n.tree.labels := by
  induction s using slot_induction generalizing outer with
  | step s ih =>
    obtain ⟨e, he, rfl, rfl⟩ := hm
    obtain ⟨k', hk', hs⟩ := suffix_path_of_mem_walk he
    obtain ⟨k, hk, he | ⟨c, hc, he⟩⟩ := LexicalScope.mem_walk he
    · obtain ⟨-, -, rfl, ho⟩ := Node.mem_events.mp he
      have same := hn.eq_of_length_le (by simpa [ho] using hl)
      rw [(List.cons.inj same).1]
      exact List.Subset.refl _
    · rcases Nat.lt_or_ge outer.length ns.length with hlt | hge
      · exact ih k hk c hc (of_mem_walk he) hlt
      · obtain rfl := Option.some.inj (hk'.symm.trans hk)
        have same := List.suffix_of_suffix_length_le hn hs (by simpa using hge)
        obtain ⟨rfl, -⟩ := List.cons.inj (same.eq_of_length_le (by simpa using hl))
        rw [Node.labels_tree]
        intro l h
        exact List.mem_cons_of_mem _
          (Node.labels_slot_subset _ hc (labels_subset_of_mem_walk he h))

theorem labels_subset (hm : Visits [] s m ms) (hn : n ∈ m :: ms) :
    m.tree.labels ⊆ n.tree.labels := by
  obtain ⟨before, rest, hp⟩ := List.append_of_mem hn
  exact hm.labels_subset_of_suffix ⟨before, hp.symm⟩ (Nat.zero_le _)

end Visits

theorem nodup_labels_events (kinds : Kind → Bool) {n : Node} {target : Bool}
    (single : ((n.reports target).filter kinds).length ≤ 1) :
    (((n.events outer target).items.filter fun e => kinds e.kind).map
      fun e => e.node.label).Nodup := by
  unfold Node.events
  split
  · simp
  · have same : (((n.reports target).map (Event.mk · n outer)).filter
        fun e => kinds e.kind).map (fun e => e.node.label) =
        List.replicate ((n.reports target).filter kinds).length n.label := by
      simp [List.filter_map, Function.comp_def]
    rw [Yield.items_ofList, same]
    exact List.nodup_replicate.mpr single

theorem nodup_labels_walk (kinds : Kind → Bool)
    (single : ∀ (n : Node) (target : Bool), ((n.reports target).filter kinds).length ≤ 1)
    (nodup : s.value.labels.Nodup) :
    (((walk outer s).items.filter fun e => kinds e.kind).map fun e => e.node.label).Nodup := by
  induction s using slot_induction generalizing outer with
  | step s ih =>
    cases hn : s.value.node? with
    | none => simp [walk_of_node?_eq_none hn]
    | some n =>
      rw [← Tree.tree_of_node? hn] at nodup
      have sublist : (walk outer s).items.Sublist
          ((n.slots.items.flatMap fun c => (walk (n :: outer) c).items) ++
            (n.events outer s.target).items) := by
        rw [walk_of_node?_eq_some hn]
        exact (Yield.items_append_sublist _ _).trans
          ((Yield.items_flatMap_sublist _ _).append (List.Sublist.refl _))
      refine List.Nodup.sublist ((sublist.filter _).map _) ?_
      rw [List.filter_append, List.map_append, List.filter_flatMap, List.map_flatMap]
      refine List.Nodup.append ?below ?own ?apart
      case below =>
        refine List.nodup_flatMap.mpr ⟨fun c hc => ih n hn c hc (Node.nodup_slot nodup hc), ?_⟩
        refine (Node.pairwise_slots nodup).imp ?_
        intro c d hcd l hlc hld
        obtain ⟨e, he, rfl⟩ := List.mem_map.mp hlc
        obtain ⟨f, hf, hfe⟩ := List.mem_map.mp hld
        refine hcd (label_mem_of_mem_walk (List.mem_of_mem_filter he)) ?_
        rw [← hfe]
        exact label_mem_of_mem_walk (List.mem_of_mem_filter hf)
      case own => exact nodup_labels_events kinds (single n s.target)
      case apart =>
        intro l hl ho
        obtain ⟨f, hf, rfl⟩ := List.mem_map.mp ho
        obtain ⟨-, -, rfl, -⟩ := Node.mem_events.mp (List.mem_of_mem_filter hf)
        obtain ⟨c, hc, hl⟩ := List.mem_flatMap.mp hl
        obtain ⟨e, he, hef⟩ := List.mem_map.mp hl
        have below := label_mem_of_mem_walk (List.mem_of_mem_filter he)
        rw [hef] at below
        exact (Node.nodup_labels nodup).1 (f.node.labels_slot_subset hc below)

end

end LexicalScope
