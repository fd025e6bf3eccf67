import LexicalScope.Proofs.Metadata.Core
import LexicalScope.Proofs.Walk.Below

/-! # Walking a core

No slot of a node shows what the node ignores, so a walk through the core of a tree makes the same
reports on the cores of the nodes.
-/

namespace LexicalScope

def Slot.core (s : Slot) : Slot := ⟨s.value.core, s.target⟩

def Event.core (e : Event) : Event := ⟨e.kind, e.node.core, e.outer.map Node.core⟩

namespace Node

variable (n : Node)

theorem plain_core {key : String} (h : key ∉ ignorableKeys) :
    n.core.plain key = (n.plain key).map Slot.core := by
  rw [plain, get_core n h]
  rfl

theorem target_core {key : String} (h : key ∉ ignorableKeys) :
    n.core.target key = (n.target key).map Slot.core := by
  rw [target, get_core n h]
  rfl

theorem elements_core {key : String} (h : n.ignores key = false) (target : Bool) :
    (Yield.ofExcept (n.core.get key).elements).map (⟨·, target⟩) =
      ((Yield.ofExcept (n.get key).elements).map (⟨·, target⟩)).map Slot.core := by
  rw [get_core_of_ignores n h, Tree.ofExcept_elements_core]
  simp only [Yield.map, List.map_map]
  rfl

theorem computedKey_core {key : String} (h : (n.get "computed").truthy = true →
    n.ignores key = false) : n.core.computedKey key = (n.computedKey key).map Slot.core := by
  unfold computedKey
  rw [get_core n (by decide), Tree.truthy_core]
  split
  · next computed =>
    rw [plain, get_core_of_ignores n (h computed)]
    rfl
  · rfl

theorem propertySlots_core (entry : Tree) :
    propertySlots entry.core = (propertySlots entry).map Slot.core := by
  unfold propertySlots
  rw [Tree.node?_core]
  cases entry.node? with
  | none => rfl
  | some p =>
    simp only [Option.map_some, kind_core]
    split
    · next kind =>
      rw [computedKey_core p (fun computed => by simp [ignores, annotationKeys, kind, computed]),
        target_core p (by decide), Yield.map_append]
    · exact target_core p (by decide)

theorem properties_core {key : String} (h : key ∉ ignorableKeys) :
    (Yield.ofExcept (n.core.get key).elements).flatMap propertySlots =
      ((Yield.ofExcept (n.get key).elements).flatMap propertySlots).map Slot.core := by
  rw [get_core n h, Tree.ofExcept_elements_core, Yield.flatMap_map, Yield.map_flatMap]
  exact Yield.flatMap_congr fun entry _ => propertySlots_core entry

theorem memberSlots_core {f : String × Tree} (h : n.ignores f.1 = annotationKeys.contains f.1) :
    memberSlots (f.1, if n.ignores f.1 then .null else f.2.core) =
      (memberSlots f).map Slot.core := by
  obtain ⟨key, v⟩ := f
  simp only at h
  unfold memberSlots
  simp only [h]
  split
  · rfl
  · next hm =>
    have kept : annotationKeys.contains key = false := by
      rw [← Bool.not_eq_true]
      intro hk
      refine hm ?_
      simp only [annotationKeys, metadataKeys, List.contains_eq_mem, decide_eq_true_eq] at hk ⊢
      exact List.mem_cons_of_mem _ hk
    rw [kept]
    cases v with
    | atom a => simp [Slot.core]
    | arr l vs =>
      simp only [Tree.core, Tree.coreItems_eq, List.map_map, Bool.false_eq_true, if_false]
      rfl
    | obj l fs => simp [Slot.core, Tree.core]

theorem members_core (h : ∀ key, n.ignores key = annotationKeys.contains key) :
    (Yield.ofList (n.core.fields.flatMap memberSlots)) =
      (Yield.ofList (n.fields.flatMap memberSlots)).map Slot.core := by
  have each : n.core.fields.flatMap memberSlots =
      (n.fields.flatMap memberSlots).map Slot.core := by
    rw [core, Tree.coreFields_eq, List.flatMap_map, List.map_flatMap]
    exact List.flatMap_congr fun f _ => memberSlots_core n (h f.1)
  rw [each]
  rfl

theorem slots_core : n.core.slots = n.slots.map Slot.core := by
  unfold slots
  rw [kind_core]
  split
  case h_39 =>
    refine members_core n fun key => ?_
    unfold ignores
    split <;> simp_all
  all_goals
    rename_i hk
    first
    | rfl
    | simp (disch := first | decide | simp [ignores, annotationKeys, hk]) only [plains, targets,
        plain_core, target_core, elements_core, computedKey_core, properties_core,
        Yield.map_append]

theorem events_core (outer : List Node) (target : Bool) :
    n.core.events (outer.map core) target = (n.events outer target).map Event.core := by
  unfold events reports
  rw [kind_core]
  split
  · rfl
  · simp only [Yield.map, Yield.ofList, List.map_map]
    rfl

end Node

/-- A walk through a core makes the same reports on the cores of the nodes. -/
theorem walk_core (outer : List Node) (s : Slot) :
    walk (outer.map Node.core) s.core = (walk outer s).map Event.core := by
  induction s using slot_induction generalizing outer with
  | step s ih =>
    have image : s.core.value.node? = s.value.node?.map Node.core := s.value.node?_core
    cases hn : s.value.node? with
    | none =>
      rw [hn] at image
      rw [walk_of_node?_eq_none hn, walk_of_node?_eq_none image]
      rfl
    | some n =>
      rw [hn] at image
      rw [walk_of_node?_eq_some hn, walk_of_node?_eq_some image, Yield.map_append,
        Yield.map_flatMap, ← Node.events_core, n.slots_core, Yield.flatMap_map]
      congr 1
      exact Yield.flatMap_congr fun c hc => ih n hn c hc (n :: outer)

theorem Tree.events_core (t : Tree) : t.core.events = t.events.map Event.core :=
  walk_core [] ⟨t, false⟩

end LexicalScope
