import LexicalScope.Pattern
import LexicalScope.Proofs.Naming.Tree
import LexicalScope.Proofs.Walk.Member

/-! # Walking a tree with other names

A pattern with other names binds the images of its names, and a walk through a tree with other names
makes the same reports on the images of the nodes.
-/

namespace LexicalScope

variable {φ : NameMap}

namespace Tree

theorem position_mapNames (φ : NameMap) (t : Tree) : (t.mapNames φ).position.map (fun _ => ()) =
    (t.position.map fun _ => ()).mapError (Fault.mapNames φ) := by
  unfold position
  rw [get?_mapNames t (by decide)]
  cases t.get? "loc" with
  | error e => rfl
  | ok location =>
    simp only [bind, Except.bind, Except.map, Except.mapError, truthy_mapNames]
    cases location.truthy with
    | false => rfl
    | true =>
      rw [get?_mapNames location (by decide)]
      cases location.get? "start" with
      | error e => rfl
      | ok start =>
        simp only [Except.map, Except.mapError, truthy_mapNames]
        cases start.truthy with
        | false => rfl
        | true =>
          rw [get?_mapNames start (by decide), get?_mapNames start (by decide)]
          cases start.get? "line" <;> cases start.get? "column" <;> rfl

theorem unsupported_mapNames (t : Tree) :
    (t.mapNames φ).unsupported = t.unsupported.mapNames φ := by
  cases t with
  | obj l fs =>
    have read := position_mapNames φ (obj l fs)
    rw [mapNames] at read ⊢
    unfold unsupported positionSuffix
    simp only
    generalize (obj l fs).position = p, (obj l (mapFields φ fs)).position = p' at read ⊢
    cases p <;> cases p' <;> simp_all [Except.map, Except.mapError, Fault.mapNames, mapNames]
  | _ =>
    rw [mapNames]
    simp [unsupported, positionSuffix, Fault.mapNames, mapNames]

end Tree

namespace Pattern

theorem isIdentifier_mapNames (t : Tree) : isIdentifier (t.mapNames φ) = isIdentifier t := by
  rw [isIdentifier, isIdentifier, Tree.object?_mapNames, Option.any_map]
  simp

theorem isHole_mapNames (t : Tree) : isHole (t.mapNames φ) = isHole t := by
  cases t <;> simp [Tree.mapNames, isHole]

theorem entryTarget_mapNames (entry : Tree) : entryTarget (entry.mapNames φ) =
    (entryTarget entry).bimap (Tree.mapNames φ) (Fault.mapNames φ) := by
  unfold entryTarget
  rw [← Yield.ofExcept_bimap, Tree.get?_mapNames entry (by decide),
    Tree.get?_mapNames entry (by decide)]
  congr 1
  cases entry.get? "value" with
  | error e => rfl
  | ok v =>
    simp only [bind, Except.bind, Except.map, Except.mapError, Tree.truthy_mapNames]
    split
    · rfl
    · cases entry.get? "argument" <;> rfl

theorem parts?_mapNames (φ : NameMap) (t : Tree) : parts? (t.mapNames φ) =
    (parts? t).map (Yield.bimap (Tree.mapNames φ) (Fault.mapNames φ)) := by
  unfold parts?
  rw [Tree.object?_mapNames]
  cases t.object? with
  | none => rfl
  | some n =>
    simp only [Option.map_some, Option.bind_eq_bind, Option.bind_some, Node.kind_mapNames]
    split
    · rw [n.get_mapNames (by decide), Tree.ofExcept_elements_mapNames, Option.map_some,
        Yield.flatMap_bimap fun entry _ => entryTarget_mapNames entry]
    · rw [n.get_mapNames (by decide), Tree.elements_mapNames, Option.map_some,
        ← Yield.ofExcept_bimap]
      cases (n.get "elements").elements with
      | error e => rfl
      | ok vs =>
        simp [Except.map, Except.mapError, List.filter_map, Function.comp_def, isHole_mapNames]
    · rw [n.get_mapNames (by decide)]
      rfl
    · rw [n.get_mapNames (by decide)]
      rfl
    · rfl

theorem names_mapNames (t : Tree) : names (t.mapNames φ) =
    (names t).bimap (φ.member "name") (Fault.mapNames φ) := by
  induction hk : t.height using Nat.strongRecOn generalizing t with
  | ind k ih =>
    cases hi : isIdentifier t with
    | true =>
      rw [names_of_isIdentifier hi, names_of_isIdentifier ((isIdentifier_mapNames t).trans hi),
        Tree.ofExcept_name_mapNames]
    | false =>
      have hi' : isIdentifier (t.mapNames φ) = false := (isIdentifier_mapNames t).trans hi
      have parts := parts?_mapNames φ t
      cases hp : parts? t with
      | none =>
        rw [hp] at parts
        rw [names_of_unsupported hi hp, names_of_unsupported hi' parts, Tree.unsupported_mapNames]
        rfl
      | some ps =>
        rw [hp] at parts
        rw [names_of_parts hi hp, names_of_parts hi' parts]
        apply Yield.flatMap_bimap
        intro u hu
        exact ih u.height (hk ▸ height_of_mem_parts hp hu) u rfl

end Pattern

def Slot.mapNames (φ : NameMap) (s : Slot) : Slot := ⟨s.value.mapNames φ, s.target⟩

def Event.mapNames (φ : NameMap) (e : Event) : Event :=
  ⟨e.kind, e.node.mapNames φ, e.outer.map (Node.mapNames φ)⟩

namespace Node

variable (n : Node)

theorem plain_mapNames {key : String} (h : key ≠ "name") : (n.mapNames φ).plain key =
    (n.plain key).bimap (Slot.mapNames φ) (Fault.mapNames φ) := by
  rw [plain, get_mapNames n h]
  rfl

theorem target_mapNames {key : String} (h : key ≠ "name") : (n.mapNames φ).target key =
    (n.target key).bimap (Slot.mapNames φ) (Fault.mapNames φ) := by
  rw [target, get_mapNames n h]
  rfl

theorem elements_mapNames {key : String} (h : key ≠ "name") (target : Bool) :
    (Yield.ofExcept ((n.mapNames φ).get key).elements).map (⟨·, target⟩) =
      ((Yield.ofExcept (n.get key).elements).map (⟨·, target⟩)).bimap (Slot.mapNames φ)
        (Fault.mapNames φ) := by
  rw [get_mapNames n h, Tree.ofExcept_elements_mapNames]
  exact Yield.map_bimap fun v => rfl

theorem computedKey_mapNames {key : String} (h : key ≠ "name") : (n.mapNames φ).computedKey key =
    (n.computedKey key).bimap (Slot.mapNames φ) (Fault.mapNames φ) := by
  unfold computedKey
  rw [get_mapNames n (by decide), Tree.truthy_mapNames]
  split
  · exact n.plain_mapNames h
  · rfl

theorem propertySlots_mapNames (entry : Tree) : propertySlots (entry.mapNames φ) =
    (propertySlots entry).bimap (Slot.mapNames φ) (Fault.mapNames φ) := by
  unfold propertySlots
  rw [Tree.node?_mapNames]
  cases entry.node? with
  | none => rfl
  | some p =>
    simp only [Option.map_some, kind_mapNames]
    split
    · rw [computedKey_mapNames p (by decide), target_mapNames p (by decide), Yield.bimap_append]
    · exact target_mapNames p (by decide)

theorem properties_mapNames {key : String} (h : key ≠ "name") :
    (Yield.ofExcept ((n.mapNames φ).get key).elements).flatMap propertySlots =
      ((Yield.ofExcept (n.get key).elements).flatMap propertySlots).bimap (Slot.mapNames φ)
        (Fault.mapNames φ) := by
  rw [get_mapNames n h, Tree.ofExcept_elements_mapNames]
  exact Yield.flatMap_bimap fun entry _ => propertySlots_mapNames entry

theorem slots_mapNames (φ : NameMap) : n.HasMemberSlots ∧ (n.mapNames φ).HasMemberSlots ∨
    (n.mapNames φ).slots = n.slots.bimap (Slot.mapNames φ) (Fault.mapNames φ) := by
  unfold HasMemberSlots slots
  rw [kind_mapNames]
  split
  all_goals
    first
    | exact .inl ⟨rfl, rfl⟩
    | right
      simp (disch := decide) only [plains, targets, plain_mapNames, target_mapNames,
        elements_mapNames, computedKey_mapNames, properties_mapNames, Yield.bimap_append,
        Yield.bimap_empty]

theorem memberSlots_mapNames (φ : NameMap) (f : String × Tree) :
    memberSlots (f.1, φ.member f.1 f.2) = (memberSlots f).map (Slot.mapNames φ) ∨
      ∃ a b, memberSlots f = [⟨.atom a, false⟩] ∧
        memberSlots (f.1, φ.member f.1 f.2) = [⟨.atom b, false⟩] := by
  obtain ⟨key, v⟩ := f
  unfold memberSlots
  simp only
  split
  · exact .inl rfl
  · cases v with
    | atom a =>
      obtain ⟨b, hb⟩ := Tree.member_atom φ key a
      exact .inr ⟨a, b, rfl, by rw [hb]⟩
    | arr l vs =>
      left
      rw [Tree.member_arr]
      simp only [List.map_map]
      rfl
    | obj l fs =>
      left
      rw [Tree.member_obj]
      simp only [List.map_cons, List.map_nil, Slot.mapNames, Tree.mapNames]

theorem collect_members_mapNames {outer outer' : List Node} {fs : List (String × Tree)}
    (each : ∀ s ∈ fs.flatMap memberSlots,
      walk outer' (s.mapNames φ) = (walk outer s).bimap (Event.mapNames φ) (Fault.mapNames φ)) :
    Yield.collect (walk outer') ((Tree.mapFields φ fs).flatMap memberSlots) =
      (Yield.collect (walk outer) (fs.flatMap memberSlots)).bimap (Event.mapNames φ)
        (Fault.mapNames φ) := by
  rw [Tree.mapFields_eq]
  induction fs with
  | nil => rfl
  | cons f fs ih =>
    rw [List.flatMap_cons, List.forall_mem_append] at each
    rw [List.map_cons, List.flatMap_cons, List.flatMap_cons, Yield.collect_append,
      Yield.collect_append, Yield.bimap_append, ih each.2]
    congr 1
    rcases memberSlots_mapNames φ f with images | ⟨a, b, before, after⟩
    · rw [images, Yield.collect_map, Yield.bimap_collect]
      exact Yield.collect_congr each.1
    -- a name that is a text may change in its slot, but no walk enters a text
    · have atom (ns : List Node) (c : Atom) : walk ns ⟨.atom c, false⟩ = .empty :=
        walk_of_node?_eq_none rfl
      rw [before, after]
      simp [atom]

theorem flatMap_slots_mapNames {outer outer' : List Node} (each : ∀ s ∈ n.slots.items,
      walk outer' (s.mapNames φ) = (walk outer s).bimap (Event.mapNames φ) (Fault.mapNames φ)) :
    (n.mapNames φ).slots.flatMap (walk outer') =
      (n.slots.flatMap (walk outer)).bimap (Event.mapNames φ) (Fault.mapNames φ) := by
  rcases n.slots_mapNames φ with ⟨members, members'⟩ | slots
  · rw [HasMemberSlots] at members members'
    rw [members] at each ⊢
    rw [members', Yield.flatMap_ofList, Yield.flatMap_ofList]
    exact collect_members_mapNames each
  · rw [slots, Yield.flatMap_bimap each]

theorem events_mapNames (outer : List Node) (target : Bool) :
    (n.mapNames φ).events (outer.map (Node.mapNames φ)) target =
      (n.events outer target).bimap (Event.mapNames φ) (Fault.mapNames φ) := by
  unfold events reports
  rw [kind_mapNames]
  split
  · rfl
  · rw [Yield.bimap_ofList, List.map_map]
    rfl

end Node

/-- A walk through a tree with other names makes the same reports on the images of the nodes. -/
theorem walk_mapNames (outer : List Node) (s : Slot) :
    walk (outer.map (Node.mapNames φ)) (s.mapNames φ) =
      (walk outer s).bimap (Event.mapNames φ) (Fault.mapNames φ) := by
  induction s using slot_induction generalizing outer with
  | step s ih =>
    have image : (s.mapNames φ).value.node? = s.value.node?.map (Node.mapNames φ) :=
      s.value.node?_mapNames
    cases hn : s.value.node? with
    | none =>
      rw [hn] at image
      rw [walk_of_node?_eq_none hn, walk_of_node?_eq_none image]
      rfl
    | some n =>
      rw [hn] at image
      rw [walk_of_node?_eq_some hn, walk_of_node?_eq_some image, Yield.bimap_append,
        ← Node.events_mapNames]
      congr 1
      apply Node.flatMap_slots_mapNames
      intro c hc
      exact ih n hn c hc (n :: outer)

theorem Tree.events_mapNames (t : Tree) :
    (t.mapNames φ).events = t.events.bimap (Event.mapNames φ) (Fault.mapNames φ) :=
  walk_mapNames [] ⟨t, false⟩

end LexicalScope
