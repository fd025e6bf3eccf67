import LexicalScope.Pattern
import LexicalScope.Proofs.Reference.Alike
import LexicalScope.Proofs.Renaming.Rename
import LexicalScope.Proofs.Walk.Function

/-! # Walking a renamed tree

A walk through a renamed tree gives the same reports in the same order, with the renamed nodes. A
report lies inside if it is below the parameters or the body of the function; a report below the
function that does not is one of the walk through the name of the function.
-/

namespace LexicalScope

namespace Pattern

variable {ρ : Renaming} {inside : Bool}

theorem isIdentifier_rename (t : Tree) : isIdentifier (t.rename ρ inside) = isIdentifier t := by
  rw [isIdentifier, isIdentifier, Tree.object?_rename, Option.any_map]
  simp

theorem isHole_rename (t : Tree) : isHole (t.rename ρ inside) = isHole t := by
  cases t <;> simp [Tree.rename, isHole]

theorem entryTarget_rename (entry : Tree) :
    entryTarget (entry.rename ρ inside) = (entryTarget entry).map (Tree.rename ρ inside) := by
  unfold entryTarget
  rw [Tree.get?_rename _ (by decide), Tree.get?_rename _ (by decide)]
  cases entry.get? "value" with
  | error e => rfl
  | ok v =>
    simp only [bind, Except.bind, Except.map, Tree.truthy_rename]
    split
    · rfl
    · cases entry.get? "argument" <;> rfl

theorem parts?_rename {t : Tree} {ps : Yield Tree} (h : parts? t = some ps) :
    ∃ ps', parts? (t.rename ρ inside) = some ps' ∧
      ps.Follows (fun v v' => v' = v.rename ρ inside) ps' := by
  unfold parts? at h ⊢
  rw [Tree.object?_rename]
  cases hn : t.object? with
  | none => simp [hn] at h
  | some n =>
    have member {key : String} (hk : Plain key) :
        (n.rename ρ inside).get key = (n.get key).rename ρ inside := n.get_rename_plain hk
    simp only [hn, Option.map_some, Option.bind_eq_bind, Option.bind_some, Node.kind_rename] at h ⊢
    split at h
    · obtain rfl := Option.some.inj h
      refine ⟨_, rfl, ?_⟩
      rw [member (by decide)]
      refine (Tree.follows_elements _).flatMap ?_
      rintro entry - _ rfl
      rw [entryTarget_rename]
      exact Yield.follows_map _ _
    · obtain rfl := Option.some.inj h
      refine ⟨_, rfl, ?_⟩
      rw [member (by decide), Tree.elements_rename]
      cases (n.get "elements").elements with
      | error e => exact Yield.follows_fail
      | ok vs =>
        have holes : (vs.map (Tree.rename ρ inside)).filter (!isHole ·) =
            (vs.filter (!isHole ·)).map (Tree.rename ρ inside) := by
          simp [List.filter_map, Function.comp_def, isHole_rename]
        simp only [Except.map, holes]
        exact Yield.follows_map (.ofList _) _
    · obtain rfl := Option.some.inj h
      exact ⟨_, rfl, Yield.follows_single (member (by decide))⟩
    · obtain rfl := Option.some.inj h
      exact ⟨_, rfl, Yield.follows_single (member (by decide))⟩
    · cases h

theorem follows_names (ρ : Renaming) (inside : Bool) (t : Tree) : (names t).Follows
    (fun v v' => v' = ρ.name inside (v.rename ρ inside)) (names (t.rename ρ inside)) := by
  induction hk : t.height using Nat.strongRecOn generalizing t with
  | ind k ih =>
    cases hi : isIdentifier t with
    | true =>
      rw [names_of_isIdentifier hi, names_of_isIdentifier ((isIdentifier_rename t).trans hi),
        Tree.field_name_rename]
      cases t.field "name" with
      | error e => exact Yield.follows_fail
      | ok v => exact Yield.follows_single rfl
    | false =>
      cases hp : parts? t with
      | none =>
        rw [names_of_unsupported hi hp]
        exact Yield.follows_fail
      | some ps =>
        obtain ⟨ps', hp', hf⟩ : ∃ ps', parts? (t.rename ρ inside) = some ps' ∧
            ps.Follows (fun v v' => v' = v.rename ρ inside) ps' := parts?_rename hp
        rw [names_of_parts hi hp, names_of_parts ((isIdentifier_rename t).trans hi) hp']
        refine hf.flatMap ?_
        rintro u hu _ rfl
        exact ih u.height (hk ▸ height_of_mem_parts hp hu) u rfl

end Pattern

namespace Node

variable {ρ : Renaming} {inside : Bool}

def Renamed (ρ : Renaming) (n n' : Node) : Prop := ∃ inside, n' = n.rename ρ inside

theorem Renamed.alike {n n' : Node} (h : Renamed ρ n n') : n.Alike n' := by
  obtain ⟨inside, rfl⟩ := h
  refine ⟨rfl, kind_rename n, fun _ => ?_⟩
  rw [n.get_rename_plain (by decide), Tree.label?_rename]

theorem reports_rename (n : Node) (target : Bool) :
    (n.rename ρ inside).reports target = n.reports target := by
  unfold reports
  rw [kind_rename]

/-- The name of the function stays outside, its parameters and body do not. -/
theorem follows_slots_function {n : Node} (hl : n.label = ρ.function)
    (hk : n.kind.isFunction = true) :
    n.slots.Follows (fun c c' => c = ⟨n.get "id", true⟩ ∧ Slot.Renamed ρ inside c c' ∨
      Slot.Renamed ρ true c c') (n.rename ρ inside).slots := by
  have enters {key : String} (h : key = "params" ∨ key = "body") :
      ρ.enters inside n.label key = true := by
    rcases h with rfl | rfl <;> simp [Renaming.enters, hl]
  rw [slots_of_isFunction hk, slots_of_isFunction ((congrArg _ (kind_rename n)).trans hk)]
  refine Yield.Follows.append (Yield.Follows.append ?id ?params) ?body
  case id =>
    apply (keeps_target (by decide) (enters_plain (by decide))).mono
    intro c hc c' h
    exact .inl ⟨List.mem_singleton.mp hc, h⟩
  case params =>
    apply (keeps_elements (by decide) (enters (.inl rfl)) true).mono
    intro c _ c' h
    exact .inr h
  case body =>
    apply (keeps_plain (by decide) (enters (.inr rfl))).mono
    intro c _ c' h
    exact .inr h

end Node

/-- A report of a walk and the one that stands for it after the renaming of a function. -/
structure Event.Renamed (ρ : Renaming) (function : Node) (around : List Node) (inside : Bool)
    (e e' : Event) : Prop where
  kind : e'.kind = e.kind
  node : e'.node = e.node.rename ρ inside
  outer : List.Forall₂ (Node.Renamed ρ) e.outer e'.outer
  within : inside = true → function ∈ e.outer
  beyond : inside = false → function ∉ e.outer ∨
    e ∈ (walk (function :: around) ⟨function.get "id", true⟩).items

/-- How a slot stands to a renamed function, with the nodes around it before and after. -/
structure Slot.Stands (ρ : Renaming) (function : Node) (around : List Node) (inside : Bool)
    (outer outer' : List Node) (s : Slot) : Prop where
  ends : (walk outer s).fault = none
  unique : ∀ n ns, Visits outer s n ns → n.label = ρ.function → n = function ∧ ns = around
  renamed : List.Forall₂ (Node.Renamed ρ) outer outer'
  within : inside = true → function ∈ outer
  beyond : inside = false → function ∉ outer ∨
    ∀ e ∈ (walk outer s).items, e ∈ (walk (function :: around) ⟨function.get "id", true⟩).items

section

variable {ρ : Renaming} {function n : Node} {around outer outer' : List Node} {s s' c : Slot}
  {inside : Bool}

namespace Slot.Stands

theorem eq_function (h : s.Stands ρ function around inside outer outer')
    (hn : s.value.node? = some n) (hl : n.label = ρ.function) : n = function ∧ outer = around :=
  h.unique n outer ((Visits.iff hn h.ends).mpr (.inr ⟨rfl, rfl⟩)) hl

theorem follows_events (h : s.Stands ρ function around inside outer outer')
    (hn : s.value.node? = some n) :
    (n.events outer s.target).Follows (fun e e' => ∃ inside, e.Renamed ρ function around inside e')
      ((n.rename ρ inside).events outer' s.target) := by
  unfold Node.events
  rw [Node.kind_rename, Node.reports_rename]
  split
  · exact Yield.follows_fail
  · apply Yield.follows_ofList
    rw [List.forall₂_map_left_iff, List.forall₂_map_right_iff]
    apply List.forall₂_same.mpr
    intro k hr
    refine ⟨inside, rfl, rfl, h.renamed, h.within, fun outside => ?_⟩
    exact (h.beyond outside).imp_right fun own =>
      own _ ((mem_walk_iff hn h.ends).mpr (.inr ⟨hr, rfl, rfl⟩))

/-- What a slot of a node has from the slot of the node itself. -/
theorem slot (h : s.Stands ρ function around inside outer outer') (hn : s.value.node? = some n)
    (hc : c ∈ n.slots.items) {inner : Bool} (within : inner = true → function ∈ n :: outer)
    (beyond : inner = false → function ∉ n :: outer ∨ ∀ e ∈ (walk (n :: outer) c).items,
      e ∈ (walk (function :: around) ⟨function.get "id", true⟩).items) :
    c.Stands ρ function around inner (n :: outer) (n.rename ρ inside :: outer') where
  ends := ((fault_walk hn).mp h.ends).2.2 c hc
  unique m ns hm := h.unique m ns ((Visits.iff hn h.ends).mpr (.inl ⟨c, hc, hm⟩))
  renamed := .cons ⟨inside, rfl⟩ h.renamed
  within := within
  beyond := beyond

theorem slot_of_ne (h : s.Stands ρ function around inside outer outer')
    (hl : function.label = ρ.function) (hn : s.value.node? = some n) (hc : c ∈ n.slots.items)
    (other : n.label ≠ ρ.function) :
    c.Stands ρ function around inside (n :: outer) (n.rename ρ inside :: outer') := by
  refine h.slot hn hc (fun hi => List.mem_cons_of_mem _ (h.within hi)) fun hi => ?_
  refine (h.beyond hi).imp (fun none hm => ?_) fun own e he => ?_
  · rcases List.mem_cons.mp hm with rfl | hm
    · exact other hl
    · exact none hm
  · exact own e ((mem_walk_iff hn h.ends).mpr (.inl ⟨c, hc, he⟩))

theorem slot_id (h : s.Stands ρ function around inside around outer')
    (hn : s.value.node? = some function)
    (hc : ⟨function.get "id", true⟩ ∈ function.slots.items) :
    Slot.Stands ρ function around inside (function :: around)
      (function.rename ρ inside :: outer') ⟨function.get "id", true⟩ :=
  h.slot hn hc (fun _ => List.mem_cons_self) fun _ => .inr fun _ he => he

theorem slot_inside (h : s.Stands ρ function around inside around outer')
    (hn : s.value.node? = some function) (hc : c ∈ function.slots.items) :
    c.Stands ρ function around true (function :: around) (function.rename ρ inside :: outer') :=
  h.slot hn hc (fun _ => List.mem_cons_self) (by simp)

end Slot.Stands

/-- Walks through what stands in a slot before and after a renaming give the same reports. -/
theorem follows_walk (hl : function.label = ρ.function) (hk : function.kind.isFunction = true)
    (hs : s.Renamed ρ inside s') (h : s.Stands ρ function around inside outer outer') :
    (walk outer s).Follows (fun e e' => ∃ inside, e.Renamed ρ function around inside e')
      (walk outer' s') := by
  induction s using slot_induction generalizing s' outer outer' inside with
  | step s ih =>
    obtain ⟨hv, ht⟩ := hs
    cases hn : s.value.node? with
    | none =>
      rw [hn] at hv
      rw [walk_of_node?_eq_none hn, walk_of_node?_eq_none hv]
      exact Yield.follows_empty
    | some n =>
      rw [hn, Option.map_some] at hv
      rw [walk_of_node?_eq_some hn, walk_of_node?_eq_some hv, ht]
      refine Yield.Follows.append ?slots (h.follows_events hn)
      by_cases own : n.label = ρ.function
      · obtain ⟨rfl, rfl⟩ := h.eq_function hn own
        refine (Node.follows_slots_function hl hk).flatMap ?_
        rintro c hc c' (⟨rfl, hr⟩ | hr)
        · exact ih _ hn _ hc hr (h.slot_id hn hc)
        · exact ih _ hn c hc hr (h.slot_inside hn hc)
      · refine (Node.keeps_slots own).flatMap fun c hc c' hr => ?_
        exact ih n hn c hc hr (h.slot_of_ne hl hn hc own)

end

end LexicalScope
