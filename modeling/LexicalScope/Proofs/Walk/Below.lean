import LexicalScope.Proofs.Walk.Report

/-! # Walks below further nodes

What a walk does with a slot does not depend on the nodes around it, which only stand at the outer
end of every reported chain.
-/

namespace LexicalScope

namespace Yield

variable {α β γ : Type}

theorem map_append (p q : Yield α) (f : α → β) : (p ++ q).map f = p.map f ++ q.map f := by
  obtain ⟨as, _ | e⟩ := p <;> simp [map]

theorem map_collect (g : α → Yield β) (f : β → γ) (as : List α) :
    (collect g as).map f = collect (fun a => (g a).map f) as := by
  induction as with
  | nil => rfl
  | cons a as ih => rw [collect_cons, map_append, ih, collect_cons]

theorem map_flatMap (p : Yield α) (g : α → Yield β) (f : β → γ) :
    (p.flatMap g).map f = p.flatMap fun a => (g a).map f := by
  rw [flatMap, map_append, map_collect]
  rfl

theorem collect_map (g : α → β) (f : β → Yield γ) (as : List α) :
    collect f (as.map g) = collect (f ∘ g) as := by
  induction as with
  | nil => rfl
  | cons a as ih => rw [List.map_cons, collect_cons, ih, collect_cons, Function.comp_apply]

theorem flatMap_map (p : Yield α) (g : α → β) (f : β → Yield γ) :
    (p.map g).flatMap f = p.flatMap (f ∘ g) := by
  rw [flatMap, flatMap, items_map, collect_map, fault_map]

@[simp]
theorem flatMap_ofList (as : List α) (f : α → Yield β) : (ofList as).flatMap f = collect f as :=
  append_empty _

@[simp]
theorem flatMap_single (a : α) (f : α → Yield β) : (single a).flatMap f = f a := by
  rw [show single a = ofList [a] from rfl, flatMap_ofList, collect_cons, collect_nil, append_empty]

theorem flatMap_append (p q : Yield α) (f : α → Yield β) :
    (p ++ q).flatMap f = p.flatMap f ++ q.flatMap f := by
  obtain ⟨as, _ | e⟩ := p
  · simp only [flatMap, append_mk_none, collect_append, append_assoc, List.nil_append]
  · simp only [flatMap, append_mk_some, append_assoc]

theorem flatMap_collect (g : α → Yield β) (f : β → Yield γ) (as : List α) :
    (collect g as).flatMap f = collect (fun a => (g a).flatMap f) as := by
  induction as with
  | nil => rfl
  | cons a as ih => rw [collect_cons, flatMap_append, ih, collect_cons]

theorem flatMap_congr {f g : α → Yield β} {p : Yield α} (h : ∀ a ∈ p.items, f a = g a) :
    p.flatMap f = p.flatMap g := by
  rw [flatMap, flatMap, collect_congr h]

theorem collect_eq_empty {f : α → Yield β} {as : List α} (h : ∀ a ∈ as, f a = empty) :
    collect f as = empty := by
  induction as with
  | nil => rfl
  | cons a as ih =>
    obtain ⟨ha, hs⟩ := List.forall_mem_cons.mp h
    rw [collect_cons, ha, ih hs, empty_append]

end Yield

namespace Event

/-- A report with further nodes around it. -/
def below (around : List Node) (e : Event) : Event := { e with outer := e.outer ++ around }

variable {around : List Node} {e : Event}

@[simp]
theorem kind_below : (e.below around).kind = e.kind := rfl

@[simp]
theorem node_below : (e.below around).node = e.node := rfl

@[simp]
theorem outer_below : (e.below around).outer = e.outer ++ around := rfl

@[simp]
theorem path_below : (e.below around).path = e.path ++ around := rfl

theorem chain_below (n : Node) : (e.below [n]).chain = n :: e.path.reverse := by
  rw [chain_eq, path_below, List.reverse_append, List.reverse_singleton, List.singleton_append]

theorem below_nil (e : Event) : e.below [] = e := by
  rw [below, List.append_nil]

theorem below_below (e : Event) (around further : List Node) :
    (e.below around).below further = e.below (around ++ further) := by
  simp only [below, List.append_assoc]

end Event

theorem Yield.map_below_below (y : Yield Event) (around further : List Node) :
    (y.map (Event.below around)).map (Event.below further) =
      y.map (Event.below (around ++ further)) := by
  simp only [map, List.map_map, Function.comp_def, Event.below_below]

theorem walk_append (outer around : List Node) (s : Slot) :
    walk (outer ++ around) s = (walk outer s).map (Event.below around) := by
  induction s using slot_induction generalizing outer with
  | step s ih =>
    cases hn : s.value.node? with
    | none =>
      rw [walk_of_node?_eq_none hn, walk_of_node?_eq_none hn]
      rfl
    | some n =>
      rw [walk_of_node?_eq_some hn, walk_of_node?_eq_some hn, Yield.map_append, Yield.map_flatMap]
      have inner : n.slots.flatMap (walk (n :: (outer ++ around))) =
          n.slots.flatMap fun c => (walk (n :: outer) c).map (Event.below around) :=
        Yield.flatMap_congr fun c hc => ih n hn c hc (n :: outer)
      have own : n.events (outer ++ around) s.target =
          (n.events outer s.target).map (Event.below around) := by
        unfold Node.events
        split
        · rfl
        · simp [Yield.map, Yield.ofList, Event.below]
      rw [inner, own]

end LexicalScope
