import LexicalScope.Tree.Pointer

/-! # Pointers of what lies below

The pointers below a tree are those below it on its own, after the pointer of the tree. What lies
below an item of a list or a member of an object has the index or the key first.
-/

namespace LexicalScope.Tree

def moved (above : Pointer) (place : Label × Pointer × Tree) : Label × Pointer × Tree :=
  (place.1, above ++ place.2.1, place.2.2)

theorem moved_moved (p q : Pointer) (place : Label × Pointer × Tree) :
    moved p (moved q place) = moved (p ++ q) place := by
  simp [moved]

mutual

theorem places_eq (above : List Step) (t : Tree) :
    t.places above = (t.places []).map (moved above.reverse) := by
  match t with
  | .atom _ => rfl
  | .arr l vs =>
    simp only [places, List.map_cons]
    rw [placesItems_eq above 0 vs]
    simp [moved]
  | .obj l fs =>
    simp only [places, List.map_cons]
    rw [placesFields_eq above fs]
    simp [moved]

theorem placesItems_eq (above : List Step) (i : Nat) (vs : List Tree) :
    placesItems above i vs = (placesItems [] i vs).map (moved above.reverse) := by
  match vs with
  | [] => rfl
  | v :: vs =>
    rw [placesItems, placesItems, List.map_append, places_eq (.index i :: above) v,
      places_eq [.index i] v, placesItems_eq above (i + 1) vs, List.map_map]
    simp [Function.comp_def, moved_moved]

theorem placesFields_eq (above : List Step) (fs : List (String × Tree)) :
    placesFields above fs = (placesFields [] fs).map (moved above.reverse) := by
  match fs with
  | [] => rfl
  | (k, v) :: fs =>
    rw [placesFields, placesFields, List.map_append, places_eq (.key k :: above) v,
      places_eq [.key k] v, placesFields_eq above fs, List.map_map]
    simp [Function.comp_def, moved_moved]

end

theorem mem_placesItems {l : Label} {q : Pointer} {u : Tree} {i : Nat} {vs : List Tree} :
    (l, q, u) ∈ placesItems [] i vs ↔
      ∃ j v, vs[j]? = some v ∧ ∃ r, q = .index (i + j) :: r ∧ (l, r, u) ∈ v.places [] := by
  induction vs generalizing i with
  | nil => simp [placesItems]
  | cons v vs ih =>
    rw [placesItems, List.mem_append, ih, places_eq]
    have own : (l, q, u) ∈ (v.places []).map (moved [Step.index i]) ↔
        ∃ r, q = .index i :: r ∧ (l, r, u) ∈ v.places [] := by
      simp only [List.mem_map, moved, Prod.mk.injEq]
      constructor
      · rintro ⟨⟨m, r, w⟩, hm, rfl, rfl, rfl⟩
        exact ⟨r, rfl, hm⟩
      · rintro ⟨r, rfl, hm⟩
        exact ⟨_, hm, rfl, rfl, rfl⟩
    rw [List.reverse_singleton, own]
    constructor
    · rintro (⟨r, hq, hm⟩ | ⟨j, w, hj, r, hq, hm⟩)
      · exact ⟨0, v, rfl, r, hq, hm⟩
      · exact ⟨j + 1, w, by simpa using hj, r, by rw [hq, Nat.add_right_comm, Nat.add_assoc], hm⟩
    · rintro ⟨_ | j, w, hj, r, hq, hm⟩
      · obtain rfl : v = w := by simpa using hj
        exact .inl ⟨r, hq, hm⟩
      · exact .inr ⟨j, w, by simpa using hj, r, by rw [hq, Nat.add_right_comm, Nat.add_assoc], hm⟩

theorem mem_placesFields {l : Label} {q : Pointer} {u : Tree} {fs : List (String × Tree)} :
    (l, q, u) ∈ placesFields [] fs ↔
      ∃ f ∈ fs, ∃ r, q = .key f.1 :: r ∧ (l, r, u) ∈ f.2.places [] := by
  induction fs with
  | nil => simp [placesFields]
  | cons f fs ih =>
    obtain ⟨k, v⟩ := f
    rw [placesFields, List.mem_append, ih, places_eq]
    simp only [List.mem_map, moved, Prod.mk.injEq, List.mem_cons, exists_eq_or_imp]
    refine or_congr_left ⟨?_, ?_⟩
    · rintro ⟨⟨m, r, w⟩, hm, rfl, rfl, rfl⟩
      exact ⟨r, rfl, hm⟩
    · rintro ⟨r, rfl, hm⟩
      exact ⟨_, hm, rfl, rfl, rfl⟩

end LexicalScope.Tree
