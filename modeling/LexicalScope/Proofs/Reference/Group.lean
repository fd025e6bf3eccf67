import LexicalScope.Proofs.Reference.Exactness
import LexicalScope.Reference.Group

/-! # Grouping by name

Groups depend on the members of a list only through their names, so a change of the members that
keeps their names changes the groups member by member. References at the same places make the same
groups.
-/

namespace LexicalScope

variable {α β : Type}

namespace NameGroup

def map (f : α → β) (g : NameGroup α) : NameGroup β := ⟨g.name, g.members.map f⟩

end NameGroup

namespace Grouping

theorem map_add (f : α → β) (name : Atom) (a : α) (gs : List (NameGroup α)) :
    (add name a gs).map (NameGroup.map f) = add name (f a) (gs.map (NameGroup.map f)) := by
  induction gs with
  | nil => rfl
  | cons g gs ih =>
    by_cases hk : (g.key == name.key) = true
    · have hm : ((g.map f).key == name.key) = true := hk
      rw [add, if_pos hk, List.map_cons, List.map_cons, add, if_pos hm]
      simp [NameGroup.map]
    · have hm : ¬ ((g.map f).key == name.key) = true := hk
      rw [add, if_neg hk, List.map_cons, List.map_cons, add, if_neg hm, ih]

theorem addAll_map (f : α → β) (name : β → Tree) (gs : List (NameGroup α)) (as : List α) :
    addAll name (gs.map (NameGroup.map f)) (as.map f) =
      (addAll (name ∘ f) gs as).map (List.map (NameGroup.map f)) := by
  induction as generalizing gs with
  | nil => rfl
  | cons a as ih =>
    simp only [List.map_cons, addAll, Function.comp_apply, bind, Except.bind]
    cases (name (f a)).asName with
    | error e => rfl
    | ok x =>
      simp only
      rw [← map_add, ih]

theorem exists_atom_of_addAll {name : α → Tree} {gs gs' : List (NameGroup α)} {as : List α}
    (h : addAll name gs as = .ok gs') : ∀ a ∈ as, ∃ x, name a = .atom x := by
  induction as generalizing gs with
  | nil => simp
  | cons a as ih =>
    cases hn : name a with
    | atom x =>
      simp only [addAll, hn, Tree.asName, bind, Except.bind] at h
      exact List.forall_mem_cons.mpr ⟨⟨x, hn⟩, ih h⟩
    | arr l vs => simp [addAll, hn, Tree.asName, bind, Except.bind] at h
    | obj l fs => simp [addAll, hn, Tree.asName, bind, Except.bind] at h

end Grouping

theorem Key.sortBy_map (f : α → β) (gs : List (NameGroup α)) :
    sortBy NameGroup.key (gs.map (NameGroup.map f)) =
      (sortBy NameGroup.key gs).map (List.map (NameGroup.map f)) := by
  unfold sortBy
  rw [List.map_map, show NameGroup.key ∘ NameGroup.map f = NameGroup.key from rfl]
  split
  · refine congrArg _ (Eq.symm ?_)
    exact List.map_mergeSort fun g _ k _ => rfl
  · rfl

theorem groupByName_map (f : α → β) (name : β → Tree) (as : List α) :
    groupByName name (as.map f) =
      (groupByName (name ∘ f) as).map (List.map (NameGroup.map f)) := by
  have added := Grouping.addAll_map f name [] as
  simp only [groupByName, List.map_nil, bind, Except.bind] at added ⊢
  rw [added]
  cases Grouping.addAll (name ∘ f) [] as with
  | error e => rfl
  | ok gs => exact Key.sortBy_map f gs

theorem exists_atom_of_groupReferences {rs : List FreeReference} {gs : List FreeVariable}
    (h : groupReferences rs = .ok gs) : ∀ r ∈ rs, ∃ x, r.name = .atom x := by
  unfold groupReferences groupByName at h
  cases ha : Grouping.addAll FreeReference.name [] rs with
  | error e => simp [ha, bind, Except.bind] at h
  | ok gs' => exact Grouping.exists_atom_of_addAll ha

/-- Free variables as they are seen from outside: names, places and the places around. -/
def FreeVariable.places (gs : List FreeVariable) :
    List (NameGroup (Tree × Option Label × List (Option Label))) :=
  gs.map (NameGroup.map FreeReference.place)

theorem groupReferences_of_places {rs rs' : List FreeReference} {gs : List FreeVariable}
    (places : rs'.map FreeReference.place = rs.map FreeReference.place)
    (hg : groupReferences rs = .ok gs) :
    ∃ gs', groupReferences rs' = .ok gs' ∧ FreeVariable.places gs' = FreeVariable.places gs := by
  have group (rs : List FreeReference) : groupByName Prod.fst (rs.map FreeReference.place) =
      (groupReferences rs).map FreeVariable.places :=
    groupByName_map FreeReference.place Prod.fst rs
  have same := (group rs').symm.trans ((congrArg _ places).trans (group rs))
  rw [hg] at same
  cases hg' : groupReferences rs' with
  | error e => simp [hg', Except.map] at same
  | ok gs' =>
    rw [hg'] at same
    exact ⟨gs', rfl, Except.ok.inj same⟩

end LexicalScope
