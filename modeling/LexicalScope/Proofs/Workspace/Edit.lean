import LexicalScope.Proofs.Walk.Place
import LexicalScope.Workspace.Basic

/-! # Edits

Setting a member of the object with a label changes a tree whose labels are distinct at one place:
the new value stands where the old one stood, and every other part is what it was. So the labels of
the new tree and of what it has lost are those of the old tree and of the new value.
-/

namespace LexicalScope

namespace Tree

variable {target : Label} {key : String} {value : Tree}

theorem setMemberItems_eq (vs : List Tree) :
    setMemberItems target key value vs = vs.map (setMember target key value) := by
  induction vs with
  | nil => rfl
  | cons v vs ih => rw [setMemberItems, ih, List.map_cons]

theorem setMemberFields_eq (fs : List (String × Tree)) :
    setMemberFields target key value fs =
      fs.map fun f => (f.1, setMember target key value f.2) := by
  induction fs with
  | nil => rfl
  | cons f fs ih => rw [setMemberFields, ih, List.map_cons]

mutual

theorem setMember_of_not_mem (t : Tree) (h : target ∉ t.labels) :
    setMember target key value t = t := by
  match t with
  | atom a => rfl
  | arr l vs =>
    rw [setMember, setMemberItems_of_not_mem vs fun hm => h (List.mem_cons_of_mem _ hm)]
  | obj l fs =>
    have other : l ≠ target := by
      rintro rfl
      exact h List.mem_cons_self
    rw [setMember, if_neg other,
      setMemberFields_of_not_mem fs fun hm => h (List.mem_cons_of_mem _ hm)]

theorem setMemberItems_of_not_mem (vs : List Tree) (h : target ∉ labelsItems vs) :
    setMemberItems target key value vs = vs := by
  match vs with
  | [] => rfl
  | v :: vs =>
    simp only [labelsItems, List.mem_append, not_or] at h
    rw [setMemberItems, setMember_of_not_mem v h.1, setMemberItems_of_not_mem vs h.2]

theorem setMemberFields_of_not_mem (fs : List (String × Tree)) (h : target ∉ labelsFields fs) :
    setMemberFields target key value fs = fs := by
  match fs with
  | [] => rfl
  | (k, v) :: fs =>
    simp only [labelsFields, List.mem_append, not_or] at h
    rw [setMemberFields, setMember_of_not_mem v h.1, setMemberFields_of_not_mem fs h.2]

end

theorem labelsItems_append (vs ws : List Tree) :
    labelsItems (vs ++ ws) = labelsItems vs ++ labelsItems ws := by
  simp [labelsItems_eq]

theorem labelsFields_append (fs gs : List (String × Tree)) :
    labelsFields (fs ++ gs) = labelsFields fs ++ labelsFields gs := by
  simp [labelsFields_eq]

theorem setMemberItems_middle {vs ws : List Tree} {u : Tree} (hu : target ∈ u.labels)
    (nodup : (labelsItems (vs ++ u :: ws)).Nodup) :
    setMemberItems target key value (vs ++ u :: ws) =
      vs ++ setMember target key value u :: ws := by
  rw [labelsItems_append, labelsItems] at nodup
  obtain ⟨-, inner, apart⟩ := List.nodup_append.mp nodup
  have before : target ∉ labelsItems vs := fun h =>
    apart _ h _ (List.mem_append_left _ hu) rfl
  have after : target ∉ labelsItems ws := fun h => (List.nodup_append.mp inner).2.2 _ hu _ h rfl
  rw [setMemberItems_eq, List.map_append, List.map_cons, ← setMemberItems_eq, ← setMemberItems_eq,
    setMemberItems_of_not_mem vs before, setMemberItems_of_not_mem ws after]

theorem setMemberFields_middle {fs gs : List (String × Tree)} {k : String} {u : Tree}
    (hu : target ∈ u.labels) (nodup : (labelsFields (fs ++ (k, u) :: gs)).Nodup) :
    setMemberFields target key value (fs ++ (k, u) :: gs) =
      fs ++ (k, setMember target key value u) :: gs := by
  rw [labelsFields_append, labelsFields] at nodup
  obtain ⟨-, inner, apart⟩ := List.nodup_append.mp nodup
  have before : target ∉ labelsFields fs := fun h =>
    apart _ h _ (List.mem_append_left _ hu) rfl
  have after : target ∉ labelsFields gs := fun h => (List.nodup_append.mp inner).2.2 _ hu _ h rfl
  rw [setMemberFields_eq, List.map_append, List.map_cons, ← setMemberFields_eq,
    ← setMemberFields_eq, setMemberFields_of_not_mem fs before, setMemberFields_of_not_mem gs after]

theorem lookup_setField (fs : List (String × Tree)) :
    (setField key value fs).lookup key = some value := by
  induction fs with
  | nil => simp [setField]
  | cons f fs ih =>
    obtain ⟨k, v⟩ := f
    unfold setField
    split
    · next h => simp [eq_of_beq h]
    · next h =>
      rw [List.lookup_cons, beq_false_of_ne (Ne.symm (ne_of_beq_false (eq_false_of_ne_true h)))]
      exact ih

theorem labels_setField_perm (fs : List (String × Tree)) :
    (labelsFields (setField key value fs) ++ labelsItems (fs.lookup key).toList).Perm
      (labelsFields fs ++ value.labels) := by
  induction fs with
  | nil => simp [setField, labelsFields, labelsItems]
  | cons f fs ih =>
    obtain ⟨k, v⟩ := f
    unfold setField
    split
    · next h =>
      obtain rfl := eq_of_beq h
      simp only [labelsFields, List.lookup_cons_self, Option.toList_some, labelsItems,
        List.append_nil]
      refine List.perm_append_comm.trans ?_
      rw [List.append_assoc]
      exact List.perm_append_comm.append_left _
    · next h =>
      have other : (key == k) = false :=
        beq_false_of_ne (Ne.symm (ne_of_beq_false (eq_false_of_ne_true h)))
      simp only [labelsFields, List.lookup_cons, other, List.append_assoc]
      exact ih.append_left _

variable {t u : Tree} {parts : List String}

theorem lookup_setMemberFields (k : String) (fs : List (String × Tree)) :
    (setMemberFields target key value fs).lookup k =
      (fs.lookup k).map (setMember target key value) := by
  induction fs with
  | nil => rfl
  | cons f fs ih =>
    rw [setMemberFields, List.lookup_cons, List.lookup_cons, ih]
    split <;> rfl

theorem descend?_arr {l : Label} {vs : List Tree} {part : String} :
    (arr l vs).descend? (part :: parts) = some u ↔
      ∃ i v, part.toNat? = some i ∧ vs[i]? = some v ∧ v.descend? parts = some u := by
  simp [descend?, Option.bind_eq_some_iff]

theorem labels_subset_of_descend? (h : t.descend? parts = some u) : u.labels ⊆ t.labels := by
  induction parts generalizing t with
  | nil =>
    obtain rfl := Option.some.inj h
    exact List.Subset.refl _
  | cons part parts ih =>
    cases t with
    | atom a => cases h
    | arr l vs =>
      obtain ⟨i, v, -, hv, hu⟩ := descend?_arr.mp h
      intro x hx
      refine List.mem_cons_of_mem _ ?_
      rw [labelsItems_eq]
      exact List.mem_flatMap.mpr ⟨v, List.mem_of_getElem? hv, ih hu hx⟩
    | obj l fs =>
      obtain ⟨v, hv, hu⟩ := Option.bind_eq_some_iff.mp h
      intro x hx
      refine List.mem_cons_of_mem _ ?_
      rw [labelsFields_eq]
      obtain ⟨before, after, hfs, -⟩ := List.lookup_eq_some_iff.mp hv
      have hf : (part, v) ∈ fs := hfs ▸ List.mem_append_right _ List.mem_cons_self
      exact List.mem_flatMap.mpr ⟨_, hf, ih hu hx⟩

theorem perm_between {as bs cs ds : List Label} (h : (as ++ bs).Perm (cs ++ ds))
    (before after : List Label) :
    (before ++ (as ++ after) ++ bs).Perm (before ++ (cs ++ after) ++ ds) := by
  have last (xs ys : List Label) : (xs ++ after ++ ys).Perm (xs ++ ys ++ after) := by
    rw [List.append_assoc, List.append_assoc]
    exact List.perm_append_comm.append_left xs
  rw [List.append_assoc before, List.append_assoc before]
  exact ((last as bs).trans ((h.append_right after).trans (last cs ds).symm)).append_left before

theorem descend?_setMember {fs : List (String × Tree)} (nodup : t.labels.Nodup)
    (h : t.descend? parts = some (.obj target fs)) :
    (setMember target key value t).descend? (parts ++ [key]) = some value := by
  induction parts generalizing t with
  | nil =>
    obtain rfl := Option.some.inj h
    rw [setMember, if_pos rfl, List.nil_append, descend?, lookup_setField]
    rfl
  | cons part parts ih =>
    cases t with
    | atom a => cases h
    | arr l vs =>
      obtain ⟨i, v, hi, hv, hu⟩ := descend?_arr.mp h
      refine descend?_arr.mpr ⟨i, setMember target key value v, hi, ?_, ih ?_ hu⟩
      · rw [setMemberItems_eq, List.getElem?_map, hv]
        rfl
      · have inner := (List.nodup_cons.mp nodup).2
        rw [labelsItems_eq] at inner
        exact (List.nodup_flatMap.mp inner).1 v (List.mem_of_getElem? hv)
    | obj l fs' =>
      obtain ⟨v, hv, hu⟩ := Option.bind_eq_some_iff.mp h
      obtain ⟨before, after, hfs, -⟩ := List.lookup_eq_some_iff.mp hv
      have hf : (part, v) ∈ fs' := hfs ▸ List.mem_append_right _ List.mem_cons_self
      obtain ⟨apart, inner⟩ := List.nodup_cons.mp nodup
      rw [labelsFields_eq] at apart inner
      have inside : target ∈ v.labels := labels_subset_of_descend? hu List.mem_cons_self
      have other : l ≠ target := by
        rintro rfl
        exact apart (List.mem_flatMap.mpr ⟨_, hf, inside⟩)
      rw [setMember, if_neg other]
      refine Option.bind_eq_some_iff.mpr ⟨setMember target key value v, ?_, ih ?_ hu⟩
      · rw [lookup_setMemberFields, hv]
        rfl
      · exact (List.nodup_flatMap.mp inner).1 _ hf

/-- An edit exchanges the labels of the old member for those of the new. -/
theorem labels_setMember_perm {fs : List (String × Tree)} (nodup : t.labels.Nodup)
    (h : t.descend? parts = some (.obj target fs)) :
    ((setMember target key value t).labels ++ labelsItems (fs.lookup key).toList).Perm
      (t.labels ++ value.labels) := by
  induction parts generalizing t with
  | nil =>
    obtain rfl := Option.some.inj h
    rw [setMember, if_pos rfl]
    exact (labels_setField_perm fs).cons target
  | cons part parts ih =>
    cases t with
    | atom a => cases h
    | arr l vs =>
      obtain ⟨i, v, -, hv, hu⟩ := descend?_arr.mp h
      obtain ⟨before, after, rfl⟩ := List.append_of_mem (List.mem_of_getElem? hv)
      have inside := labels_subset_of_descend? hu List.mem_cons_self
      have inner := (List.nodup_cons.mp nodup).2
      rw [setMember, setMemberItems_middle inside inner]
      simp only [labels, labelsItems_append, labelsItems] at inner ⊢
      have own := (List.nodup_append.mp (List.nodup_append.mp inner).2.1).1
      exact (perm_between (ih own hu) _ _).cons l
    | obj l fs' =>
      obtain ⟨v, hv, hu⟩ := Option.bind_eq_some_iff.mp h
      obtain ⟨before, after, rfl, -⟩ := List.lookup_eq_some_iff.mp hv
      have inside := labels_subset_of_descend? hu List.mem_cons_self
      obtain ⟨apart, inner⟩ := List.nodup_cons.mp nodup
      have other : l ≠ target := by
        rintro rfl
        rw [labelsFields_append] at apart
        exact apart (List.mem_append_right _ (List.mem_append_left _ inside))
      rw [setMember, if_neg other, setMemberFields_middle inside inner]
      simp only [labels, labelsFields_append, labelsFields] at inner ⊢
      have own := (List.nodup_append.mp (List.nodup_append.mp inner).2.1).1
      exact (perm_between (ih own hu) _ _).cons l

end Tree

end LexicalScope
