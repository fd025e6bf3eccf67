import LexicalScope.Proofs.Workspace.Edit
import LexicalScope.Proofs.Workspace.Growth

/-! # Replaced parts of a tree

Labels tell the containers of a workspace apart, those of its trees and those that edits have
replaced, and every scope belongs to one of them. So what an edit brings in owns no scope until an
operation touches it, while the scopes of what it replaces stay where they are.
-/

namespace LexicalScope.Workspace

variable {w : Workspace} {place : List String} {t : Tree}

def labels (w : Workspace) : List Label :=
  Tree.labelsItems w.trees ++ Tree.labelsItems w.detached

/-- Every container has a label of its own that has been given out, and every scope a container. -/
structure WellLabelled (w : Workspace) : Prop where
  nodup : w.labels.Nodup
  used : ∀ l ∈ w.labels, l < w.next
  owned : ∀ number, ∀ l ∈ (w.table number).owners, l ∈ w.labels

theorem at?_cons {root : String} {i : Nat} (h : root.toNat? = some i) {parts : List String} :
    w.at? (root :: parts) = w.trees[i]?.bind (·.descend? parts) := by
  simp [at?, h]

theorem at?_eq_some (h : w.at? place = some t) :
    ∃ root parts i u, place = root :: parts ∧ root.toNat? = some i ∧ w.trees[i]? = some u ∧
      u.descend? parts = some t := by
  cases place with
  | nil => cases h
  | cons root parts =>
    obtain ⟨i, hi, h⟩ := Option.bind_eq_some_iff.mp h
    obtain ⟨u, hu, h⟩ := Option.bind_eq_some_iff.mp h
    exact ⟨root, parts, i, u, rfl, hi, hu, h⟩

theorem labels_subset_of_at? (h : w.at? place = some t) : t.labels ⊆ w.labels := by
  obtain ⟨root, parts, i, u, -, -, hu, h⟩ := at?_eq_some h
  refine List.Subset.trans (Tree.labels_subset_of_descend? h) fun l hl => ?_
  rw [labels, Tree.labelsItems_eq]
  exact List.mem_append_left _ (List.mem_flatMap.mpr ⟨u, List.mem_of_getElem? hu, hl⟩)

theorem Touches.mem_labels {number : Nat} {owner : Label} {operation : Operation}
    (h : w.Touches number owner operation) : owner ∈ w.labels := by
  have own {u : Tree} (hu : u.label? = some owner) : owner ∈ u.labels := by
    cases u <;> simp_all [Tree.label?, Tree.labels]
  rcases h with ⟨tree, -, made, rfl⟩ | ⟨tree, owned⟩ | ⟨tree, owned⟩
  · exact labels_subset_of_at? tree (Tree.owner_mem_labels made)
  · exact labels_subset_of_at? tree (own owned)
  · exact labels_subset_of_at? tree (own owned)

theorem wellLabelled_ofValues (vs : List Json) : (ofValues vs).WellLabelled := by
  obtain ⟨n, hl, hn⟩ := Json.labels_labelItems 0 vs
  have eq : (ofValues vs).labels = List.range' 0 n := by
    simp [labels, ofValues, hl, Tree.labelsItems]
  refine ⟨eq ▸ List.nodup_range', fun l h => ?_, fun number l h => ?_⟩
  · rw [eq] at h
    simpa [ofValues, hn] using h
  · simp [ofValues, table, ScopeTable.owners, ScopeTable.empty] at h

theorem edits_or_keeps (w : Workspace) (operation : Operation) :
    (∃ place l fs key value, w.at? place = some (.obj l fs) ∧
      operation = .at place (.set key value) ∧
      (w.step operation).1 = w.setMember (.obj l fs) key value) ∨
    (w.step operation).1.labels = w.labels ∧ (w.step operation).1.next = w.next := by
  cases operation with
  | «at» place operation =>
    simp only [step]
    cases ht : w.at? place with
    | none => exact .inr ⟨rfl, rfl⟩
    | some t =>
      cases operation with
      | set key value =>
        cases t with
        | obj l fs => exact .inl ⟨place, l, fs, key, value, ht, rfl, rfl⟩
        | _ => exact .inr ⟨rfl, rfl⟩
      | bind choice table =>
        simp only [perform, bind]
        split <;> exact .inr ⟨rfl, rfl⟩
      | classify table append =>
        simp only [perform, classify]
        split <;> exact .inr ⟨rfl, rfl⟩
      | scopeFor table =>
        simp only [perform]
        split <;> exact .inr ⟨rfl, rfl⟩
      | declare table name =>
        simp only [perform, declare]
        split
        · exact .inr ⟨rfl, rfl⟩
        · split <;> exact .inr ⟨rfl, rfl⟩
      | declares table name =>
        simp only [perform]
        split <;> exact .inr ⟨rfl, rfl⟩
      | _ => exact .inr ⟨rfl, rfl⟩
  | _ => exact .inr ⟨rfl, rfl⟩

theorem setMember_obj (w : Workspace) (l : Label) (fs : List (String × Tree)) (key : String)
    (value : Json) :
    w.setMember (.obj l fs) key value =
      { w with
        trees := Tree.setMemberItems l key (value.labelFrom w.next).1 w.trees
        detached := (fs.lookup key).toList ++ w.detached
        next := (value.labelFrom w.next).2 } := by
  rw [setMember, Tree.setMemberItems_eq]

variable {l : Label} {fs : List (String × Tree)} (key : String) (value : Json)

/-- An edit keeps all labels, of its trees or of what it replaces, and adds those of the value. -/
theorem labels_setMember_perm (nodup : w.labels.Nodup) (h : w.at? place = some (.obj l fs)) :
    (w.setMember (.obj l fs) key value).labels.Perm
      (w.labels ++ (value.labelFrom w.next).1.labels) := by
  obtain ⟨root, parts, i, u, -, -, hu, h⟩ := at?_eq_some h
  obtain ⟨before, after, ht⟩ := List.append_of_mem (List.mem_of_getElem? hu)
  have trees : (Tree.labelsItems (before ++ u :: after)).Nodup :=
    ht ▸ (List.nodup_append.mp nodup).1
  have own : u.labels.Nodup := by
    rw [Tree.labelsItems_append] at trees
    exact (List.nodup_append.mp (List.nodup_append.mp trees).2.1).1
  have inside := Tree.labels_subset_of_descend? h List.mem_cons_self
  have swap (as bs cs : List Label) : (as ++ bs ++ cs).Perm (as ++ cs ++ bs) := by
    rw [List.append_assoc, List.append_assoc]
    exact List.perm_append_comm.append_left as
  rw [setMember_obj, labels, labels, ht, Tree.setMemberItems_middle inside trees]
  simp only [Tree.labelsItems_append, Tree.labelsItems]
  rw [← List.append_assoc]
  refine ((Tree.perm_between (Tree.labels_setMember_perm own h) _ _).append_right _).trans ?_
  exact swap _ _ _

theorem fresh_of_mem_labelFrom (hw : w.WellLabelled) {l : Label}
    (h : l ∈ (value.labelFrom w.next).1.labels) :
    l ∉ w.labels ∧ l < (value.labelFrom w.next).2 := by
  obtain ⟨n, hl, hn⟩ := Json.labels_labelFrom w.next value
  rw [hl] at h
  obtain ⟨low, high⟩ := List.mem_range'_1.mp h
  exact ⟨fun old => Nat.not_lt.mpr low (hw.used l old), hn ▸ high⟩

namespace WellLabelled

theorem setMember (hw : w.WellLabelled) (h : w.at? place = some (.obj l fs)) :
    (w.setMember (.obj l fs) key value).WellLabelled := by
  have perm := labels_setMember_perm key value hw.nodup h
  refine ⟨?_, fun m hm => ?_, fun number m hm => ?_⟩
  · refine perm.nodup_iff.mpr
      (List.nodup_append.mpr ⟨hw.nodup, Json.nodup_labels_labelFrom w.next value, ?_⟩)
    rintro m hm _ hf rfl
    exact (fresh_of_mem_labelFrom value hw hf).1 hm
  · obtain ⟨n, -, hn⟩ := Json.labels_labelFrom w.next value
    rw [setMember_obj]
    rcases List.mem_append.mp (perm.subset hm) with hm | hm
    · exact Nat.lt_of_lt_of_le (hw.used m hm) (hn ▸ Nat.le_add_right _ _)
    · exact (fresh_of_mem_labelFrom value hw hm).2
  · rw [setMember_obj] at hm
    exact perm.symm.subset (List.mem_append_left _ (hw.owned number m hm))

theorem step (hw : w.WellLabelled) (operation : Operation) :
    (w.step operation).1.WellLabelled := by
  rcases w.edits_or_keeps operation with ⟨place, l, fs, key, value, h, -, edit⟩ | ⟨labels, next⟩
  · rw [edit]
    exact hw.setMember key value h
  · refine ⟨labels ▸ hw.nodup, fun l h => ?_, fun number l h => ?_⟩
    · rw [next]
      exact hw.used l (labels ▸ h)
    · rw [labels]
      exact (mem_owners_step.mp h).elim (hw.owned number l) Touches.mem_labels

theorem after (hw : w.WellLabelled) (operations : List Operation) :
    (w.after operations).WellLabelled := by
  induction operations generalizing w with
  | nil => exact hw
  | cons operation operations ih => exact ih (hw.step operation)

end WellLabelled

theorem at?_setMember (nodup : w.labels.Nodup) (h : w.at? place = some (.obj l fs)) :
    (w.setMember (.obj l fs) key value).at? (place ++ [key]) =
      some (value.labelFrom w.next).1 := by
  obtain ⟨root, parts, i, u, rfl, hi, hu, h⟩ := at?_eq_some h
  have own : u.labels.Nodup := by
    have trees := (List.nodup_append.mp nodup).1
    rw [Tree.labelsItems_eq] at trees
    exact (List.nodup_flatMap.mp trees).1 u (List.mem_of_getElem? hu)
  rw [setMember_obj, List.cons_append]
  simp only [at?, hi, Option.bind_eq_bind, Option.bind_some, Tree.setMemberItems_eq,
    List.getElem?_map, hu, Option.map_some]
  exact Tree.descend?_setMember own h

theorem not_mem_trees_of_replaced (hw : w.WellLabelled) (h : w.at? place = some (.obj l fs))
    {old : Tree} (replaced : fs.lookup key = some old) {m : Label} (hm : m ∈ old.labels) :
    m ∉ Tree.labelsItems (w.setMember (.obj l fs) key value).trees := by
  have nodup := (hw.setMember key value h).nodup
  intro inside
  refine (List.nodup_append.mp nodup).2.2 m inside m ?_ rfl
  rw [setMember_obj, replaced]
  exact List.mem_append_left _ hm

/-- Scope tables only grow: what an edit replaces keeps its scopes, and what it brings in owns none
until it is touched. -/
theorem tables_grow_after (vs : List Json) (operations : List Operation) (number : Nat) :
    let w := (ofValues vs).after operations
    w.labels.Nodup ∧ (w.table number).owners.Nodup ∧
      (∀ later, (w.table number).Extends ((w.after later).table number)) ∧
      (∀ operation, operation.written? ≠ some number →
        (w.step operation).1.table number = w.table number) ∧
      (∀ operation owner, owner ∈ ((w.step operation).1.table number).owners ↔
        owner ∈ (w.table number).owners ∨ w.Touches number owner operation) ∧
      (∀ place t x, w.at? place = some t → ∃ b names scope,
        w.step (.at place (.declares number (.atom x))) = (w, .ok (.truth b)) ∧
          w.step (.at place (.localsOf number)) = (w, .ok (.locals names)) ∧
          w.step (.at place (.get number)) = (w, .ok (.scope scope)) ∧
          (b = true ↔ x.Among names) ∧ (b = true ↔ ∃ s, scope = some s ∧ x.Among s.locals)) ∧
      ∀ place l fs key value, w.at? place = some (.obj l fs) →
        let edited := (w.step (.at place (.set key value))).1
        (∃ t, edited.at? (place ++ [key]) = some t ∧ t.erase = value ∧
          ∀ owner ∈ t.labels, ∀ later, owner ∈ ((edited.after later).table number).owners ↔
            ∃ earlier operation rest, later = earlier ++ operation :: rest ∧
              (edited.after earlier).Touches number owner operation) ∧
        ∀ old, fs.lookup key = some old → ∀ owner ∈ old.labels,
          owner ∉ Tree.labelsItems edited.trees ∧
            (owner ∈ (w.table number).owners → ∀ later,
              owner ∈ ((edited.after later).table number).owners) := by
  intro w
  have hw : w.WellLabelled := (wellLabelled_ofValues vs).after operations
  refine ⟨hw.nodup, (w.table number).nodup, fun later => w.extends_after later number,
    fun operation => table_step_of_written?, fun operation owner => mem_owners_step, ?_, ?_⟩
  · intro place t x ht
    simp only [step, ht]
    exact w.lookups_agree number t x
  · intro place l fs key value h edited
    have edit : edited = w.setMember (.obj l fs) key value := by
      simp only [edited, step, h, perform]
    have same : edited.table number = w.table number :=
      table_step_of_written? (by simp [Operation.written?])
    refine ⟨⟨_, edit ▸ at?_setMember key value hw.nodup h, Json.erase_labelFrom _ _, ?_⟩, ?_⟩
    · intro owner new later
      have unowned : owner ∉ (edited.table number).owners := fun owned =>
        (fresh_of_mem_labelFrom value hw new).1 (hw.owned number owner (same ▸ owned))
      rw [mem_owners_after, or_iff_right unowned]
    · intro old replaced owner inside
      refine ⟨edit ▸ not_mem_trees_of_replaced key value hw h replaced inside,
        fun owned later => ?_⟩
      exact (edited.extends_after later number).owners.subset (same ▸ owned)

theorem toNat?_zero : "0".toNat? = some 0 := by
  simp [String.toNat?, String.Slice.toNat?, String.Slice.isNat,
    String.Slice.foldl_eq_foldl_toList, String.Slice.forIn_eq_forIn_toList]

def identityArrow (parameter : String) : Json :=
  let identifier := Json.obj [("type", .str "Identifier"), ("name", .str parameter)]
  .obj [("type", .str "ArrowFunctionExpression"), ("params", .arr [identifier]),
    ("body", identifier)]

/-- After an edit the table holds the scope of the old function only, until the program is bound
again. -/
theorem tables_grow_after_edit :
    let program := Json.obj [("type", .str "Program"), ("body", .arr [identityArrow "x"])]
    let bind := Operation.at ["0"] (.bind (.given ⟨false, false, false⟩) 0)
    let w := (ofValues [program]).after [bind]
    let edited := (w.step (.at ["0"] (.set "body" (.arr [identityArrow "y"])))).1
    (w.table 0).owners = [2] ∧ 2 ∉ Tree.labelsItems edited.trees ∧
      (∀ later, 2 ∈ ((edited.after later).table 0).owners) ∧
      (edited.at? ["0", "body"]).map Tree.labels = some [6, 7, 8, 9, 10] ∧
      7 ∉ (edited.table 0).owners ∧ ((edited.after [bind]).table 0).owners = [2, 7] := by
  intro program bind w edited
  have root (u : Workspace) (parts : List String) :
      u.at? ("0" :: parts) = u.trees[0]?.bind (·.descend? parts) := at?_cons toNat?_zero
  have bound :
      w = ((ofValues [program]).bind program.label (.given ⟨false, false, false⟩) 0).1 := by
    simp only [w, after, step, bind, root]
    rfl
  have there : w.at? ["0"] = some program.label := by
    rw [root, bound]
    rfl
  have edit : edited = w.setMember program.label "body" (.arr [identityArrow "y"]) := by
    simp only [edited, step, there]
    rfl
  have owned : (w.table 0).owners = [2] := by
    rw [bound]
    decide +kernel
  have labels : (edited.at? ["0", "body"]).map Tree.labels = some [6, 7, 8, 9, 10] := by
    rw [root, edit, bound]
    decide +kernel
  have bound_again : ((edited.after [bind]).table 0).owners = [2, 7] := by
    simp only [after, step, bind, root]
    rw [edit, bound]
    decide +kernel
  obtain ⟨-, -, -, -, -, -, edits⟩ := tables_grow_after [program] [bind] 0
  obtain ⟨⟨t, found, -, new⟩, replaced⟩ := edits ["0"] 0 _ "body" (.arr [identityArrow "y"]) there
  obtain ⟨gone, stays⟩ := replaced _ rfl 2 (by decide)
  have fresh : 7 ∈ t.labels := by
    rw [show edited.at? ["0", "body"] = some t from found, Option.map_some] at labels
    rw [Option.some.inj labels]
    decide
  refine ⟨owned, gone, stays (owned ▸ List.mem_singleton_self 2), labels, fun scope => ?_,
    bound_again⟩
  obtain ⟨_, _, _, none, -⟩ := (new 7 fresh []).mp scope
  simp at none

end LexicalScope.Workspace
