import Mathlib.Data.List.Nodup
import LexicalScope.Proofs.Walk.Report
import LexicalScope.Reference.Free
import LexicalScope.Scope.Binding

/-! # Binding into a table

What binding a tree adds to a table does not depend on the table: it is what binding adds to the
empty one. Scopes that are there keep their places and gain the names that they lack, and further
scopes come after them. So binding a tree a second time adds nothing.
-/

namespace LexicalScope

namespace Scope

variable {s : Scope} {xs : List Atom} {x y : Atom}

/-- A scope with the names of a list that it lacks, after its own. -/
def union (s : Scope) (xs : List Atom) : Scope :=
  { s with locals := s.locals ++ xs.filter (!s.declares ·) }

@[simp]
theorem owner_union : (s.union xs).owner = s.owner := rfl

@[simp]
theorem union_nil (s : Scope) : s.union [] = s := by simp [union]

theorem declares_congr (h : x.key = y.key) : s.declares x = s.declares y := by
  simp only [declares, h]

theorem declares_union :
    (s.union xs).declares x = (s.declares x || xs.any (·.key == x.key)) := by
  rw [Bool.eq_iff_iff, Bool.or_eq_true]
  simp only [declares, union, List.any_append, Bool.or_eq_true, List.any_filter]
  constructor
  · rintro (h | h)
    · exact .inl h
    · obtain ⟨y, hy, hx⟩ := List.any_eq_true.mp h
      exact .inr (List.any_eq_true.mpr ⟨y, hy, (Bool.and_eq_true_iff.mp hx).2⟩)
  · rintro (h | h)
    · exact .inl h
    · obtain ⟨y, hy, hx⟩ := List.any_eq_true.mp h
      have same : s.declares y = s.declares x := declares_congr (eq_of_beq hx)
      cases hs : s.declares x with
      | true => exact .inl hs
      | false =>
        right
        rw [← same] at hs
        have hs : (s.locals.any fun z => z.key == y.key) = false := hs
        exact List.any_eq_true.mpr ⟨y, hy, by rw [hs, hx]; rfl⟩

theorem union_eq_self (h : ∀ x ∈ xs, s.declares x = true) : s.union xs = s := by
  have none : xs.filter (!s.declares ·) = [] := by
    rw [List.filter_eq_nil_iff]
    intro x hx
    simp [h x hx]
  rw [union, none, List.append_nil]

theorem union_union (s : Scope) (xs : List Atom) : (s.union xs).union xs = s.union xs := by
  apply union_eq_self
  intro x hx
  have there : (xs.any fun y => y.key == x.key) = true :=
    List.any_eq_true.mpr ⟨x, hx, beq_self_eq_true _⟩
  rw [declares_union, there, Bool.or_true]

theorem union_locals (s : Scope) : s.union s.locals = s :=
  union_eq_self fun x hx => List.any_eq_true.mpr ⟨x, hx, beq_self_eq_true _⟩

theorem union_declare (s : Scope) (owner : Label) (xs : List Atom) (x : Atom) :
    s.union ((Scope.mk owner xs).declare x).locals = (s.union xs).declare x := by
  have there : (Scope.mk owner xs).declares x = xs.any (·.key == x.key) := rfl
  rw [declare, declare, declares_union, ← there]
  by_cases hx : (Scope.mk owner xs).declares x = true
  · rw [if_pos hx, hx, Bool.or_true, if_pos rfl]
  · rw [if_neg hx, eq_false_of_ne_true hx, Bool.or_false]
    split
    · next hs => simp [union, hs]
    · next hs => simp [union, hs]

end Scope

namespace ScopeTable

variable {t u : ScopeTable} {owner other : Label} {x : Atom}

theorem eq_of_scopes (h : t.scopes = u.scopes) : t = u := by
  cases t
  cases u
  cases h
  rfl

theorem scopes_create : (t.create owner).scopes =
    if owner ∈ t.owners then t.scopes else t.scopes ++ [⟨owner, []⟩] := by
  unfold create
  split <;> rfl

theorem localsOf_create : (t.create owner).localsOf other = t.localsOf other := by
  rw [localsOf, localsOf, get?_create]
  split
  · next h =>
    subst h
    cases t.get? owner <;> rfl
  · rfl

theorem scopes_declare : (t.declare owner x).scopes =
    (t.create owner).scopes.map fun s => if s.owner = owner then s.declare x else s := rfl

theorem localsOf_declare : (t.declare owner x).localsOf other =
    if owner = other then ((Scope.mk owner (t.localsOf owner)).declare x).locals
    else t.localsOf other := by
  rw [localsOf, declare, get?_update, get?_create]
  split
  · next h =>
    subst h
    cases hs : t.get? owner with
    | none => simp [localsOf, hs]
    | some s =>
      obtain ⟨own, locals⟩ := s
      obtain rfl : own = owner := t.owner_of_get? owner hs
      simp [localsOf, hs]
  · rfl

theorem localsOf_of_mem {s : Scope} (h : s ∈ t.scopes) : t.localsOf s.owner = s.locals := by
  have found : t.get? s.owner = some s := by
    obtain ⟨r, hr⟩ : ∃ r, t.get? s.owner = some r := by
      rw [← Option.isSome_iff_exists, get?_isSome]
      exact decide_eq_true (List.mem_map_of_mem h)
    have same : r = s :=
      List.inj_on_of_nodup_map t.nodup (List.mem_of_find?_eq_some hr) h (t.owner_of_get? _ hr)
    rw [hr, same]
  rw [localsOf, found]
  rfl

/-- A table with the names that another table has, and then with its further scopes. -/
def merge (t u : ScopeTable) : ScopeTable :=
  ⟨t.scopes.map (fun s => s.union (u.localsOf s.owner)) ++
      u.scopes.filter fun s => decide (s.owner ∉ t.owners), by
    have own : (t.scopes.map fun s => s.union (u.localsOf s.owner)).map Scope.owner = t.owners := by
      rw [List.map_map]
      rfl
    rw [List.map_append, own, List.nodup_append]
    refine ⟨t.nodup, u.nodup.sublist (List.filter_sublist.map _), ?_⟩
    rintro l hl _ hm rfl
    obtain ⟨s, hs, rfl⟩ := List.mem_map.mp hm
    exact of_decide_eq_true (List.mem_filter.mp hs).2 hl⟩

theorem scopes_merge : (t.merge u).scopes =
    t.scopes.map (fun s => s.union (u.localsOf s.owner)) ++
      u.scopes.filter fun s => decide (s.owner ∉ t.owners) := rfl

@[simp]
theorem merge_empty (t : ScopeTable) : t.merge empty = t := by
  have same (s : Scope) : s.union (empty.localsOf s.owner) = s := s.union_nil
  apply eq_of_scopes
  simp only [scopes_merge, same]
  simp [empty]

theorem mem_owners_merge : owner ∈ (t.merge u).owners ↔ owner ∈ t.owners ∨ owner ∈ u.owners := by
  simp only [owners, scopes_merge, List.map_append, List.mem_append, List.mem_map,
    List.mem_filter, decide_eq_true_eq]
  constructor
  · rintro (⟨_, ⟨s, hs, rfl⟩, rfl⟩ | ⟨s, ⟨hs, -⟩, rfl⟩)
    · exact .inl ⟨s, hs, rfl⟩
    · exact .inr ⟨s, hs, rfl⟩
  · rintro (⟨s, hs, rfl⟩ | ⟨s, hs, rfl⟩)
    · exact .inl ⟨_, ⟨s, hs, rfl⟩, rfl⟩
    · by_cases ho : ∃ r ∈ t.scopes, r.owner = s.owner
      · obtain ⟨r, hr, ho⟩ := ho
        exact .inl ⟨_, ⟨r, hr, rfl⟩, ho⟩
      · exact .inr ⟨s, ⟨hs, ho⟩, rfl⟩

theorem merge_create (t u : ScopeTable) (owner : Label) :
    t.merge (u.create owner) = (t.merge u).create owner := by
  apply eq_of_scopes
  simp only [scopes_merge, localsOf_create, scopes_create, mem_owners_merge]
  by_cases hu : owner ∈ u.owners
  · simp [hu]
  · by_cases ht : owner ∈ t.owners <;> simp [hu, ht]

theorem merge_declare (t u : ScopeTable) (owner : Label) (x : Atom) :
    t.merge (u.declare owner x) = (t.merge u).declare owner x := by
  have keeps (s : Scope) : (if s.owner = owner then s.declare x else s).owner = s.owner := by
    split <;> simp
  have own (s : Scope) : s.union ((u.declare owner x).localsOf s.owner) =
      if (s.union (u.localsOf s.owner)).owner = owner
      then (s.union (u.localsOf s.owner)).declare x else s.union (u.localsOf s.owner) := by
    rw [localsOf_declare, Scope.owner_union]
    by_cases h : owner = s.owner
    · rw [if_pos h, if_pos h.symm, Scope.union_declare, h]
    · rw [if_neg h, if_neg (Ne.symm h)]
  apply eq_of_scopes
  rw [scopes_declare, ← merge_create, scopes_merge, scopes_merge, scopes_declare, List.map_append,
    List.map_map, List.filter_map]
  simp only [Function.comp_def, localsOf_create, own, keeps]

theorem merge_enter (t u : ScopeTable) (entry : Entry) :
    t.merge (u.enter entry) = (t.merge u).enter entry := by
  cases entry with
  | scope owner => exact merge_create t u owner
  | name owner x => exact merge_declare t u owner x

/-- Entries add to a table what they make of the empty one. -/
theorem foldl_enter_eq_merge (es : List Entry) (t : ScopeTable) :
    es.foldl enter t = t.merge (es.foldl enter empty) := by
  have from_merge (u : ScopeTable) : es.foldl enter (t.merge u) = t.merge (es.foldl enter u) := by
    induction es generalizing u with
    | nil => rfl
    | cons entry es ih => rw [List.foldl_cons, List.foldl_cons, ← merge_enter, ih]
  rw [← from_merge empty, merge_empty]

theorem merge_merge_self (t u : ScopeTable) : (t.merge u).merge u = t.merge u := by
  apply eq_of_scopes
  have none : u.scopes.filter (fun s => decide (s.owner ∉ (t.merge u).owners)) = [] := by
    rw [List.filter_eq_nil_iff]
    intro s hs
    simpa using mem_owners_merge.mpr (.inr (List.mem_map_of_mem hs))
  rw [scopes_merge, none, List.append_nil]
  refine (List.map_congr_left ?_).trans (List.map_id _)
  intro s hs
  rcases List.mem_append.mp hs with hs | hs
  · obtain ⟨r, -, rfl⟩ := List.mem_map.mp hs
    exact r.union_union _
  · rw [localsOf_of_mem (List.mem_filter.mp hs).1]
    exact s.union_locals

end ScopeTable

/-- Binding into a table merges in what binding leaves in the empty one, and doing so again changes
nothing. -/
theorem bindScopes_eq_merge (t : Tree) (mode : ScopeMode) (table : ScopeTable) :
    bindScopes t mode table =
      (table.merge (bindScopes t mode .empty).1, (bindScopes t mode .empty).2) ∧
    bindScopes t mode (bindScopes t mode table).1 = bindScopes t mode table ∧
    ∀ u, freeReferences u (bindScopes t mode (bindScopes t mode table).1).1 =
      freeReferences u (bindScopes t mode table).1 := by
  have merged (table : ScopeTable) : bindScopes t mode table =
      (table.merge (bindScopes t mode .empty).1, (bindScopes t mode .empty).2) :=
    Prod.ext (ScopeTable.foldl_enter_eq_merge _ table) rfl
  have again : bindScopes t mode (bindScopes t mode table).1 = bindScopes t mode table := by
    rw [merged (bindScopes t mode table).1, merged table]
    exact congrArg (·, _) (ScopeTable.merge_merge_self _ _)
  refine ⟨merged table, again, ?_⟩
  intro u
  rw [again]

/-- The parameter `p` of an arrow joins the name that a table has for the arrow already. -/
theorem bindScopes_eq_merge_arrow :
    let mode : ScopeMode := ⟨false, false, false⟩
    let table := (ScopeTable.empty.declare 20 (.str "g")).declare arrow.label (.str "q")
    let bound := bindScopes arrowProgram.tree mode table
    bound.2 = none ∧ bound.1 = table.merge (bindScopes arrowProgram.tree mode .empty).1 ∧
      (bindScopes arrowProgram.tree mode .empty).1.scopes = [⟨2, [.str "p"]⟩] ∧
      bound.1.scopes = [⟨20, [.str "g"]⟩, ⟨2, [.str "q", .str "p"]⟩] ∧
      bindScopes arrowProgram.tree mode bound.1 = bound := by
  intro mode table bound
  obtain ⟨merged, again, -⟩ := bindScopes_eq_merge arrowProgram.tree mode table
  have ends : bound.2 = none := Option.isNone_iff_eq_none.mp (by decide +kernel)
  exact ⟨ends, congrArg Prod.fst merged, by decide +kernel, by decide +kernel, again⟩

end LexicalScope
