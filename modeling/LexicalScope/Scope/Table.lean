import LexicalScope.Tree.Basic

/-! # Scope tables

A scope is the set of names that an owner declares, and a table holds at most one scope for each
owner, in the order in which the scopes were created. Owners are known by their labels, so a tree
is never changed by what is recorded about it. What a table declares is stated operation by
operation: making a scope adds nothing, and adding a name adds that name at that owner only.
-/

namespace LexicalScope

structure Scope where
  owner : Label
  /-- The declared names in the order of their first declaration. -/
  locals : List Atom
deriving DecidableEq

namespace Scope

variable (s : Scope) (x y : Atom)

def declares : Bool := s.locals.any (·.key == x.key)

def declare : Scope := if s.declares x then s else { s with locals := s.locals ++ [x] }

@[simp]
theorem declares_nil (owner : Label) : (Scope.mk owner []).declares x = false := rfl

@[simp]
theorem owner_declare : (s.declare x).owner = s.owner := by
  unfold declare
  split <;> rfl

theorem declares_declare : (s.declare x).declares y = (x.key == y.key || s.declares y) := by
  by_cases hx : s.declares x = true
  · rw [declare, if_pos hx]
    by_cases hy : x.key = y.key
    · simp only [declares, hy] at hx ⊢
      simp [hx]
    · simp [hy]
  · rw [declare, if_neg hx]
    simp [declares, Bool.or_comm]

end Scope

structure ScopeTable where
  scopes : List Scope
  nodup : (scopes.map Scope.owner).Nodup
deriving DecidableEq

namespace ScopeTable

variable (t : ScopeTable) (owner other : Label) (x y : Atom)

def empty : ScopeTable := ⟨[], List.nodup_nil⟩

def size : Nat := t.scopes.length

def owners : List Label := t.scopes.map Scope.owner

def get? : Option Scope := t.scopes.find? (·.owner == owner)

def create : ScopeTable :=
  if h : owner ∈ t.owners then t
  else ⟨t.scopes ++ [⟨owner, []⟩], by
    rw [List.map_append]
    refine List.nodup_append.mpr ⟨t.nodup, List.pairwise_singleton _ _, ?_⟩
    rintro a ha b hb rfl
    simp only [List.map_cons, List.map_nil, List.mem_singleton] at hb
    exact h (hb ▸ ha)⟩

def update (change : Scope → Scope) (keeps : ∀ s, (change s).owner = s.owner) : ScopeTable :=
  ⟨t.scopes.map fun s => if s.owner = owner then change s else s, by
    have same : Scope.owner ∘ (fun s => if s.owner = owner then change s else s) = Scope.owner := by
      funext s
      simp only [Function.comp_apply]
      split
      · exact keeps s
      · rfl
    rw [List.map_map, same]
    exact t.nodup⟩

/-- Add a name to the scope of an owner, which is created if need be. -/
def declare : ScopeTable :=
  (t.create owner).update owner (·.declare x) fun s => s.owner_declare x

def localsOf : List Atom := ((t.get? owner).map Scope.locals).getD []

def declares : Bool := (t.get? owner).any (·.declares x)

@[simp]
theorem get?_empty : empty.get? owner = none := rfl

theorem get?_isSome : (t.get? owner).isSome = decide (owner ∈ t.owners) := by
  rw [Bool.eq_iff_iff]
  simp [get?, owners, List.find?_isSome]

theorem owner_of_get? {s : Scope} (h : t.get? owner = some s) : s.owner = owner := by
  simpa using List.find?_some h

theorem owners_create :
    (t.create owner).owners = if owner ∈ t.owners then t.owners else t.owners ++ [owner] := by
  unfold create
  split
  · rfl
  · simp [owners]

theorem get?_create :
    (t.create owner).get? other =
      if owner = other then some ((t.get? owner).getD ⟨owner, []⟩) else t.get? other := by
  by_cases h : owner ∈ t.owners
  · rw [create, dif_pos h]
    split
    · next heq =>
      subst heq
      have hs : (t.get? owner).isSome = true := by simp [get?_isSome, h]
      obtain ⟨s, hs⟩ := Option.isSome_iff_exists.mp hs
      simp [hs]
    · rfl
  · rw [create, dif_neg h]
    have hn : t.get? owner = none := by
      rw [← Option.not_isSome_iff_eq_none, get?_isSome]
      simp [h]
    simp only [get?] at hn ⊢
    rw [List.find?_append]
    split
    · next heq =>
      subst heq
      simp [hn]
    · next hne => simp [hne]

theorem get?_update (change : Scope → Scope) (keeps : ∀ s, (change s).owner = s.owner) :
    (t.update owner change keeps).get? other =
      if owner = other then (t.get? other).map change else t.get? other := by
  have same : ((fun s : Scope => s.owner == other) ∘
      fun s => if s.owner = owner then change s else s) = fun s => s.owner == other := by
    funext s
    simp only [Function.comp_apply]
    split
    · rw [keeps s]
    · rfl
  simp only [get?, update]
  rw [List.find?_map, same]
  cases hs : t.scopes.find? (·.owner == other) with
  | none => simp
  | some s =>
    have ho : s.owner = other := by simpa using List.find?_some hs
    subst ho
    by_cases h : owner = s.owner
    · simp [h]
    · simp [h, Ne.symm h]

@[simp]
theorem owners_declare : (t.declare owner x).owners = (t.create owner).owners := by
  have same : Scope.owner ∘ (fun s : Scope => if s.owner = owner then s.declare x else s) =
      Scope.owner := by
    funext s
    simp only [Function.comp_apply]
    split <;> simp
  simp [declare, update, owners, same]

@[simp]
theorem declares_empty : empty.declares owner x = false := rfl

@[simp]
theorem declares_create : (t.create owner).declares other x = t.declares other x := by
  simp only [declares, get?_create]
  split
  · next h =>
    subst h
    cases t.get? owner <;> simp
  · rfl

theorem declares_declare :
    (t.declare owner x).declares other y =
      (decide (owner = other) && x.key == y.key || t.declares other y) := by
  simp only [declares, declare, get?_update, get?_create]
  by_cases h : owner = other
  · subst h
    cases t.get? owner with
    | none => simp [Scope.declares_declare, Scope.declares_nil]
    | some s => simp [Scope.declares_declare]
  · simp [h]

end ScopeTable

end LexicalScope
