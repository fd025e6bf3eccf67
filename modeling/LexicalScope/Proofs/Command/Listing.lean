import LexicalScope.Command.Listing
import LexicalScope.Proofs.Analysis
import LexicalScope.Proofs.Location

/-! # Listing free variables

A listing asks for the position of every free reference. Where the locations of a tree are well
formed, all positions can be read, so whatever is found of the tree can be listed, as text and as
JSON. Only the listing of no variables as text is empty.
-/

namespace LexicalScope

namespace Grouping

variable {α : Type} {name : α → Tree} {as : List α} {gs gs' : List (NameGroup α)}
  {g : NameGroup α} {a b : α}

theorem mem_members_add {x : Atom} (hg : g ∈ add x a gs) (hb : b ∈ g.members) :
    b = a ∨ ∃ g' ∈ gs, b ∈ g'.members := by
  induction gs with
  | nil =>
    obtain rfl := List.mem_singleton.mp hg
    exact .inl (List.mem_singleton.mp hb)
  | cons k ks ih =>
    rw [add] at hg
    split at hg <;> rcases List.mem_cons.mp hg with rfl | hg
    · rcases List.mem_append.mp hb with hb | hb
      · exact .inr ⟨k, List.mem_cons_self, hb⟩
      · exact .inl (List.mem_singleton.mp hb)
    · exact .inr ⟨g, List.mem_cons_of_mem _ hg, hb⟩
    · exact .inr ⟨g, List.mem_cons_self, hb⟩
    · refine (ih hg).imp_right ?_
      rintro ⟨g', hg', hb⟩
      exact ⟨g', List.mem_cons_of_mem _ hg', hb⟩

theorem mem_members_addAll (h : addAll name gs as = .ok gs') (hg : g ∈ gs')
    (hb : b ∈ g.members) : b ∈ as ∨ ∃ g' ∈ gs, b ∈ g'.members := by
  induction as generalizing gs with
  | nil =>
    obtain rfl := Except.ok.inj h
    exact .inr ⟨g, hg, hb⟩
  | cons a as ih =>
    simp only [addAll, bind, Except.bind] at h
    cases hx : (name a).asName with
    | error e => simp [hx] at h
    | ok x =>
      simp only [hx] at h
      rcases ih h with hb | ⟨g', hg', hb⟩
      · exact .inl (List.mem_cons_of_mem _ hb)
      · refine (mem_members_add hg' hb).imp_left ?_
        rintro rfl
        exact List.mem_cons_self

end Grouping

theorem mem_of_groupReferences {rs : List FreeReference} {vs : List FreeVariable}
    {v : FreeVariable} {r : FreeReference} (h : groupReferences rs = .ok vs) (hv : v ∈ vs)
    (hr : r ∈ v.members) : r ∈ rs := by
  simp only [groupReferences, groupByName, bind, Except.bind] at h
  cases hg : Grouping.addAll FreeReference.name [] rs with
  | error e => simp [hg] at h
  | ok gs =>
    simp only [hg, Key.sortBy] at h
    split at h
    · obtain rfl := Except.ok.inj h
      have sorted : v ∈ gs := (List.mergeSort_perm _ _).mem_iff.mp hv
      simpa using Grouping.mem_members_addAll hg sorted hr
    · cases h

/-- Every node that the walk meets has a well-formed location. -/
def Tree.Located (t : Tree) : Prop := ∀ e ∈ t.events.items, e.node.Located

theorem Tree.Located.exists_position {t : Tree} (h : t.Located) {hostEmbedded : Bool}
    {vs : List FreeVariable} (found : (globalsOf t hostEmbedded).outcome = .ok vs)
    {v : FreeVariable} (hv : v ∈ vs) {r : FreeReference} (hr : r ∈ v.members) :
    ∃ p, r.position = .ok p := by
  obtain ⟨mode, table, rs, resolved, bound, classified, group⟩ := outcome_globalsOf.mp found
  let a : Analysis t hostEmbedded := ⟨mode, table, rs, resolved, bound, classified⟩
  obtain ⟨e, he, -, rfl⟩ := a.mem_free.mp (mem_of_groupReferences group hv hr)
  exact (h e he).exists_position

namespace Command

variable {vs : List FreeVariable} {s : String}

theorem mapM_eq_ok {α β ε : Type} {f : α → Except ε β} {as : List α} {bs : List β} :
    as.mapM f = .ok bs ↔ List.Forall₂ (fun a b => f a = .ok b) as bs := by
  induction as generalizing bs with
  | nil => simp [pure, Except.pure, eq_comm]
  | cons a as ih =>
    rw [List.mapM_cons]
    cases ha : f a with
    | error e => simp [List.forall₂_cons_left_iff, bind, Except.bind, ha]
    | ok b =>
      cases hs : as.mapM f with
      | error e =>
        have none (cs : List β) : ¬ List.Forall₂ (fun a b => f a = .ok b) as cs := by
          simp [← ih, hs]
        simp [List.forall₂_cons_left_iff, bind, Except.bind, none]
      | ok cs =>
        have same (ds : List β) : List.Forall₂ (fun a b => f a = .ok b) as ds ↔ cs = ds := by
          simp [← ih, hs]
        simp [List.forall₂_cons_left_iff, bind, Except.bind, pure, Except.pure, ha, same, eq_comm]

theorem exists_mapM_eq_ok {α β ε : Type} {f : α → Except ε β} {as : List α}
    (h : ∀ a ∈ as, ∃ b, f a = .ok b) : ∃ bs, as.mapM f = .ok bs := by
  induction as with
  | nil => exact ⟨[], rfl⟩
  | cons a as ih =>
    obtain ⟨⟨b, hb⟩, hs⟩ := List.forall_mem_cons.mp h
    obtain ⟨bs, hbs⟩ := ih hs
    exact ⟨b :: bs, mapM_eq_ok.mpr (.cons hb (mapM_eq_ok.mp hbs))⟩

/-- Free variables whose references have positions can be listed. -/
theorem exists_listing (h : ∀ v ∈ vs, ∀ r ∈ v.members, ∃ p, r.position = .ok p) (json : Bool) :
    ∃ s, (if json then jsonListing vs else textListing vs) = .ok s := by
  have positions (v : FreeVariable) (hv : v ∈ vs) := exists_mapM_eq_ok (h v hv)
  cases json with
  | true =>
    have each : ∀ v ∈ vs, ∃ w, variableJson v = .ok w := by
      intro v hv
      obtain ⟨ps, hp⟩ := positions v hv
      rw [variableJson, hp]
      exact ⟨_, rfl⟩
    obtain ⟨ws, hw⟩ := exists_mapM_eq_ok each
    rw [if_pos rfl, jsonListing, hw]
    exact ⟨_, rfl⟩
  | false =>
    have each : ∀ v ∈ vs, ∃ l, lineOf v = .ok l := by
      intro v hv
      obtain ⟨ps, hp⟩ := positions v hv
      rw [lineOf, hp]
      exact ⟨_, rfl⟩
    obtain ⟨ls, hl⟩ := exists_mapM_eq_ok each
    rw [if_neg Bool.false_ne_true, textListing, hl]
    exact ⟨_, rfl⟩

theorem jsonListing_ne_empty (h : jsonListing vs = .ok s) :
    s ≠ "" ∧ (vs = [] → s = "[]") := by
  rw [jsonListing] at h
  cases hw : vs.mapM variableJson with
  | error e =>
    rw [hw] at h
    cases h
  | ok ws =>
    rw [hw] at h
    obtain rfl := Except.ok.inj h
    constructor
    · intro empty
      have chars := congrArg String.toList empty
      cases ws <;> simp [Json.render, Json.write] at chars
    · rintro rfl
      obtain rfl : [] = ws := Except.ok.inj hw
      rfl

theorem textListing_eq_empty (h : textListing vs = .ok s) : s = "" ↔ vs = [] := by
  rw [textListing] at h
  cases hl : vs.mapM lineOf with
  | error e =>
    rw [hl] at h
    cases h
  | ok ls =>
    rw [hl] at h
    obtain rfl := Except.ok.inj h
    cases mapM_eq_ok.mp hl with
    | nil => simp
    | @cons v l vs ls first rest =>
      have tab : '\t' ∈ l := by
        rw [lineOf] at first
        cases hp : v.members.mapM FreeReference.position with
        | error e =>
          rw [hp] at first
          cases first
        | ok ps =>
          rw [hp] at first
          obtain rfl := Except.ok.inj first
          simp
      have within : '\t' ∈ ['\n'].intercalate (l :: ls) := by
        cases ls <;> simp [List.intercalate, tab]
      simp only [reduceCtorEq, iff_false]
      intro empty
      have chars : ['\n'].intercalate (l :: ls) = [] := by
        simpa using congrArg String.toList empty
      rw [chars] at within
      cases within

/-- Only the listing of no variables as text is empty. -/
theorem listing_eq_empty {json : Bool}
    (h : (if json then jsonListing vs else textListing vs) = .ok s) :
    (s = "" ↔ vs = [] ∧ json = false) ∧ (vs = [] → s = if json then "[]" else "") := by
  cases json with
  | true =>
    obtain ⟨nonempty, none⟩ := jsonListing_ne_empty h
    exact ⟨by simp [nonempty], none⟩
  | false =>
    have empty := textListing_eq_empty h
    exact ⟨by simp [empty], empty.mpr⟩

end Command

end LexicalScope
