import Mathlib.Data.List.Forall2
import LexicalScope.Proofs.Walk.Below
import LexicalScope.Scope.Binding

/-! # Where a flattening breaks off

A pattern is flattened from left to right. If it breaks off, it does so at one place: at something
that is no pattern, at an identifier without a usable name, or at a list of parts that is none. What
has been given by then are the names of the parts before that place, at every level down to it.
-/

namespace LexicalScope

namespace Yield

variable {α β γ : Type} {f : Fault}

theorem flatMap_flatMap (p : Yield α) (g : α → Yield β) (h : β → Yield γ) :
    (p.flatMap g).flatMap h = p.flatMap fun a => (g a).flatMap h := by
  have tail : (⟨[], p.fault⟩ : Yield β).flatMap h = ⟨[], p.fault⟩ := by simp [flatMap]
  have parts : p.flatMap g = collect g p.items ++ ⟨[], p.fault⟩ := rfl
  rw [parts, flatMap_append, flatMap_collect, tail]
  rfl

theorem append_eq_some {p q : Yield α} {as : List α} : p ++ q = ⟨as, some f⟩ ↔
    p = ⟨as, some f⟩ ∨ ∃ bs cs, p = .ofList bs ∧ q = ⟨cs, some f⟩ ∧ as = bs ++ cs := by
  obtain ⟨bs, _ | e⟩ := p
  · obtain ⟨cs, g⟩ := q
    simp [ofList, eq_comm, and_comm]
  · simp [ofList]

theorem forall₂_ofList_iff {g : α → Yield β} {as : List α} {bss : List (List β)} :
    List.Forall₂ (fun a bs => g a = .ofList bs) as bss ↔
      (∀ a ∈ as, (g a).fault = none) ∧ bss = as.map fun a => (g a).items := by
  induction as generalizing bss with
  | nil => simp [List.forall₂_nil_left_iff]
  | cons a as ih =>
    rw [List.forall_mem_cons, List.map_cons]
    constructor
    · intro h
      cases h with
      | cons first rest =>
        obtain ⟨each, rfl⟩ := ih.mp rest
        exact ⟨⟨congrArg fault first, each⟩, by rw [first]; rfl⟩
    · rintro ⟨⟨first, each⟩, rfl⟩
      exact .cons (congrArg (Yield.mk _) first) (ih.mpr ⟨each, rfl⟩)

theorem collect_eq_some {g : α → Yield β} {as : List α} {bs : List β} :
    collect g as = ⟨bs, some f⟩ ↔ ∃ before a after bss cs, as = before ++ a :: after ∧
      List.Forall₂ (fun b bs => g b = .ofList bs) before bss ∧ g a = ⟨cs, some f⟩ ∧
        bs = bss.flatten ++ cs := by
  induction as generalizing bs with
  | nil => simp [empty]
  | cons a as ih =>
    rw [collect_cons, append_eq_some]
    constructor
    · rintro (here | ⟨own, rest, ends, later, rfl⟩)
      · exact ⟨[], a, as, [], bs, rfl, .nil, here, rfl⟩
      · obtain ⟨before, b, after, bss, cs, rfl, complete, broken, rfl⟩ := ih.mp later
        exact ⟨a :: before, b, after, own :: bss, cs, rfl, .cons ends complete, broken, by simp⟩
    · rintro ⟨before, b, after, bss, cs, split, complete, broken, rfl⟩
      cases complete with
      | nil =>
        obtain ⟨rfl, rfl⟩ := List.cons.inj split
        exact .inl broken
      | @cons _ own before bss ends complete =>
        obtain ⟨rfl, rfl⟩ := List.cons.inj split
        refine .inr ⟨own, bss.flatten ++ cs, ends, ih.mpr ?_, by simp⟩
        exact ⟨before, b, after, bss, cs, rfl, complete, broken, rfl⟩

theorem collect_eq_ofList {g : α → Yield β} {as : List α} {bs : List β} :
    collect g as = .ofList bs ↔
      ∃ bss, List.Forall₂ (fun b bs => g b = .ofList bs) as bss ∧ bs = bss.flatten := by
  constructor
  · intro h
    have each := fault_collect.mp (congrArg fault h)
    refine ⟨_, forall₂_ofList_iff.mpr ⟨each, rfl⟩, ?_⟩
    rw [← List.flatMap_def, ← items_collect each, h]
    rfl
  · rintro ⟨bss, complete, rfl⟩
    obtain ⟨each, rfl⟩ := forall₂_ofList_iff.mp complete
    rw [← List.flatMap_def, ← items_collect each]
    exact congrArg (Yield.mk _) (fault_collect.mpr each)

theorem flatMap_eq_some {p : Yield α} {g : α → Yield β} {bs : List β} :
    p.flatMap g = ⟨bs, some f⟩ ↔
      (∃ before a after bss cs, p.items = before ++ a :: after ∧
        List.Forall₂ (fun b bs => g b = .ofList bs) before bss ∧ g a = ⟨cs, some f⟩ ∧
          bs = bss.flatten ++ cs) ∨
      p.fault = some f ∧ ∃ bss, List.Forall₂ (fun b bs => g b = .ofList bs) p.items bss ∧
        bs = bss.flatten := by
  rw [flatMap, append_eq_some, collect_eq_some]
  refine or_congr_right ?_
  constructor
  · rintro ⟨own, rest, ends, later, rfl⟩
    obtain ⟨rfl, broken⟩ := Yield.mk.inj later
    exact ⟨broken, by simpa using collect_eq_ofList.mp ends⟩
  · rintro ⟨broken, complete⟩
    exact ⟨bs, [], collect_eq_ofList.mpr complete, by rw [broken], by simp⟩

theorem flatMap_ofExcept_eq_some {r : Except Fault (List α)} {g : α → Yield β} {bs : List β} :
    (ofExcept r).flatMap g = ⟨bs, some f⟩ ↔ r = .error f ∧ bs = [] ∨
      ∃ before a after bss cs, r = .ok (before ++ a :: after) ∧
        List.Forall₂ (fun b bs => g b = .ofList bs) before bss ∧ g a = ⟨cs, some f⟩ ∧
          bs = bss.flatten ++ cs := by
  cases r with
  | error e =>
    have broken : (ofExcept (.error e)).flatMap g = ⟨[], some e⟩ := rfl
    simp [broken, and_comm, eq_comm]
  | ok as =>
    rw [ofExcept, flatMap_ofList, collect_eq_some]
    simp

end Yield

def Tree.nameOf (identifier : Tree) : Except Fault Atom := do
  (← identifier.field "name").asName

namespace Pattern

/-- A pattern is flattened to its end and gives some names. -/
def Yields (pattern : Tree) (xs : List Atom) : Prop := names pattern = .ofList (xs.map .atom)

/-- The flattening of a pattern breaks off after some names. -/
inductive BreaksOff : Tree → List Atom → Fault → Prop where
  | foreign {t : Tree} (other : isIdentifier t = false) (none : parts? t = none) :
      BreaksOff t [] t.unsupported
  | nameless {t : Tree} {f : Fault} (identifier : isIdentifier t = true)
      (fails : t.nameOf = .error f) : BreaksOff t [] f
  | part {t u : Tree} {ps : Yield Tree} {before after : List Tree} {xss : List (List Atom)}
      {left : List Atom} {f : Fault} (parts : parts? t = some ps)
      (split : ps.items = before ++ u :: after) (complete : List.Forall₂ Yields before xss)
      (broken : BreaksOff u left f) : BreaksOff t (xss.flatten ++ left) f
  | list {t : Tree} {ps : Yield Tree} {xss : List (List Atom)} {f : Fault}
      (parts : parts? t = some ps) (fails : ps.fault = some f)
      (complete : List.Forall₂ Yields ps.items xss) : BreaksOff t xss.flatten f

/-- The names that a pattern adds to a scope, up to where it breaks off. -/
def atoms (t : Tree) : Yield Atom :=
  (names t).flatMap fun name => .ofExcept (name.asName.map ([·]))

variable {t : Tree} {ps : Yield Tree} {xs left : List Atom} {f : Fault}

theorem isIdentifier_of_parts (h : parts? t = some ps) : isIdentifier t = false := by
  unfold parts? at h
  unfold isIdentifier
  cases ho : t.object? with
  | none => rfl
  | some n =>
    simp only [ho, Option.bind_eq_bind, Option.bind_some] at h
    rw [Option.any_some, beq_eq_false_iff_ne]
    intro identifier
    simp [identifier] at h

theorem atoms_of_isIdentifier (h : isIdentifier t = true) :
    atoms t = .ofExcept (t.nameOf.map ([·])) := by
  rw [atoms, names_of_isIdentifier h, Tree.nameOf]
  cases t.field "name" with
  | error e => rfl
  | ok v => exact Yield.flatMap_single v _

theorem atoms_of_parts (h : parts? t = some ps) : atoms t = ps.flatMap atoms := by
  rw [atoms, names_of_parts (isIdentifier_of_parts h) h, Yield.flatMap_flatMap]
  rfl

theorem atoms_of_unsupported (hi : isIdentifier t = false) (h : parts? t = none) :
    atoms t = .fail t.unsupported := by
  rw [atoms, names_of_unsupported hi h]
  rfl

theorem atoms_eq_ofList_iff : atoms t = .ofList xs ↔ Yields t xs := by
  constructor
  · intro h
    obtain ⟨ends, -⟩ := Yield.fault_flatMap.mp (congrArg Yield.fault h)
    have items : (names t).items = xs.map .atom := by
      rw [atoms, Yield.flatMap, ends] at h
      change _ ++ Yield.empty = _ at h
      rw [Yield.append_empty] at h
      obtain ⟨bss, complete, rfl⟩ := Yield.collect_eq_ofList.mp h
      -- each name is the one atom that it gives
      clear h
      generalize (names t).items = vs at complete
      induction complete with
      | nil => rfl
      | @cons v bs vs bss own _ ih =>
        rw [ih, List.flatten_cons, List.map_append]
        cases v with
        | atom y =>
          obtain rfl : [y] = bs := congrArg Yield.items own
          rfl
        | arr | obj => cases congrArg Yield.fault own
    exact (congrArg (Yield.mk _) ends).trans (congrArg Yield.ofList items)
  · intro h
    rw [atoms, h, Yield.flatMap_ofList]
    clear h
    induction xs with
    | nil => rfl
    | cons y ys ih =>
      rw [List.map_cons, Yield.collect_cons, ih]
      rfl

theorem atoms_eq_some_iff : atoms t = ⟨left, some f⟩ ↔ BreaksOff t left f := by
  have complete_iff {ts : List Tree} {xss : List (List Atom)} :
      List.Forall₂ (fun u xs => atoms u = .ofList xs) ts xss ↔ List.Forall₂ Yields ts xss :=
    ⟨fun h => h.imp fun _ _ => atoms_eq_ofList_iff.mp,
      fun h => h.imp fun _ _ => atoms_eq_ofList_iff.mpr⟩
  constructor
  · intro h
    induction hk : t.height using Nat.strongRecOn generalizing t left with
    | ind k ih =>
      cases hi : isIdentifier t with
      | true =>
        rw [atoms_of_isIdentifier hi] at h
        cases hn : t.nameOf with
        | error e =>
          rw [hn] at h
          cases h
          exact .nameless hi hn
        | ok x =>
          rw [hn] at h
          cases h
      | false =>
        cases hp : parts? t with
        | none =>
          rw [atoms_of_unsupported hi hp] at h
          cases h
          exact .foreign hi hp
        | some ps =>
          rw [atoms_of_parts hp, Yield.flatMap_eq_some] at h
          rcases h with ⟨before, u, after, xss, cs, split, complete, broken, rfl⟩ |
            ⟨fails, xss, complete, rfl⟩
          · have below := height_of_mem_parts hp (u := u) (by rw [split]; simp)
            exact .part hp split (complete_iff.mp complete) (ih _ (hk ▸ below) broken rfl)
          · exact .list hp fails (complete_iff.mp complete)
  · intro h
    induction h with
    | foreign other none => exact atoms_of_unsupported other none
    | nameless identifier fails =>
      rw [atoms_of_isIdentifier identifier, fails]
      rfl
    | @part t u ps before after xss left f parts split complete _ ih =>
      rw [atoms_of_parts parts, Yield.flatMap_eq_some]
      exact .inl ⟨before, u, after, xss, left, split, complete_iff.mpr complete, ih, rfl⟩
    | @list t ps xss f parts fails complete =>
      rw [atoms_of_parts parts, Yield.flatMap_eq_some]
      exact .inr ⟨fails, xss, complete_iff.mpr complete, rfl⟩

end Pattern

end LexicalScope
