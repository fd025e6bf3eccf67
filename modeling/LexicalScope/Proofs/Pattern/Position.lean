import Mathlib.Data.List.Enum
import LexicalScope.Proofs.Location
import LexicalScope.Proofs.Vocabulary.Basic
import LexicalScope.Proofs.Walk.Below

/-! # Positions in a pattern

A position leads from a pattern to a tree in it, through one part of a node after another: the value
of an entry of an object pattern or else its argument, an element of an array pattern, the argument
of a rest, the target of a default. Default values, keys and holes are at no position. Positions are
ordered from left to right. Any tree may stand at a position, so a pattern need not be one of the
grammar.
-/

namespace LexicalScope

/-- One of the five kinds of nodes that a binding pattern is made of. -/
def Tree.IsPattern (t : Tree) : Prop :=
  ∃ n, t.object? = some n ∧ (n.kind = .identifier ∨ n.kind.isPattern = true)

/-- The tree at the `i`-th place of a node at which a pattern is expected. -/
inductive Node.PartAt (n : Node) : Nat → Tree → Prop where
  | entry {l : Label} {entries : List Tree} {i : Nat} {entry : Tree} {p : Node}
      (kind : n.kind = .objectPattern) (list : n.get "properties" = .arr l entries)
      (stands : entries[i]? = some entry) (object : entry.object? = some p) :
      PartAt n i ((p.get "value").orElse (p.get "argument"))
  | element {l : Label} {elements : List Tree} {i : Nat} {v : Tree}
      (kind : n.kind = .arrayPattern) (list : n.get "elements" = .arr l elements)
      (stands : elements[i]? = some v) (present : v ≠ .null) : PartAt n i v
  | argument (kind : n.kind = .restElement) : PartAt n 0 (n.get "argument")
  | left (kind : n.kind = .assignmentPattern) : PartAt n 0 (n.get "left")

/-- A node that flattening can read: its lists are lists, its entries objects, and an identifier has
a name. -/
structure Node.Regular (n : Node) : Prop where
  entries : n.kind = .objectPattern →
    (n.get "properties").IsListOf fun entry => ∃ p, entry.object? = some p
  elements : n.kind = .arrayPattern → (n.get "elements").IsListOf fun _ => True
  name : n.kind = .identifier → ∃ v, n.tree.field "name" = .ok v
  located : n.Located

namespace Pattern

/-- A tree stands at a position of a pattern. -/
inductive At : Tree → List Nat → Tree → Prop where
  | whole (t : Tree) : At t [] t
  | part {t u v : Tree} {n : Node} {i : Nat} {path : List Nat} (node : t.object? = some n)
      (part : n.PartAt i v) (inner : At v path u) : At t (i :: path) u

def Regular (t : Tree) : Prop :=
  ∀ path u n, At t path u → u.object? = some n → n.Regular

/-- Two patterns that differ at most in what their nodes hold beside their parts. -/
inductive SameParts : Tree → Tree → Prop where
  | same (t : Tree) : SameParts t t
  | parts {t t' : Tree} {n n' : Node} (node : t.object? = some n) (node' : t'.object? = some n')
      (pattern : n.kind.isPattern = true) (kind : n'.kind = n.kind)
      (places : ∀ i, (∃ v, n.PartAt i v) ↔ ∃ v', n'.PartAt i v')
      (each : ∀ i v v', n.PartAt i v → n'.PartAt i v' → SameParts v v') : SameParts t t'

variable {t u v : Tree} {n : Node} {i : Nat} {path : List Nat}

theorem Regular.part (h : Regular t) (node : t.object? = some n) (part : n.PartAt i v) :
    Regular v :=
  fun path u _ inner => h (i :: path) u _ (.part node part inner)

theorem Regular.node (h : Regular t) (node : t.object? = some n) : n.Regular :=
  h [] t n (.whole t) node

theorem isPattern_of_partAt (h : n.PartAt i v) : n.kind.isPattern = true := by
  cases h with
  | entry kind | element kind | argument kind | left kind =>
    rw [kind]
    rfl

def entryPart (entry : Tree) : Tree :=
  entry.object?.elim .null fun p => (p.get "value").orElse (p.get "argument")

theorem entryTarget_eq {entry : Tree} {p : Node} (h : entry.object? = some p) :
    entryTarget entry = .single (entryPart entry) := by
  have get (key : String) : entry.get? key = .ok (p.get key) := by
    rw [← Tree.tree_of_object? h]
    rfl
  rw [entryPart, h, Option.elim_some, Tree.orElse]
  simp only [entryTarget, get, bind, Except.bind, pure, Except.pure]
  split <;> rfl

theorem collect_entryTarget {entries : List Tree}
    (h : ∀ entry ∈ entries, ∃ p, entry.object? = some p) :
    Yield.collect entryTarget entries = .ofList (entries.map entryPart) := by
  induction entries with
  | nil => rfl
  | cons entry entries ih =>
    obtain ⟨⟨p, hp⟩, rest⟩ := List.forall_mem_cons.mp h
    rw [Yield.collect_cons, entryTarget_eq hp, ih rest]
    rfl

theorem pairwise_zipIdx (vs : List Tree) : vs.zipIdx.Pairwise fun a b => a.2 < b.2 := by
  have ascending : (vs.zipIdx.map Prod.snd).Pairwise (· < ·) := by
    rw [List.zipIdx_map_snd]
    exact List.pairwise_lt_range'
  exact List.pairwise_map.mp ascending

theorem exists_items {P : Tree → Prop} {t : Tree} (h : t.IsListOf P) : ∃ vs,
    t.elements = .ok vs ∧ (∀ v ∈ vs, P v) ∧
      ∀ (i : Nat) v, vs[i]? = some v ↔ ∃ l ws, t = .arr l ws ∧ ws[i]? = some v := by
  rcases h with rfl | ⟨l, vs, rfl, each⟩
  · exact ⟨[], rfl, by simp, by simp [Tree.null]⟩
  · refine ⟨vs, Tree.elements_arr l vs, each, fun i v =>
      ⟨fun stands => ⟨l, vs, rfl, stands⟩, ?_⟩⟩
    rintro ⟨m, ws, same, stands⟩
    obtain ⟨-, rfl⟩ := Tree.arr.inj same
    exact stands

theorem partAt_object (kind : n.kind = .objectPattern) :
    n.PartAt i v ↔ ∃ entry p, (∃ l entries, n.get "properties" = .arr l entries ∧
      entries[i]? = some entry) ∧ entry.object? = some p ∧
        v = (p.get "value").orElse (p.get "argument") := by
  constructor
  · intro part
    cases part with
    | entry _ list stands object => exact ⟨_, _, ⟨_, _, list, stands⟩, object, rfl⟩
    | element other | argument other | left other => simp [kind] at other
  · rintro ⟨entry, p, ⟨l, entries, list, stands⟩, object, rfl⟩
    exact .entry kind list stands object

theorem partAt_array (kind : n.kind = .arrayPattern) :
    n.PartAt i v ↔ (∃ l elements, n.get "elements" = .arr l elements ∧
      elements[i]? = some v) ∧ v ≠ .null := by
  constructor
  · intro part
    cases part with
    | element _ list stands present => exact ⟨⟨_, _, list, stands⟩, present⟩
    | entry other | argument other | left other => simp [kind] at other
  · rintro ⟨⟨l, elements, list, stands⟩, present⟩
    exact .element kind list stands present

theorem partAt_rest (kind : n.kind = .restElement) :
    n.PartAt i v ↔ v = n.get "argument" ∧ i = 0 := by
  constructor
  · intro part
    cases part with
    | argument => exact ⟨rfl, rfl⟩
    | entry other | element other | left other => simp [kind] at other
  · rintro ⟨rfl, rfl⟩
    exact .argument kind

theorem partAt_assignment (kind : n.kind = .assignmentPattern) :
    n.PartAt i v ↔ v = n.get "left" ∧ i = 0 := by
  constructor
  · intro part
    cases part with
    | left => exact ⟨rfl, rfl⟩
    | entry other | element other | argument other => simp [kind] at other
  · rintro ⟨rfl, rfl⟩
    exact .left kind

/-- The parts of a regular pattern node are those at its places, from left to right. -/
theorem exists_partsAt (node : t.object? = some n) (pattern : n.kind.isPattern = true)
    (regular : n.Regular) : ∃ ps : List (Tree × Nat),
      parts? t = some (.ofList (ps.map Prod.fst)) ∧ ps.Pairwise (fun a b => a.2 < b.2) ∧
        ∀ v i, (v, i) ∈ ps ↔ n.PartAt i v := by
  cases kind : n.kind <;> simp only [kind, Kind.isPattern, Bool.false_eq_true] at pattern
  case objectPattern =>
    obtain ⟨entries, list, objects, places⟩ := exists_items (regular.entries kind)
    refine ⟨(entries.map entryPart).zipIdx, ?_, pairwise_zipIdx _, fun v i => ?_⟩
    · simp [parts?, node, kind, list, Yield.ofExcept, Yield.flatMap_ofList,
        collect_entryTarget objects]
    · rw [List.mem_zipIdx_iff_getElem?, List.getElem?_map, Option.map_eq_some_iff,
        partAt_object kind]
      simp only [← places]
      constructor
      · rintro ⟨entry, stands, rfl⟩
        obtain ⟨p, object⟩ := objects entry (List.mem_of_getElem? stands)
        exact ⟨entry, p, stands, object, by rw [entryPart, object]; rfl⟩
      · rintro ⟨entry, p, stands, object, rfl⟩
        exact ⟨entry, stands, by rw [entryPart, object]; rfl⟩
  case arrayPattern =>
    obtain ⟨elements, list, -, places⟩ := exists_items (regular.elements kind)
    refine ⟨elements.zipIdx.filter fun x => !isHole x.1, ?_, (pairwise_zipIdx _).filter _,
      fun v i => ?_⟩
    · have items : (elements.zipIdx.filter fun x => !isHole x.1).map Prod.fst =
          elements.filter (!isHole ·) := by
        conv_rhs => rw [← List.zipIdx_map_fst 0 elements, List.filter_map]
        rfl
      simp [parts?, node, kind, list, Except.map, Yield.ofExcept, items]
    · rw [List.mem_filter, List.mem_zipIdx_iff_getElem?, places, Bool.not_eq_true',
        ← Bool.not_eq_true, isHole_eq_true, partAt_array kind]
  case restElement =>
    refine ⟨[(n.get "argument", 0)], by simp [parts?, node, kind, Yield.single, Yield.ofList],
      List.pairwise_singleton _ _, fun v i => ?_⟩
    rw [List.mem_singleton, Prod.mk.injEq, partAt_rest kind]
  case assignmentPattern =>
    refine ⟨[(n.get "left", 0)], by simp [parts?, node, kind, Yield.single, Yield.ofList],
      List.pairwise_singleton _ _, fun v i => ?_⟩
    rw [List.mem_singleton, Prod.mk.injEq, partAt_assignment kind]

end Pattern

end LexicalScope
