import LexicalScope.Proofs.FaultSort
import LexicalScope.Proofs.Pattern.Reach

/-! # Patterns in which anything may stand

Where a pattern is expected, a tree may have a node of any kind. Flattening gives the texts of the
identifiers that it reaches, and it breaks off just if it reaches a node that is no pattern, at such
a node.
-/

namespace LexicalScope

namespace Yield

variable {α β : Type} {P Q : Tree → Prop}

/-- A yield that can only break off at a tree of a sort. -/
def FailsOnlyAt (P : Tree → Prop) (y : Yield α) : Prop :=
  ∀ f, y.fault = some f → ∃ u, P u ∧ f = .unsupportedPattern u

namespace FailsOnlyAt

theorem iff_failsWith {y : Yield α} :
    y.FailsOnlyAt P ↔ y.FailsWith fun f => ∃ u, P u ∧ f = .unsupportedPattern u := .rfl

theorem of_fault {y : Yield α} (h : y.fault = none) : y.FailsOnlyAt P :=
  iff_failsWith.mpr (.of_fault_eq_none h)

theorem imp {y : Yield α} (h : y.FailsOnlyAt P) (sub : ∀ u, P u → Q u) : y.FailsOnlyAt Q := by
  intro f hf
  obtain ⟨u, hu, rfl⟩ := h f hf
  exact ⟨u, sub u hu, rfl⟩

theorem append {p q : Yield α} (hp : p.FailsOnlyAt P) (hq : q.FailsOnlyAt P) :
    (p ++ q).FailsOnlyAt P :=
  iff_failsWith.mpr (.append hp hq)

theorem flatMap {y : Yield α} {f : α → Yield β} (hy : y.fault = none)
    (h : ∀ a ∈ y.items, (f a).FailsOnlyAt P) : (y.flatMap f).FailsOnlyAt P :=
  iff_failsWith.mpr (.flatMap (.of_fault_eq_none hy) h)

end FailsOnlyAt

end Yield

namespace Pattern

variable {t u v : Tree} {n : Node} {around : List Node}

/-- A pattern leads to a node of a kind that no pattern has. -/
def Meets (pattern u : Tree) : Prop :=
  ∃ around n, Reaches pattern around u ∧ u.node? = some n ∧ n.kind ≠ .identifier ∧
    n.kind.isPattern = false

/-- All that a pattern leads to can be read, or its position can be found. -/
def Readable (pattern : Tree) : Prop :=
  ∀ around u, Reaches pattern around u → ∃ n, u.node? = some n ∧ n.HasParts ∧
    (n.kind = .identifier → ∃ s, n.get "name" = .str s) ∧
      (n.kind ≠ .identifier → n.kind.isPattern = false → ∃ suffix, u.positionSuffix = .ok suffix)

theorem Reaches.eq_or_part (h : Reaches t around u) : u = t ∨
    ∃ n v inner, t.node? = some n ∧ n.HasPart v ∧ Reaches v inner u := by
  induction h with
  | whole => exact .inl rfl
  | @part n around u v _ node part ih =>
    rcases ih with rfl | ⟨m, w, inner, hm, hw, reaches⟩
    · exact .inr ⟨n, v, [], node, part, .whole⟩
    · exact .inr ⟨m, w, n :: inner, hm, hw, .part reaches node part⟩

theorem Readable.of_parts (hn : t.node? = some n) (hp : n.kind.isPattern = true)
    (shape : n.HasParts) (parts : ∀ v, n.HasPart v → Readable v) : Readable t := by
  intro around u reaches
  rcases reaches.eq_or_part with rfl | ⟨m, v, inner, hm, hv, reaches⟩
  · refine ⟨n, hn, shape, fun identifier => ?_, fun _ none => ?_⟩
    · rw [identifier] at hp
      cases hp
    · rw [hp] at none
      cases none
  · obtain rfl := Option.some.inj (hn.symm.trans hm)
    exact parts v hv inner u reaches

theorem Readable.of_position (hn : t.node? = some n) (hi : n.kind ≠ .identifier)
    (hp : n.kind.isPattern = false) {suffix : List Char} (found : t.positionSuffix = .ok suffix) :
    Readable t := by
  intro around u reaches
  rcases reaches.eq_or_part with rfl | ⟨m, v, inner, hm, hv, -⟩
  · refine ⟨n, hn, ?_, fun identifier => absurd identifier hi, fun _ _ => ⟨suffix, found⟩⟩
    unfold Node.HasParts
    cases kind : n.kind <;> simp_all [Kind.isPattern]
  · obtain rfl := Option.some.inj (hn.symm.trans hm)
    rw [hv.isPattern] at hp
    cases hp

theorem names_of_ne (hn : t.node? = some n) (hi : n.kind ≠ .identifier)
    (hp : n.kind.isPattern = false) : names t = .fail t.unsupported := by
  apply names_of_unsupported
  · simpa [isIdentifier_eq hn] using hi
  · simp only [parts?, Tree.object?_of_node? hn, Option.bind_eq_bind, Option.bind_some]
    cases kind : n.kind <;> simp_all [Kind.isPattern]

theorem Readable.names_of_reaches (h : Readable t) (reaches : Reaches t around u) :
    (names u).FailsOnlyAt (Meets t) ∧ ∀ v ∈ (names u).items, ∃ s, v = .str s := by
  -- flattening recurs on what is reached, while the pattern that reaches it stays the same
  induction hk : u.height using Nat.strongRecOn generalizing u around with
  | ind k ih =>
    obtain ⟨n, hn, shape, named, position⟩ := h around u reaches
    by_cases identifier : n.kind = .identifier
    · obtain ⟨s, name⟩ := named identifier
      have field : u.field "name" = .ok (.str s) :=
        Tree.IsIdentifier.field ⟨n, hn, identifier, name⟩
      rw [names_of_isIdentifier (by simp [isIdentifier_eq hn, identifier]), field]
      exact ⟨.of_fault rfl, fun v hv => ⟨s, List.mem_singleton.mp hv⟩⟩
    · by_cases pattern : n.kind.isPattern = true
      · obtain ⟨ps, parts, ends, mem⟩ := exists_parts hn pattern shape
        have inner (v : Tree) (hv : v ∈ ps.items) :=
          ih v.height (hk ▸ height_of_mem_parts parts hv)
            (.part reaches hn ((mem v).mp hv)) rfl
        rw [names_of_parts (isIdentifier_of_isPattern hn pattern) parts]
        refine ⟨.flatMap ends fun v hv => (inner v hv).1, fun w hw => ?_⟩
        obtain ⟨v, hv, hw⟩ := Yield.mem_flatMap hw
        exact (inner v hv).2 w hw
      · have pattern : n.kind.isPattern = false := by simpa using pattern
        obtain ⟨suffix, found⟩ := position identifier pattern
        rw [names_of_ne hn identifier pattern]
        refine ⟨fun f hf => ⟨u, ⟨around, n, reaches, hn, identifier, pattern⟩, ?_⟩, by simp⟩
        obtain rfl := Option.some.inj hf
        simp [Tree.unsupported, found]

theorem Readable.failsOnlyAt (h : Readable t) : (names t).FailsOnlyAt (Meets t) :=
  (h.names_of_reaches .whole).1

theorem Readable.exists_text (h : Readable t) (hv : v ∈ (names t).items) : ∃ s, v = .str s :=
  (h.names_of_reaches .whole).2 v hv

/-- The flattening of a readable pattern runs to its end just if it meets nothing that is no
pattern. -/
theorem Readable.fault_names (h : Readable t) : (names t).fault = none ↔ ∀ u, ¬ Meets t u := by
  constructor
  · rintro ends u ⟨around, n, reaches, hn, identifier, pattern⟩
    have inner : (names u).fault = none := by
      clear hn
      induction reaches with
      | whole => exact ends
      | part reaches node part ih =>
        obtain ⟨m, hm, shape, -⟩ := h _ _ reaches
        obtain rfl := Option.some.inj (hm.symm.trans node)
        exact (names_of_hasParts node part.isPattern shape).1.mp ih _ part
    rw [names_of_ne hn identifier pattern] at inner
    cases inner
  · intro none
    cases hf : (names t).fault with
    | none => rfl
    | some f =>
      obtain ⟨u, hu, -⟩ := h.failsOnlyAt f hf
      exact absurd hu (none u)

theorem InGrammar.readable (h : InGrammar t) : Readable t ∧ ∀ u, ¬ Meets t u := by
  have each {around : List Node} {u : Tree} (reaches : Reaches t around u) : ∃ n,
      u.node? = some n ∧ n.HasParts ∧ (n.kind = .identifier ∧ (∃ s, n.get "name" = .str s) ∨
        n.kind.isPattern = true) := by
    have pattern : InGrammar u := h.of_reaches reaches
    obtain ⟨n, hn⟩ := pattern.exists_node
    exact ⟨n, hn, pattern.shape hn⟩
  refine ⟨fun around u reaches => ?_, ?_⟩
  · obtain ⟨n, hn, shape, ⟨kind, name⟩ | kind⟩ := each reaches
    · exact ⟨n, hn, shape, fun _ => name, fun ne => absurd kind ne⟩
    · refine ⟨n, hn, shape, fun identifier => ?_, fun _ none => ?_⟩
      · rw [identifier] at kind
        cases kind
      · rw [kind] at none
        cases none
  · rintro u ⟨around, n, reaches, hn, identifier, pattern⟩
    obtain ⟨m, hm, -, ⟨kind, -⟩ | kind⟩ := each reaches
    all_goals obtain rfl := Option.some.inj (hn.symm.trans hm)
    · exact identifier kind
    · rw [kind] at pattern
      cases pattern

theorem InGrammar.fault_names (h : InGrammar t) : (names t).fault = none :=
  h.readable.1.fault_names.mpr h.readable.2

theorem InGrammar.binds_of_reaches {x : Atom} (h : InGrammar t) (reaches : Reaches t around u)
    (hx : Binds u x) : Binds t x := by
  induction reaches with
  | whole => exact hx
  | part reaches node part ih =>
    have pattern := h.of_reaches reaches
    have names := names_of_hasParts node part.isPattern (pattern.shape node).1
    exact ih ((names.2 pattern.fault_names x).mpr ⟨_, part, hx⟩)

end Pattern

end LexicalScope
