import LexicalScope.Proofs.Binding.Exactness
import LexicalScope.Proofs.Resolution.Declared
import LexicalScope.Proofs.Walk.Place

/-! # Owners from below and from above

Binding looks for the owner of a declaration among the nodes around it, while a node looks for its
declarations below itself. Both find the same: what a declaration site gives to its nearest owner is
what that owner gathers down to the next owners below.
-/

namespace LexicalScope

section

variable {outer : List Node} {s : Slot} {m n : Node} {test stop : Kind → Bool}
  {site : Node → List String} {x : String}

/-- A node owns a name in a slot: as the nearest owner around it, or by gathering the name below. -/
def Node.Owns (m : Node) (test : Kind → Bool) (site : Node → List String) (x : String)
    (outer : List Node) (s : Slot) : Prop :=
  (outer.find? (fun m => test m.kind) = some m ∧ x ∈ gather test site s) ∨
    ∃ around, Visits outer s m around ∧ test m.kind = true ∧ x ∈ m.below test site

theorem Visits.exists_iff {P : Node → List Node → Prop} (hn : s.value.node? = some n)
    (h : (walk outer s).fault = none) :
    (∃ v around, Visits outer s v around ∧ P v around) ↔
      P n outer ∨ ∃ c ∈ n.slots.items, ∃ v around, Visits (n :: outer) c v around ∧ P v around := by
  simp only [Visits.iff hn h]
  constructor
  · rintro ⟨v, around, ⟨c, hc, hv⟩ | ⟨rfl, rfl⟩, hp⟩
    · exact .inr ⟨c, hc, v, around, hv, hp⟩
    · exact .inl hp
  · rintro (hp | ⟨c, hc, v, around, hv, hp⟩)
    · exact ⟨n, outer, .inr ⟨rfl, rfl⟩, hp⟩
    · exact ⟨v, around, .inl ⟨c, hc, hv⟩, hp⟩

theorem Node.owns_iff (hn : s.value.node? = some n) (h : (walk outer s).fault = none) :
    m.Owns test site x outer s ↔ (x ∈ site n ∧ outer.find? (fun m => test m.kind) = some m) ∨
      ∃ c ∈ n.slots.items, m.Owns test site x (n :: outer) c := by
  unfold Owns
  rw [gather_of_node?_eq_some hn, List.mem_append]
  simp only [Visits.iff hn h]
  by_cases ht : test n.kind = true
  · simp only [ht, List.find?_cons_of_pos, if_true, List.not_mem_nil, or_false,
      Option.some.injEq]
    constructor
    · rintro (⟨hf, hx⟩ | ⟨around, ⟨c, hc, hv⟩ | ⟨rfl, rfl⟩, hm, hx⟩)
      · exact .inl ⟨hx, hf⟩
      · exact .inr ⟨c, hc, .inr ⟨around, hv, hm, hx⟩⟩
      · obtain ⟨c, hc, hx⟩ := List.mem_flatMap.mp hx
        exact .inr ⟨c, hc, .inl ⟨rfl, hx⟩⟩
    · rintro (⟨hx, hf⟩ | ⟨c, hc, ⟨rfl, hx⟩ | ⟨around, hv, hm⟩⟩)
      · exact .inl ⟨hf, hx⟩
      · exact .inr ⟨outer, .inr ⟨rfl, rfl⟩, ht, List.mem_flatMap.mpr ⟨c, hc, hx⟩⟩
      · exact .inr ⟨around, .inl ⟨c, hc, hv⟩, hm⟩
  · have ht : test n.kind = false := by simpa using ht
    simp only [List.find?_cons, ht, Bool.false_eq_true, if_false, below, List.mem_flatMap]
    constructor
    · rintro (⟨hf, hx | ⟨c, hc, hx⟩⟩ | ⟨around, ⟨c, hc, hv⟩ | ⟨rfl, rfl⟩, hm, hx⟩)
      · exact .inl ⟨hx, hf⟩
      · exact .inr ⟨c, hc, .inl ⟨hf, hx⟩⟩
      · exact .inr ⟨c, hc, .inr ⟨around, hv, hm, hx⟩⟩
      · simp [ht] at hm
    · rintro (⟨hx, hf⟩ | ⟨c, hc, ⟨hf, hx⟩ | ⟨around, hv, hm⟩⟩)
      · exact .inl ⟨hf, .inl hx⟩
      · exact .inl ⟨hf, .inr ⟨c, hc, hx⟩⟩
      · exact .inr ⟨around, .inl ⟨c, hc, hv⟩, hm⟩

/-- The sites that have a node for their nearest owner are those which the node gathers. -/
theorem exists_site_iff (h : (walk outer s).fault = none) :
    (∃ v around, Visits outer s v around ∧ x ∈ site v ∧
      around.find? (fun m => test m.kind) = some m) ↔ m.Owns test site x outer s := by
  induction s using slot_induction generalizing outer with
  | step s ih =>
    cases hn : s.value.node? with
    | none => simp [Node.Owns, Visits.not_of_node?_eq_none hn, gather_of_node?_eq_none hn]
    | some n =>
      rw [Visits.exists_iff hn h, Node.owns_iff hn h]
      refine or_congr_right (exists_congr fun c => and_congr_right fun hc => ?_)
      exact ih n hn c hc (((fault_walk hn).mp h).2.2 c hc)

theorem mem_gather_iff (h : (walk outer s).fault = none) :
    x ∈ gather (fun _ => false) site s ↔ ∃ v around, Visits outer s v around ∧ x ∈ site v := by
  induction s using slot_induction generalizing outer with
  | step s ih =>
    cases hn : s.value.node? with
    | none => simp [Visits.not_of_node?_eq_none hn, gather_of_node?_eq_none hn]
    | some n =>
      rw [Visits.exists_iff hn h, gather_of_node?_eq_some hn, List.mem_append]
      simp only [Bool.false_eq_true, if_false, Node.below, List.mem_flatMap]
      refine or_congr_right (exists_congr fun c => and_congr_right fun hc => ?_)
      exact ih n hn c hc (((fault_walk hn).mp h).2.2 c hc)

theorem gather_congr (h : s.value.InVocabulary)
    (hs : ∀ n, s.value.node? = some n → n.kind ≠ .program)
    (agree : ∀ k, k ≠ .program → test k = stop k) : gather test site s = gather stop site s := by
  induction s using slot_induction with
  | step s ih =>
    cases hn : s.value.node? with
    | none => rw [gather_of_node?_eq_none hn, gather_of_node?_eq_none hn]
    | some n =>
      have inner := (h.wellShaped hn).2
      have below : n.below test site = n.below stop site := by
        apply List.flatMap_congr
        intro c hc
        obtain ⟨admits, hv⟩ := inner c hc
        exact ih n hn c hc hv fun m hm => (admits m hm).1
      rw [gather_of_node?_eq_some hn, gather_of_node?_eq_some hn, agree _ (hs n hn), below]

end

namespace Tree

theorem text?_eq_some {t : Tree} {x : String} : t.text? = some x ↔ t = .str x := by
  cases t with
  | atom a => cases a <;> simp [text?, str]
  | _ => simp [text?, str]

end Tree

theorem Pattern.mem_texts {pattern : Tree} {x : String} :
    x ∈ texts pattern ↔ Binds pattern (.str x) := by
  simp [texts, Binds, List.mem_filterMap, Tree.text?_eq_some, Tree.str]

namespace Node

variable {n : Node} {x : String}

theorem mem_elements {key : String} {t : Tree} : t ∈ n.elements key ↔ (n.get key).Holds t :=
  Tree.mem_ofExcept_elements

theorem mem_parameterNames :
    x ∈ n.parameterNames ↔ ∃ p, (n.get "params").Holds p ∧ Pattern.Binds p (.str x) := by
  simp only [parameterNames, List.mem_flatMap, mem_elements, Pattern.mem_texts]

theorem mem_declaratorNames : x ∈ n.declaratorNames ↔
    ∃ d pattern, (n.get "declarations").Holds d ∧ d.field "id" = .ok pattern ∧
      Pattern.Binds pattern (.str x) := by
  simp only [declaratorNames, List.mem_flatMap, mem_elements]
  apply exists_congr
  intro d
  cases hd : d.object? with
  | none =>
    have : ∀ p, d.field "id" ≠ .ok p := by
      intro p
      cases d <;> simp_all [Tree.object?, Tree.field]
    simp [this]
  | some d' =>
    rw [← Tree.tree_of_object? hd]
    simp only [Pattern.mem_texts]
    constructor
    · rintro ⟨hd, hx⟩
      refine ⟨_, hd, Tree.field_eq_of_get ?_, hx⟩
      intro hn
      exact Binding.not_binds_of_falsy (by rw [hn]; rfl) hx
    · rintro ⟨pattern, hd, hp, hx⟩
      exact ⟨hd, by rwa [Tree.get_of_field hp]⟩

theorem mem_nameIn {key : String} (h : n.get key = .null ∨ ∃ s, (n.get key).IsIdentifier s) :
    x ∈ n.nameIn key ↔ (n.get key).IsNamed (.str x) := by
  unfold nameIn
  rcases h with h | ⟨s, h⟩
  · simp [h, Tree.null, Tree.object?, Tree.IsNamed, Tree.truthy, Atom.truthy]
  · have hf := h.field
    obtain ⟨i, hi, -, hs⟩ := h
    simp [Tree.object?_of_node? hi, Tree.IsNamed, Tree.truthy_of_node? hi, hf, hs, Tree.str,
      Tree.text?, eq_comm]

theorem mem_importNames (h : n.WellShaped) (hk : n.kind = .importSpecifier ∨
    n.kind = .importDefaultSpecifier ∨ n.kind = .importNamespaceSpecifier) :
    x ∈ n.importNames ↔ ∃ identifier, n.tree.field "local" = .ok identifier ∧
      identifier.field "name" = .ok (.str x) := by
  obtain ⟨s, hs⟩ : ∃ s, (n.get "local").IsIdentifier s := by
    rcases hk with hk | hk | hk <;> simpa only [WellShaped, hk] using h
  have hn : n.importNames = n.nameIn "local" := by
    rcases hk with hk | hk | hk <;> simp [importNames, hk]
  have hl : n.get "local" ≠ .null := by
    intro hl
    obtain ⟨i, hi, -⟩ := hs
    rw [hl] at hi
    cases hi
  rw [hn, mem_nameIn (.inr ⟨s, hs⟩), Tree.field_eq_of_get hl]
  obtain ⟨i, hi, -⟩ := id hs
  simp [Tree.IsNamed, Tree.truthy_of_node? hi, Tree.str]

end Node

end LexicalScope
