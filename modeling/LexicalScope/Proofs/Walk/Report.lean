import Mathlib.Data.List.Flatten
import Mathlib.Tactic.Tauto
import LexicalScope.Tree.Walk

/-! # Reports

What a walk reports is either a report on the node in its slot or comes from one of the slots of
that node. A walk that runs to its end reports all of them, the node last, and so every node around
a reported one is reported itself.
-/

namespace LexicalScope

namespace Event

/-- The reported node and the nodes around it, innermost first. -/
def path (e : Event) : List Node := e.node :: e.outer

theorem chain_eq (e : Event) : e.chain = e.path.reverse := rfl

@[simp]
theorem mem_chain {e : Event} {n : Node} : n ∈ e.chain ↔ n ∈ e.path := by simp [chain_eq]

end Event

/-- A statement about slots follows for a slot from the same for the slots of the node in it. -/
theorem slot_induction {P : Slot → Prop}
    (step : ∀ s, (∀ n, s.value.node? = some n → ∀ c ∈ n.slots.items, P c) → P s) (s : Slot) :
    P s := by
  induction hk : s.value.height using Nat.strongRecOn generalizing s with
  | ind k ih =>
    apply step
    intro n hn c hc
    refine ih _ ?_ c rfl
    rw [← hk, ← Tree.tree_of_node? hn]
    exact n.below_slots c hc

namespace Node

theorem reports_ne_nil (n : Node) (target : Bool) : n.reports target ≠ [] := by
  unfold reports
  split <;> simp

theorem kind_of_mem_reports {n : Node} {target : Bool} {k : Kind} (h : k ∈ n.reports target) :
    k = n.kind ∨ n.kind = .identifier ∧ k = .variablePattern ∨
      n.kind.isFunction = true ∧ k = .anyFunction ∨ n.kind.isClass = true ∧ k = .anyClass := by
  unfold reports at h
  split at h
  case h_1 hk =>
    cases target <;> simp_all
  all_goals
    rename_i hk
    simp_all [Kind.isFunction, Kind.isClass]
  all_goals tauto

theorem kind_eq_of_mem_reports {n : Node} {target : Bool} {k : Kind} (h : k ∈ n.reports target)
    (hk : k ≠ .variablePattern ∧ k ≠ .anyFunction ∧ k ≠ .anyClass) : n.kind = k := by
  obtain ⟨hv, hf, hc⟩ := hk
  rcases kind_of_mem_reports h with h | h | h | h
  · exact h.symm
  · exact absurd h.2 hv
  · exact absurd h.2 hf
  · exact absurd h.2 hc

theorem isFunction_eq_false_of_mem_reports {n : Node} {target : Bool} {k : Kind}
    (h : k ∈ n.reports target) (hk : k = .identifier ∨ k = .variablePattern) :
    n.kind.isFunction = false := by
  rcases kind_of_mem_reports h with h | h | h | h
  · rcases hk with rfl | rfl <;> rw [← h] <;> rfl
  · rw [h.1]
    rfl
  · rcases hk with rfl | rfl <;> cases h.2
  · rcases hk with rfl | rfl <;> cases h.2

theorem anyFunction_mem_reports {n : Node} {target : Bool} (h : n.kind.isFunction = true) :
    .anyFunction ∈ n.reports target := by
  cases hk : n.kind <;> simp_all [Kind.isFunction, reports]

theorem anyClass_mem_reports {n : Node} {target : Bool} (h : n.kind.isClass = true) :
    .anyClass ∈ n.reports target := by
  cases hk : n.kind <;> simp_all [Kind.isClass, reports]

theorem kind_of_variablePattern_mem_reports {n : Node} {target : Bool}
    (h : .variablePattern ∈ n.reports target) (hk : n.kind ≠ .variablePattern) :
    n.kind = .identifier := by
  rcases kind_of_mem_reports h with h | h | h | h
  · exact absurd h.symm hk
  · exact h.1
  · cases h.2
  · cases h.2

theorem isFunction_of_mem_reports {n : Node} {target : Bool} (h : .anyFunction ∈ n.reports target)
    (hk : n.kind ≠ .anyFunction) : n.kind.isFunction = true := by
  rcases kind_of_mem_reports h with h | h | h | h
  · exact absurd h.symm hk
  · cases h.2
  · exact h.1
  · cases h.2

theorem isClass_of_mem_reports {n : Node} {target : Bool} (h : .anyClass ∈ n.reports target)
    (hk : n.kind ≠ .anyClass) : n.kind.isClass = true := by
  rcases kind_of_mem_reports h with h | h | h | h
  · exact absurd h.symm hk
  · cases h.2
  · cases h.2
  · exact h.1

theorem mem_events {n : Node} {outer : List Node} {target : Bool} {e : Event} :
    e ∈ (n.events outer target).items ↔
      n.kind ≠ .compound ∧ e.kind ∈ n.reports target ∧ e.node = n ∧ e.outer = outer := by
  obtain ⟨kind, node, around⟩ := e
  unfold events
  split
  · next h => simp [h]
  · next h =>
    simp only [Yield.items_ofList, List.mem_map, Event.mk.injEq, ne_eq, h, not_false_eq_true,
      true_and]
    constructor
    · rintro ⟨k, hk, rfl, rfl, rfl⟩
      exact ⟨hk, rfl, rfl⟩
    · rintro ⟨hk, rfl, rfl⟩
      exact ⟨kind, hk, rfl, rfl, rfl⟩

theorem fault_events {n : Node} {outer : List Node} {target : Bool} :
    (n.events outer target).fault = none ↔ n.kind ≠ .compound := by
  unfold events
  split <;> simp_all

end Node

variable {outer : List Node} {s : Slot} {n : Node} {e : Event}

theorem mem_walk (h : e ∈ (walk outer s).items) :
    ∃ n, s.value.node? = some n ∧ (e ∈ (n.events outer s.target).items ∨
      ∃ c ∈ n.slots.items, e ∈ (walk (n :: outer) c).items) := by
  cases hn : s.value.node? with
  | none =>
    rw [walk_of_node?_eq_none hn] at h
    cases h
  | some n =>
    rw [walk_of_node?_eq_some hn] at h
    refine ⟨n, rfl, ?_⟩
    rcases Yield.mem_append h with h | h
    · exact .inr (Yield.mem_flatMap h)
    · exact .inl h

theorem fault_walk (hn : s.value.node? = some n) :
    (walk outer s).fault = none ↔ n.slots.fault = none ∧ n.kind ≠ .compound ∧
      ∀ c ∈ n.slots.items, (walk (n :: outer) c).fault = none := by
  rw [walk_of_node?_eq_some hn]
  simp only [Yield.fault_append, Yield.fault_flatMap, Node.fault_events]
  tauto

/-- A walk that runs to its end reports what lies below the node and then the node. -/
theorem items_walk (hn : s.value.node? = some n) (h : (walk outer s).fault = none) :
    (walk outer s).items = (n.slots.items.flatMap fun c => (walk (n :: outer) c).items) ++
      (n.reports s.target).map (⟨·, n, outer⟩) := by
  have hk := ((fault_walk hn).mp h).2.1
  rw [walk_of_node?_eq_some hn] at h ⊢
  obtain ⟨hs, -⟩ := Yield.fault_append.mp h
  rw [Yield.items_append _ hs, Yield.items_flatMap hs, Node.events, if_neg hk, Yield.items_ofList]

theorem mem_walk_iff (hn : s.value.node? = some n) (h : (walk outer s).fault = none) :
    e ∈ (walk outer s).items ↔ (∃ c ∈ n.slots.items, e ∈ (walk (n :: outer) c).items) ∨
      e.kind ∈ n.reports s.target ∧ e.node = n ∧ e.outer = outer := by
  have hk := ((fault_walk hn).mp h).2.1
  have he : e ∈ (n.events outer s.target).items ↔ _ := Node.mem_events
  rw [items_walk hn h, List.mem_append, List.mem_flatMap]
  simp only [Node.events, if_neg hk, Yield.items_ofList] at he
  rw [he]
  simp [hk]

theorem exists_mem_reports (he : e ∈ (walk outer s).items) :
    ∃ target, e.kind ∈ e.node.reports target := by
  induction s using slot_induction generalizing outer with
  | step s ih =>
    obtain ⟨n, hn, he | ⟨c, hc, he⟩⟩ := mem_walk he
    · obtain ⟨-, hk, rfl, -⟩ := Node.mem_events.mp he
      exact ⟨_, hk⟩
    · exact ih n hn c hc he

theorem kind_ne_compound_of_mem_walk (he : e ∈ (walk outer s).items) : e.node.kind ≠ .compound := by
  induction s using slot_induction generalizing outer with
  | step s ih =>
    obtain ⟨n, hn, he | ⟨c, hc, he⟩⟩ := mem_walk he
    · obtain ⟨hk, -, rfl, -⟩ := Node.mem_events.mp he
      exact hk
    · exact ih n hn c hc he

theorem suffix_path_of_mem_walk (h : e ∈ (walk outer s).items) :
    ∃ n, s.value.node? = some n ∧ n :: outer <:+ e.path := by
  induction s using slot_induction generalizing outer with
  | step s ih =>
    obtain ⟨n, hn, h | ⟨c, hc, h⟩⟩ := mem_walk h
    · obtain ⟨-, -, rfl, rfl⟩ := Node.mem_events.mp h
      exact ⟨e.node, hn, List.suffix_refl _⟩
    · obtain ⟨m, -, hm⟩ := ih n hn c hc h
      exact ⟨n, hn, (List.suffix_cons m _).trans hm⟩

theorem exists_mem_walk_of_suffix (hs : (walk outer s).fault = none) (h : e ∈ (walk outer s).items)
    {m : Node} {around : List Node} (hm : m :: around <:+ e.path)
    (hl : outer.length ≤ around.length) :
    ∃ f ∈ (walk outer s).items, f.node = m ∧ f.outer = around := by
  induction s using slot_induction generalizing outer with
  | step s ih =>
    obtain ⟨n, hn, -⟩ := mem_walk h
    rcases (mem_walk_iff hn hs).mp h with ⟨c, hc, hec⟩ | ⟨hk, he, ho⟩
    · rcases Nat.lt_or_ge outer.length around.length with hlt | hge
      · obtain ⟨f, hf, hfm⟩ := ih n hn c hc (((fault_walk hn).mp hs).2.2 c hc) hec hlt
        exact ⟨f, (mem_walk_iff hn hs).mpr (.inl ⟨c, hc, hf⟩), hfm⟩
      · -- the node asked for is the one in this slot
        obtain ⟨k, hk⟩ := List.exists_mem_of_ne_nil _ (n.reports_ne_nil s.target)
        obtain ⟨n', hn', hsuffix⟩ := suffix_path_of_mem_walk h
        obtain rfl : n' = n := Option.some.inj (hn'.symm.trans hn)
        have same := List.suffix_of_suffix_length_le hm hsuffix (by simpa using hge)
        have := same.eq_of_length (by simp; omega)
        obtain ⟨rfl, rfl⟩ := List.cons.inj this
        exact ⟨⟨k, m, around⟩, (mem_walk_iff hn hs).mpr (.inr ⟨hk, rfl, rfl⟩), rfl, rfl⟩
    · have hlen := hm.length_le
      simp only [Event.path, ho, List.length_cons] at hlen
      have := hm.eq_of_length (by simp [Event.path, ho]; omega)
      obtain ⟨rfl, rfl⟩ := List.cons.inj this
      exact ⟨e, h, rfl, rfl⟩

/-- A walk meets a node below a chain. -/
def Visits (outer : List Node) (s : Slot) (n : Node) (around : List Node) : Prop :=
  ∃ e ∈ (walk outer s).items, e.node = n ∧ e.outer = around

namespace Visits

variable {around : List Node} {m : Node}

theorem of_mem_walk (h : e ∈ (walk outer s).items) : Visits outer s e.node e.outer :=
  ⟨e, h, rfl, rfl⟩

theorem not_of_node?_eq_none (h : s.value.node? = none) : ¬ Visits outer s n around := by
  simp [Visits, walk_of_node?_eq_none h]

theorem iff (hn : s.value.node? = some n) (h : (walk outer s).fault = none) :
    Visits outer s m around ↔
      (∃ c ∈ n.slots.items, Visits (n :: outer) c m around) ∨ m = n ∧ around = outer := by
  simp only [Visits, mem_walk_iff hn h]
  constructor
  · rintro ⟨e, ⟨c, hc, he⟩ | ⟨-, rfl, rfl⟩, rfl, rfl⟩
    · exact .inl ⟨c, hc, e, he, rfl, rfl⟩
    · exact .inr ⟨rfl, rfl⟩
  · rintro (⟨c, hc, e, he, rfl, rfl⟩ | ⟨rfl, rfl⟩)
    · exact ⟨e, .inl ⟨c, hc, he⟩, rfl, rfl⟩
    · obtain ⟨k, hk⟩ := List.exists_mem_of_ne_nil _ (m.reports_ne_nil s.target)
      exact ⟨⟨k, m, around⟩, .inr ⟨hk, rfl, rfl⟩, rfl, rfl⟩

theorem suffix_path (h : Visits outer s m around) :
    ∃ n, s.value.node? = some n ∧ n :: outer <:+ m :: around := by
  obtain ⟨e, he, rfl, rfl⟩ := h
  exact suffix_path_of_mem_walk he

theorem of_suffix (h : Visits outer s m around) (hs : (walk outer s).fault = none)
    {rest : List Node} (hn : n :: rest <:+ m :: around) (hl : outer.length ≤ rest.length) :
    Visits outer s n rest := by
  obtain ⟨e, he, rfl, rfl⟩ := h
  exact exists_mem_walk_of_suffix hs he hn hl

theorem of_mem (h : Visits [] s m around) (hs : (walk [] s).fault = none) (hn : n ∈ around) :
    ∃ rest, Visits [] s n rest := by
  obtain ⟨before, rest, rfl⟩ := List.append_of_mem hn
  have below : n :: rest <:+ m :: (before ++ n :: rest) :=
    (List.suffix_append _ _).trans (List.suffix_cons _ _)
  exact ⟨rest, h.of_suffix hs below (Nat.zero_le _)⟩

theorem kind_ne_compound (h : Visits [] s m around) (hs : (walk [] s).fault = none) :
    ∀ n ∈ m :: around, n.kind ≠ .compound := by
  have met {n : Node} {ns : List Node} (h : Visits [] s n ns) : n.kind ≠ .compound := by
    obtain ⟨e, he, rfl, -⟩ := h
    exact kind_ne_compound_of_mem_walk he
  refine List.forall_mem_cons.mpr ⟨met h, ?_⟩
  intro n hn
  obtain ⟨rest, h⟩ := h.of_mem hs hn
  exact met h

theorem mem_walk (h : Visits outer s m around) (hs : (walk outer s).fault = none) {k : Kind}
    (hk : ∀ target, k ∈ m.reports target) : ⟨k, m, around⟩ ∈ (walk outer s).items := by
  induction s using slot_induction generalizing outer with
  | step s ih =>
    obtain ⟨n, hn, -⟩ := LexicalScope.mem_walk h.choose_spec.1
    rw [mem_walk_iff hn hs]
    rcases (iff hn hs).mp h with ⟨c, hc, h⟩ | ⟨rfl, rfl⟩
    · exact .inl ⟨c, hc, ih n hn c hc h (((fault_walk hn).mp hs).2.2 c hc)⟩
    · exact .inr ⟨hk _, rfl, rfl⟩

theorem slot (h : Visits outer s n around) (hs : (walk outer s).fault = none) {c : Slot}
    (hc : c ∈ n.slots.items) (hm : c.value.node? = some m) : Visits outer s m (n :: around) := by
  induction s using slot_induction generalizing outer with
  | step s ih =>
    obtain ⟨n', hn, -⟩ := LexicalScope.mem_walk h.choose_spec.1
    have inner := ((fault_walk hn).mp hs).2.2
    refine (iff hn hs).mpr (.inl ?_)
    rcases (iff hn hs).mp h with ⟨d, hd, h⟩ | ⟨rfl, rfl⟩
    · exact ⟨d, hd, ih n' hn d hd h (inner d hd)⟩
    · exact ⟨c, hc, (iff hm (inner c hc)).mpr (.inr ⟨rfl, rfl⟩)⟩

theorem mem_walk_slot (h : Visits outer s n around) (hs : (walk outer s).fault = none) {c : Slot}
    (hc : c ∈ n.slots.items) (hm : c.value.node? = some m) {k : Kind}
    (hk : k ∈ m.reports c.target) : ⟨k, m, n :: around⟩ ∈ (walk outer s).items := by
  induction s using slot_induction generalizing outer with
  | step s ih =>
    obtain ⟨n', hn, -⟩ := LexicalScope.mem_walk h.choose_spec.1
    have inner := ((fault_walk hn).mp hs).2.2
    refine (mem_walk_iff hn hs).mpr (.inl ?_)
    rcases (iff hn hs).mp h with ⟨d, hd, h⟩ | ⟨rfl, rfl⟩
    · exact ⟨d, hd, ih n' hn d hd h (inner d hd)⟩
    · exact ⟨c, hc, (mem_walk_iff hm (inner c hc)).mpr (.inr ⟨hk, rfl, rfl⟩)⟩

theorem exists_slot (h : Visits outer s m (n :: around)) (hs : (walk outer s).fault = none)
    (hl : outer.length ≤ around.length) : ∃ c ∈ n.slots.items, c.value.node? = some m := by
  induction s using slot_induction generalizing outer with
  | step s ih =>
    obtain ⟨n', hn, -⟩ := LexicalScope.mem_walk h.choose_spec.1
    rcases (iff hn hs).mp h with ⟨c, hc, h⟩ | ⟨-, rfl⟩
    · obtain ⟨k, hk, below⟩ := h.suffix_path
      rcases Nat.lt_or_ge outer.length around.length with hlt | hge
      · exact ih n' hn c hc h (((fault_walk hn).mp hs).2.2 c hc) hlt
      · -- only the node of this slot is that far out
        have same := below.eq_of_length (by simp; omega)
        obtain ⟨rfl, rest⟩ := List.cons.inj same
        obtain ⟨rfl, -⟩ := List.cons.inj rest
        exact ⟨c, hc, hk⟩
    · rw [List.length_cons] at hl
      omega

end Visits

theorem visits_child {n m : Node} (hn : n.tree.node? = some n) (hm : m.tree.node? = some m)
    (hs : ⟨m.tree, false⟩ ∈ n.slots.items) (ends : n.tree.events.fault = none) :
    Visits [] ⟨n.tree, false⟩ m [n] := by
  have own : Visits [] ⟨n.tree, false⟩ n [] := (Visits.iff hn ends).mpr (.inr ⟨rfl, rfl⟩)
  exact own.slot ends hs hm

theorem exists_ok_of_map {α β : Type} {r : Except Fault α} {f : α → β} {b : β}
    (h : r.toOption.map f = some b) : ∃ a, r = .ok a ∧ f a = b := by
  cases r with
  | error e => simp [Except.toOption] at h
  | ok a => exact ⟨a, rfl, by simpa [Except.toOption] using h⟩

/-- The list `[p, x]`. -/
def pair : Node :=
  ⟨5, [("type", .str "ArrayExpression"),
    ("elements", .arr 6 [.identifier 7 "p", .identifier 8 "x"])]⟩

/-- The arrow function `p => [p, x]`. -/
def arrow : Node :=
  ⟨2, [("type", .str "ArrowFunctionExpression"), ("params", .arr 3 [.identifier 4 "p"]),
    ("body", pair.tree)]⟩

def arrowProgram : Node := ⟨0, [("type", .str "Program"), ("body", .arr 1 [arrow.tree])]⟩

example : arrowProgram.tree.events.items.map Event.kind =
    [.variablePattern, .identifier, .identifier, .other "ArrayExpression", .anyFunction,
      .arrowFunctionExpression, .program] := by
  decide +kernel

/-- A function whose name is a pattern that means the parameter. -/
def patternNamed : Node :=
  ⟨2, [("type", .str "FunctionExpression"),
    ("id", .obj 3 [("type", .str "ObjectPattern"), ("name", .str "f"),
      ("properties", .arr 4 [.obj 5 [("type", .str "Property"), ("value", .identifier 6 "x")]])]),
    ("params", .arr 7 [.identifier 8 "x"]),
    ("body", .obj 9 [("type", .str "BlockStatement"), ("body", .arr 10 [])])]⟩

def patternNamedProgram : Node :=
  ⟨0, [("type", .str "Program"), ("body", .arr 1 [patternNamed.tree])]⟩

end LexicalScope
