import LexicalScope.Proofs.Pattern.Readable

/-! # Binding where anything may stand for a pattern

A report takes names from the targets of its declarators, from its parameters or from what its
clause catches. If all that these lead to can be read, then binding can only break off at a node
that is no pattern. It does so whenever a pattern meets one, unless the report is ignored: a mode
that keeps names from the program ignores a `var` that stands in no function.
-/

namespace LexicalScope

namespace Node

/-- A well-shaped node, with trees of some sort where names are bound. -/
def Shaped (P : Tree → Prop) (n : Node) : Prop :=
  match n.kind with
  | .functionDeclaration | .functionExpression | .arrowFunctionExpression =>
    (n.get "id" = .null ∨ ∃ s, (n.get "id").IsIdentifier s) ∧ (n.get "params").IsListOf P
  | .variableDeclaration => (n.get "declarations").IsListOf fun v =>
    ∃ d, v.object? = some d ∧ P (d.get "id")
  | .catchClause => n.get "param" = .null ∨ P (n.get "param")
  | _ => n.WellShaped

end Node

/-- A report takes names from a pattern. -/
inductive Event.Destructures (e : Event) : Tree → Prop where
  | declared {v : Tree} {d : Node} (kind : e.kind = .variableDeclaration)
      (holds : (e.node.get "declarations").Holds v) (declarator : v.object? = some d) :
      Destructures e (d.get "id")
  | parameter {p : Tree} (kind : e.kind = .anyFunction) (holds : (e.node.get "params").Holds p) :
      Destructures e p
  | caught {c : Node} (kind : e.kind = .tryStatement)
      (handles : (e.node.get "handler").object? = some c)
      (present : (c.get "param").truthy = true) : Destructures e (c.get "param")

/-- A mode that keeps names from the program ignores a `var` in no function. -/
def Event.Ignored (mode : ScopeMode) (e : Event) : Prop :=
  e.kind = .variableDeclaration ∧ (e.node.get "kind").isText "var" = true ∧
    mode.hoistsToProgram = false ∧ ∀ m ∈ e.outer, m.kind.isFunction = false

theorem Tree.IsListOf.of_holds {P : Tree → Prop} {u v : Tree} (h : u.IsListOf P) (hv : u.Holds v) :
    P v := by
  obtain ⟨vs, list, each⟩ := h.elements
  obtain ⟨vs', list', hv⟩ := hv
  obtain rfl : vs = vs' := Except.ok.inj (list.symm.trans list')
  exact each v hv

theorem Tree.IsListOf.imp {P Q : Tree → Prop} {t : Tree} (h : t.IsListOf P)
    (sub : ∀ v, P v → Q v) : t.IsListOf Q := by
  rcases h with rfl | ⟨l, vs, rfl, h⟩
  · exact .inl rfl
  · exact .inr ⟨l, vs, rfl, fun v hv => sub v (h v hv)⟩

namespace Node

variable {P Q : Tree → Prop} {n : Node} {target : Bool}

theorem WellShaped.shaped (h : n.WellShaped) : n.Shaped Pattern.InGrammar := by
  unfold Shaped
  split
  case h_6 => exact h
  all_goals
    rename_i hk
    simpa only [WellShaped, hk] using h

namespace Shaped

theorem imp (h : n.Shaped P) (sub : ∀ t, P t → Q t) : n.Shaped Q := by
  unfold Shaped at h ⊢
  split at h
  case h_1 | h_2 | h_3 => exact ⟨h.1, h.2.imp sub⟩
  case h_4 =>
    refine Tree.IsListOf.imp h ?_
    rintro v ⟨d, hd, hp⟩
    exact ⟨d, hd, sub _ hp⟩
  case h_5 => exact h.imp_right (sub _)
  case h_6 => exact h

theorem wellShaped (h : n.Shaped P) (hf : n.kind.isFunction = false)
    (hk : n.kind ≠ .variableDeclaration ∧ n.kind ≠ .catchClause) : n.WellShaped := by
  unfold Shaped at h
  split at h <;> simp_all [Kind.isFunction]

theorem function (h : n.Shaped P) (hk : n.kind.isFunction = true) :
    (n.get "id" = .null ∨ ∃ s, (n.get "id").IsIdentifier s) ∧
      (n.get "params").IsListOf P := by
  cases hn : n.kind <;> simp_all [Kind.isFunction, Shaped]

theorem fault_slots (h : n.Shaped P) : n.slots.fault = none := by
  by_cases hf : n.kind.isFunction = true
  · have list := (h.function hf).2
    cases hk : n.kind <;> simp [hk, Kind.isFunction] at hf <;>
      simp [slots, hk, targets, fault_elements list]
  · by_cases hk : n.kind = .variableDeclaration ∨ n.kind = .catchClause
    · rcases hk with hk | hk <;> simp [slots, hk]
    · exact (h.wellShaped (by simpa using hf) (not_or.mp hk)).fault_slots

theorem ne_compound (h : n.Shaped P) : n.kind ≠ .compound := by
  intro hk
  simp [Shaped, WellShaped, hk] at h

theorem isFunction (h : n.Shaped P) (hr : .anyFunction ∈ n.reports target) :
    n.kind.isFunction = true := by
  refine isFunction_of_mem_reports hr fun hk => ?_
  simp [Shaped, WellShaped, hk] at h

theorem ofClass (h : n.Shaped P) (hr : .anyClass ∈ n.reports target) :
    n.get "id" = .null ∨ ∃ s, (n.get "id").IsIdentifier s := by
  have kind : n.kind.isClass = true := by
    refine isClass_of_mem_reports hr fun hk => ?_
    simp [Shaped, WellShaped, hk] at h
  refine WellShaped.ofClass ?_ kind
  apply h.wellShaped <;> cases hk : n.kind <;> simp_all [Kind.isClass, Kind.isFunction]

end Shaped

end Node

variable {ns : List Node}

theorem nearest?_eq_find? (test : Kind → Bool) (h : ∀ m ∈ ns, m.kind ≠ .compound) :
    nearest? test ns = .ok (ns.find? fun m => test m.kind) := by
  induction ns with
  | nil => rfl
  | cons n ns ih =>
    obtain ⟨hn, hs⟩ := List.forall_mem_cons.mp h
    rw [nearest?, if_neg hn, List.find?_cons]
    cases test n.kind
    · exact ih hs
    · rfl

namespace Binding

variable {owner : Label} {P : Tree → Prop}

theorem fault_declareNames {y : Yield Tree} (h : ∀ v ∈ y.items, ∃ s, v = .str s) :
    (y.flatMap (declareName owner)).fault = y.fault := by
  have each : (Yield.collect (declareName owner) y.items).fault = none := by
    refine Yield.fault_collect.mpr fun v hv => ?_
    obtain ⟨s, rfl⟩ := h v hv
    rfl
  obtain ⟨as, f⟩ := y
  simp only [Yield.flatMap] at each ⊢
  cases hc : Yield.collect (declareName owner) as with
  | mk entries fault =>
    rw [hc] at each
    obtain rfl : fault = none := each
    rfl

theorem fault_declarePattern {pattern : Tree} (h : Pattern.Readable pattern) :
    (declarePattern owner pattern).fault = (Pattern.names pattern).fault :=
  fault_declareNames fun _ hv => h.exists_text hv

theorem failsOnlyAt_declarePattern {pattern : Tree} (h : Pattern.Readable pattern) :
    (declarePattern owner pattern).FailsOnlyAt (Pattern.Meets pattern) := by
  intro f hf
  rw [fault_declarePattern h] at hf
  exact h.failsOnlyAt f hf

theorem fault_declareIdentifier {t : Tree} (h : t = .null ∨ ∃ s, t.IsIdentifier s) :
    (declareIdentifier owner t).fault = none := by
  rcases h with rfl | ⟨s, h⟩
  · rfl
  · unfold declareIdentifier
    split
    · rw [h.field]
      exact Yield.fault_append.mpr ⟨rfl, rfl⟩
    · rfl

theorem atNearest_eq (test : Kind → Bool) (bind : Label → Yield Entry)
    (h : ∀ m ∈ ns, m.kind ≠ .compound) : atNearest test ns bind =
      match ns.find? fun m => test m.kind with
      | none => .empty
      | some n => bind n.label := by
  rw [atNearest, nearest?_eq_find? test h]
  cases ns.find? fun m => test m.kind <;> rfl

theorem failsOnlyAt_atNearest {test : Kind → Bool} {bind : Label → Yield Entry}
    (h : ∀ m ∈ ns, m.kind ≠ .compound) (hb : ∀ l, (bind l).FailsOnlyAt P) :
    (atNearest test ns bind).FailsOnlyAt P := by
  rw [atNearest_eq test bind h]
  cases ns.find? fun m => test m.kind with
  | none => exact .of_fault rfl
  | some n => exact hb n.label

theorem failsOnlyAt_elements {Q : Tree → Prop} {t : Tree} {f : Tree → Yield Entry}
    (h : t.IsListOf Q) (hf : ∀ v, Q v → t.Holds v → (f v).FailsOnlyAt P) :
    ((Yield.ofExcept t.elements).flatMap f).FailsOnlyAt P := by
  refine .flatMap (fault_elements h) fun v hv => ?_
  have holds := Tree.mem_ofExcept_elements.mp hv
  exact hf v (h.of_holds holds) holds

theorem declarator_eq {v : Tree} {d : Node} (hd : v.object? = some d)
    (h : Pattern.Readable (d.get "id")) :
    declarator owner v = declarePattern owner (d.get "id") := by
  obtain ⟨n, hn, -⟩ := h [] _ .whole
  have present : d.get "id" ≠ .null := by
    intro none
    rw [none] at hn
    cases hn
  rw [declarator, ← Tree.tree_of_object? hd, Tree.field_eq_of_get present]

theorem catchNames_eq {n c : Node} (hc : (n.get "handler").object? = some c) :
    catchNames n = if (c.get "param").truthy then declarePattern c.label (c.get "param")
      else .empty := by
  obtain ⟨l, fs⟩ := c
  unfold catchNames
  rw [← Tree.tree_of_object? hc]
  cases fs <;> rfl

theorem failsOnlyAt_declarators {n : Node} (h : (n.get "declarations").IsListOf fun v =>
    ∃ d, v.object? = some d ∧ Pattern.Readable (d.get "id")) :
    (declarators n owner).FailsOnlyAt fun u => ∃ v d, (n.get "declarations").Holds v ∧
      v.object? = some d ∧ Pattern.Meets (d.get "id") u := by
  refine .append (.of_fault rfl) (failsOnlyAt_elements h ?_)
  rintro v ⟨d, hd, readable⟩ holds
  rw [declarator_eq hd readable]
  exact (failsOnlyAt_declarePattern readable).imp fun u met => ⟨v, d, holds, hd, met⟩

theorem failsOnlyAt_functionNames {n : Node}
    (own : n.get "id" = .null ∨ ∃ s, (n.get "id").IsIdentifier s)
    (params : (n.get "params").IsListOf Pattern.Readable) :
    (functionNames n).FailsOnlyAt fun u => ∃ p, (n.get "params").Holds p ∧ Pattern.Meets p u := by
  refine .append (.append (.of_fault rfl) ?_) (.of_fault (fault_declareIdentifier own))
  refine failsOnlyAt_elements params fun v readable holds => ?_
  exact (failsOnlyAt_declarePattern readable).imp fun u met => ⟨v, holds, met⟩

theorem failsOnlyAt_catchNames {n c : Node} (hc : (n.get "handler").object? = some c)
    (param : c.get "param" = .null ∨ Pattern.Readable (c.get "param")) :
    (catchNames n).FailsOnlyAt fun u =>
      (c.get "param").truthy = true ∧ Pattern.Meets (c.get "param") u := by
  rw [catchNames_eq hc]
  split
  · next present =>
    have readable : Pattern.Readable (c.get "param") := by
      refine param.resolve_left fun none => ?_
      rw [none] at present
      cases present
    exact (failsOnlyAt_declarePattern readable).imp fun u met => ⟨present, met⟩
  · exact .of_fault rfl

theorem fault_importName {n : Node} (h : ∃ s, (n.get "local").IsIdentifier s) :
    (importName n owner).fault = none := by
  obtain ⟨s, h⟩ := h
  have hn : n.get "local" ≠ .null := by
    rintro hl
    obtain ⟨m, hm, -⟩ := h
    rw [hl] at hm
    cases hm
  unfold importName
  rw [Tree.field_eq_of_get hn]
  refine Yield.fault_append.mpr ⟨rfl, ?_⟩
  simp [bind, Except.bind, pure, Except.pure, h.field, Yield.ofExcept, declareName, Tree.asName,
    Tree.str, Except.map]

end Binding

namespace Event

variable {mode : ScopeMode} {e : Event} {target : Bool}

/-- The nodes around a report, and the handler of a `try`, have their shapes. -/
structure InShape (P : Tree → Prop) (e : Event) : Prop where
  reported : ∃ target, e.kind ∈ e.node.reports target
  path : ∀ m ∈ e.path, m.Shaped P
  handler : ∀ c, e.node.kind = .tryStatement → (e.node.get "handler").node? = some c → c.Shaped P

theorem InShape.of_destructures {P : Tree → Prop} {p : Tree} (h : e.InShape P)
    (takes : e.Destructures p) : P p := by
  obtain ⟨target, hr⟩ := h.reported
  have shape := h.path e.node List.mem_cons_self
  cases takes with
  | @declared v d kind holds declarator =>
    have own : e.node.kind = .variableDeclaration :=
      Node.kind_eq_of_mem_reports (kind ▸ hr) (by decide)
    simp only [Node.Shaped, own] at shape
    obtain ⟨d', hd, sort⟩ := shape.of_holds holds
    obtain rfl : d = d' := Option.some.inj (declarator.symm.trans hd)
    exact sort
  | parameter kind holds =>
    exact (shape.function (shape.isFunction (kind ▸ hr))).2.of_holds holds
  | @caught c kind handles present =>
    have own : e.node.kind = .tryStatement := Node.kind_eq_of_mem_reports (kind ▸ hr) (by decide)
    have handler := h.handler
    simp only [Node.Shaped, Node.WellShaped, own] at shape
    rcases shape with none | ⟨c', hc, clause⟩
    · rw [none] at handles
      cases handles
    · obtain rfl : c = c' := Option.some.inj (handles.symm.trans (Tree.object?_of_node? hc))
      have caught := handler c own hc
      simp only [Node.Shaped, clause] at caught
      refine caught.resolve_left fun none => ?_
      rw [none] at present
      cases present

theorem InShape.failsOnlyAt_catchNames (h : e.InShape Pattern.Readable)
    (hk : e.kind = .tryStatement) : (Binding.catchNames e.node).FailsOnlyAt fun u =>
      ∃ p, e.Destructures p ∧ Pattern.Meets p u := by
  obtain ⟨target, hr⟩ := h.reported
  have kind : e.node.kind = .tryStatement := Node.kind_eq_of_mem_reports (hk ▸ hr) (by decide)
  have shape := h.path e.node List.mem_cons_self
  simp only [Node.Shaped, Node.WellShaped, kind] at shape
  rcases shape with none | ⟨c, hc, clause⟩
  · refine .of_fault ?_
    rw [Binding.catchNames, none]
    rfl
  · have inner := h.handler c kind hc
    simp only [Node.Shaped, clause] at inner
    have handles := Tree.object?_of_node? hc
    refine (Binding.failsOnlyAt_catchNames handles inner).imp ?_
    rintro u ⟨present, met⟩
    exact ⟨_, .caught hk handles present, met⟩

/-- Binding breaks off only at a node that is no pattern where the report takes names. -/
theorem InShape.failsOnlyAt (h : e.InShape Pattern.Readable) : (e.entries mode).FailsOnlyAt fun u =>
    ∃ p, e.Destructures p ∧ Pattern.Meets p u := by
  obtain ⟨shape, around⟩ := List.forall_mem_cons.mp h.path
  have path_ne (m : Node) (hm : m ∈ e.path) : m.kind ≠ .compound := (h.path m hm).ne_compound
  have outer_ne (m : Node) (hm : m ∈ e.outer) : m.kind ≠ .compound := (around m hm).ne_compound
  obtain ⟨target, hr⟩ := h.reported
  unfold entries
  split
  case h_10 => exact .of_fault rfl
  all_goals
    rename_i hk
    rw [hk] at hr
  case h_1 =>
    have kind := Node.kind_eq_of_mem_reports hr (by decide)
    simp only [Node.Shaped, kind] at shape
    refine Binding.failsOnlyAt_atNearest path_ne fun l => ?_
    refine (Binding.failsOnlyAt_declarators shape).imp ?_
    rintro u ⟨v, d, holds, hd, met⟩
    exact ⟨_, .declared hk holds hd, met⟩
  case h_2 =>
    have kind := Node.kind_eq_of_mem_reports hr (by decide)
    have own := (shape.function (by simp [kind, Kind.isFunction])).1
    exact Binding.failsOnlyAt_atNearest outer_ne fun l =>
      .of_fault (Binding.fault_declareIdentifier own)
  case h_3 =>
    obtain ⟨own, params⟩ := shape.function (shape.isFunction hr)
    refine (Binding.failsOnlyAt_functionNames own params).imp ?_
    rintro u ⟨p, holds, met⟩
    exact ⟨p, .parameter hk holds, met⟩
  case h_4 =>
    have kind := Node.kind_eq_of_mem_reports hr (by decide)
    have reported : .anyClass ∈ e.node.reports false :=
      Node.anyClass_mem_reports (by simp [kind, Kind.isClass])
    have own := shape.ofClass reported
    exact Binding.failsOnlyAt_atNearest outer_ne fun l =>
      .of_fault (Binding.fault_declareIdentifier own)
  case h_5 => exact .of_fault (Binding.fault_declareIdentifier (shape.ofClass hr))
  case h_6 => exact h.failsOnlyAt_catchNames hk
  all_goals
    have kind := Node.kind_eq_of_mem_reports hr (by decide)
    simp only [Node.Shaped, Node.WellShaped, kind] at shape
    exact .of_fault (Binding.fault_importName shape)

theorem entries_declaration (kind : e.kind = .variableDeclaration)
    (typed : ∀ m ∈ e.path, m.kind ≠ .compound) : e.entries mode =
      match e.path.find? (fun m => (if (e.node.get "kind").isText "var" then mode.isVarScope
        else Kind.isBlockScope) m.kind) with
      | none => .empty
      | some owner => Binding.declarators e.node owner.label := by
  simp only [entries, kind]
  exact Binding.atNearest_eq _ _ typed

theorem InShape.fault_of_ignored {P : Tree → Prop} (h : e.InShape P) (ignored : e.Ignored mode) :
    (e.entries mode).fault = none := by
  obtain ⟨kind, var, embedded, outside⟩ := ignored
  obtain ⟨target, hr⟩ := h.reported
  have own : e.node.kind = .variableDeclaration :=
    Node.kind_eq_of_mem_reports (kind ▸ hr) (by decide)
  have none : e.path.find? (fun m => m.kind.isFunctionScope) = none := by
    rw [List.find?_eq_none]
    refine List.forall_mem_cons.mpr ⟨by simp [own, Kind.isFunctionScope, Kind.isFunction], ?_⟩
    intro m hm
    simpa [Kind.isFunctionScope] using outside m hm
  have typed (m : Node) (hm : m ∈ e.path) : m.kind ≠ .compound := (h.path m hm).ne_compound
  rw [entries_declaration kind typed, if_pos var, ScopeMode.isVarScope_of_embedded embedded, none]
  rfl

theorem exists_owner (kind : e.kind = .variableDeclaration) (hi : ¬ e.Ignored mode)
    (root : ∃ m ∈ e.path, m.kind = .program) : ∃ m, e.path.find? (fun m =>
      (if (e.node.get "kind").isText "var" then mode.isVarScope else Kind.isBlockScope) m.kind) =
        some m := by
  rw [← Option.isSome_iff_exists, List.find?_isSome]
  obtain ⟨r, hr, program⟩ := root
  split
  · next var =>
    by_cases hoists : mode.hoistsToProgram = true
    · refine ⟨r, hr, ?_⟩
      rw [ScopeMode.isVarScope_of_hoists hoists, program]
      rfl
    · have embedded : mode.hoistsToProgram = false := by simpa using hoists
      by_cases inside : ∃ m ∈ e.outer, m.kind.isFunction = true
      · obtain ⟨m, hm, function⟩ := inside
        refine ⟨m, List.mem_cons_of_mem _ hm, ?_⟩
        rw [ScopeMode.isVarScope_of_embedded embedded]
        exact function
      · refine absurd ⟨kind, var, embedded, fun m hm => ?_⟩ hi
        simpa using fun function => inside ⟨m, hm, function⟩
  · refine ⟨r, hr, ?_⟩
    rw [program]
    rfl

theorem InShape.fault_names (h : e.InShape Pattern.Readable)
    (root : ∃ m ∈ e.path, m.kind = .program) (hi : ¬ e.Ignored mode)
    (ends : (e.entries mode).fault = none) {p : Tree} (takes : e.Destructures p) :
    (Pattern.names p).fault = none := by
  have readable : Pattern.Readable p := h.of_destructures takes
  cases takes with
  | @declared v d kind holds declarator =>
    have typed (m : Node) (hm : m ∈ e.path) : m.kind ≠ .compound := (h.path m hm).ne_compound
    obtain ⟨m, hm⟩ := exists_owner kind hi root
    rw [entries_declaration kind typed, hm] at ends
    have each := (Yield.fault_flatMap.mp (Yield.fault_append.mp ends).2).2 v
      (Tree.mem_ofExcept_elements.mpr holds)
    rwa [Binding.declarator_eq declarator readable, Binding.fault_declarePattern readable] at each
  | parameter kind holds =>
    simp only [entries, kind, Binding.functionNames] at ends
    have each := (Yield.fault_flatMap.mp
      (Yield.fault_append.mp (Yield.fault_append.mp ends).1).2).2 p
      (Tree.mem_ofExcept_elements.mpr holds)
    rwa [Binding.fault_declarePattern readable] at each
  | @caught c kind handles present =>
    simp only [entries, kind] at ends
    rwa [Binding.catchNames_eq handles, if_pos present,
      Binding.fault_declarePattern readable] at ends

end Event

namespace Tree.MadeOf

variable {P : Tree → Prop} {t : Tree} {e : Event}

theorem inShape (h : t.MadeOf (Node.Shaped P)) (he : e ∈ t.events.items) : e.InShape P where
  reported := exists_mem_reports he
  path := h.path (s := ⟨t, false⟩) (by simp) he
  handler := by
    intro c hk hc
    obtain ⟨hn, inner⟩ := h.of_mem_walk (s := ⟨t, false⟩) he
    exact (((inner.of_node? hn).2 _ (Node.mem_slots_handler hk hc)).of_node? hc).1

theorem fault_events (h : t.MadeOf (Node.Shaped P)) : t.events.fault = none :=
  h.fault_walk fun _ shape => ⟨shape.fault_slots, shape.ne_compound⟩

end Tree.MadeOf

end LexicalScope
