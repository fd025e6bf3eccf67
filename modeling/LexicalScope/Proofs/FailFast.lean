import LexicalScope.Proofs.Analysis
import LexicalScope.Proofs.Vocabulary.Check

/-! # What is no pattern fails fast

Where names are bound, a program may have a node of any kind. Binding it raises an error just if
some pattern that is not ignored leads to a node that is no pattern, and the error is about such a
node; else binding succeeds, and so does the analysis. Only a mode that keeps names from the program
ignores anything: a `var` that stands in no function.
-/

namespace LexicalScope

/-- A report that is not ignored takes names from a pattern, and the pattern leads to a node that is
none. -/
def Tree.BreaksAt (t : Tree) (mode : ScopeMode) (u : Tree) : Prop :=
  ∃ e ∈ t.events.items, ¬ e.Ignored mode ∧ ∃ p, e.Destructures p ∧ Pattern.Meets p u

namespace Tree.MadeOf

variable {t : Tree} {mode : ScopeMode}

theorem exists_program (program : t.isProgram = true) {e : Event} (he : e ∈ t.events.items) :
    ∃ m ∈ e.path, m.kind = .program := by
  obtain ⟨root, hn, hk⟩ := exists_node_of_isProgram program
  obtain ⟨root', hn', below⟩ := suffix_path_of_mem_walk he
  obtain rfl : root = root' := Option.some.inj (hn.symm.trans hn')
  exact ⟨root, below.subset List.mem_cons_self, hk⟩

theorem failsOnlyAt (h : t.MadeOf (Node.Shaped Pattern.Readable)) :
    (t.entries mode).FailsOnlyAt (t.BreaksAt mode) := by
  refine .flatMap h.fault_events fun e he => ?_
  have shape := h.inShape he
  by_cases ignored : e.Ignored mode
  · exact .of_fault (shape.fault_of_ignored ignored)
  · refine shape.failsOnlyAt.imp ?_
    rintro u ⟨p, takes, met⟩
    exact ⟨e, he, ignored, p, takes, met⟩

theorem fault_entries (program : t.isProgram = true) (mode : ScopeMode)
    (h : t.MadeOf (Node.Shaped Pattern.Readable)) :
    ((t.entries mode).fault = none ∧ ∀ u, ¬ t.BreaksAt mode u) ∨
      ∃ u, t.BreaksAt mode u ∧ (t.entries mode).fault = some (.unsupportedPattern u) := by
  cases ends : (t.entries mode).fault with
  | none =>
    refine .inl ⟨rfl, ?_⟩
    rintro u ⟨e, he, ignored, p, takes, met⟩
    have shape := h.inShape he
    have names := shape.fault_names (exists_program program he) ignored
      ((Yield.fault_flatMap.mp ends).2 e he) takes
    exact ((shape.of_destructures takes).fault_names.mp names) u met
  | some f =>
    obtain ⟨u, breaks, rfl⟩ := h.failsOnlyAt f ends
    exact .inr ⟨u, breaks, rfl⟩

end Tree.MadeOf

/-- Binding fails just if a pattern that is not ignored leads to what is no pattern, and the error
is about such a node. -/
theorem findGlobals_unsupportedPattern {t : Tree} (program : t.isProgram = true)
    (vocabulary : t.MadeOf (Node.Shaped Pattern.Readable)) :
    (∀ mode table,
      ((∃ u, (bindScopes t mode table).2 = some (.unsupportedPattern u)) ↔
        ∃ u, t.BreaksAt mode u) ∧
      ((bindScopes t mode table).2 = none ∨
        ∃ u, t.BreaksAt mode u ∧ (bindScopes t mode table).2 = some (.unsupportedPattern u))) ∧
    ∀ parser options, ∃ mode, resolveMode t options.hostEmbedded = .ok mode ∧
      ((∃ u, (findGlobals parser (.value t) options).outcome = .error (.unsupportedPattern u)) ↔
        ∃ u, t.BreaksAt mode u) ∧
      ((∃ gs, (findGlobals parser (.value t) options).outcome = .ok gs) ∨
        ∃ u, t.BreaksAt mode u ∧
          (findGlobals parser (.value t) options).outcome = .error (.unsupportedPattern u)) := by
  refine ⟨fun mode table => ?_, fun parser options => ?_⟩
  · have fault : (bindScopes t mode table).2 = (t.entries mode).fault := rfl
    rw [fault]
    rcases vocabulary.fault_entries program mode with ⟨ends, none⟩ | ⟨u, breaks, hf⟩
    · exact ⟨by simp [ends, none], .inl ends⟩
    · exact ⟨iff_of_true ⟨u, hf⟩ ⟨u, breaks⟩, .inr ⟨u, breaks, hf⟩⟩
  · obtain ⟨root, hn, hk⟩ := Tree.exists_node_of_isProgram program
    have shape := (vocabulary.of_node? hn).1.wellShaped (by rw [hk]; rfl) (by simp [hk])
    obtain ⟨strict, resolved⟩ := resolveMode_ok hn hk shape options.hostEmbedded
    refine ⟨_, resolved, ?_⟩
    rcases vocabulary.fault_entries program _ with ⟨ends, none⟩ | ⟨u, breaks, hf⟩
    · obtain ⟨a, gs, -, group, -⟩ := Analysis.exists_of_named resolved ends fun e he =>
        vocabulary.exists_text he
      have succeeds : (findGlobals parser (.value t) options).outcome = .ok gs :=
        Analysis.outcome_findGlobals.mpr ⟨program, a, group⟩
      exact ⟨by simp [succeeds, none], .inl ⟨gs, succeeds⟩⟩
    · have fails : (findGlobals parser (.value t) options).outcome =
          .error (.unsupportedPattern u) := outcome_findGlobals_of_fault program resolved hf
      exact ⟨iff_of_true ⟨u, fails⟩ ⟨u, breaks⟩, .inr ⟨u, breaks, fails⟩⟩

/-- The expression `a.b` -/
def memberExpression : Node :=
  ⟨7, [("type", .str "MemberExpression"), ("object", .identifier 8 "a"),
    ("property", .identifier 9 "b"), ("computed", .atom (.bool false))]⟩

/-- The list `[a.b]` where a pattern should stand. -/
def memberPattern : Node :=
  ⟨5, [("type", .str "ArrayPattern"), ("elements", .arr 6 [memberExpression.tree])]⟩

def memberDeclarator : Node :=
  ⟨4, [("type", .str "VariableDeclarator"), ("id", memberPattern.tree),
    ("init", .identifier 10 "c")]⟩

def memberDeclaration : Node :=
  ⟨2, [("type", .str "VariableDeclaration"), ("kind", .str "var"),
    ("declarations", .arr 3 [memberDeclarator.tree])]⟩

/-- The tree of `var [a.b] = c;`, which is no program of the language. -/
def memberProgram : Node :=
  ⟨0, [("type", .str "Program"), ("body", .arr 1 [memberDeclaration.tree])]⟩

theorem memberExpression_hasPart : memberPattern.HasPart memberExpression.tree :=
  .element rfl ⟨_, rfl, List.mem_cons_self⟩ rfl

theorem memberPattern_readable : Pattern.Readable memberPattern.tree := by
  refine .of_parts rfl rfl ⟨_, rfl⟩ fun v hv => ?_
  obtain ⟨⟨vs, list, hm⟩, -⟩ := (Node.hasPart_array rfl).mp hv
  obtain rfl := Except.ok.inj list
  obtain rfl := List.mem_singleton.mp hm
  exact .of_position rfl (by decide) rfl rfl

theorem memberProgram_shaped : memberProgram.tree.MadeOf (Node.Shaped Pattern.Readable) := by
  have declarator : memberDeclarator.tree.MadeOf (Node.Shaped Pattern.Readable) :=
    (Tree.inVocabulary_sound 6 (by decide) rfl).readable
  have declaration : memberDeclaration.tree.MadeOf (Node.Shaped Pattern.Readable) := by
    refine .node rfl (.inr ⟨3, _, rfl, ?_⟩) ?_
    · exact List.forall_mem_singleton.mpr ⟨memberDeclarator, rfl, memberPattern_readable⟩
    · intro c hc
      rcases List.mem_cons.mp hc with rfl | hc
      · exact .nothing rfl
      · obtain rfl := List.mem_singleton.mp hc
        exact declarator
  refine .node rfl (.inr ⟨1, _, rfl, List.forall_mem_singleton.mpr ⟨_, rfl⟩⟩) fun c hc => ?_
  obtain rfl := List.mem_singleton.mp hc
  exact declaration

theorem memberProgram_destructures : ∃ e ∈ memberProgram.tree.events.items,
    (∀ mode : ScopeMode, mode.hoistsToProgram = true → ¬ e.Ignored mode) ∧
      e.Destructures memberPattern.tree ∧
      Pattern.Meets memberPattern.tree memberExpression.tree := by
  have ends := memberProgram_shaped.fault_events
  have visits : Visits [] ⟨memberProgram.tree, false⟩ memberDeclaration [memberProgram] :=
    visits_child rfl rfl List.mem_cons_self ends
  refine ⟨_, visits.mem_walk ends (k := .variableDeclaration) fun _ => List.mem_cons_self, ?_, ?_,
    _, _, .part .whole rfl memberExpression_hasPart, rfl, by decide, rfl⟩
  · rintro mode hoists ⟨-, -, embedded, -⟩
    rw [hoists] at embedded
    cases embedded
  · exact .declared (d := memberDeclarator) rfl ⟨_, rfl, List.mem_cons_self⟩ rfl

/-- Where names hoist to the program, `var [a.b] = c;` is an error. -/
theorem findGlobals_unsupportedPattern_member : memberProgram.tree.isProgram = true ∧
    memberProgram.tree.MadeOf (Node.Shaped Pattern.Readable) ∧
    memberProgram.tree.BreaksAt ⟨false, false, false⟩ memberExpression.tree ∧
    (∀ table, ∃ u, (bindScopes memberProgram.tree ⟨false, false, false⟩ table).2 =
      some (.unsupportedPattern u)) ∧
    ∃ u, (findGlobals (fun _ => .returned .null false) (.value memberProgram.tree) {}).outcome =
      .error (.unsupportedPattern u) := by
  have program : memberProgram.tree.isProgram = true := by decide
  have breaks : memberProgram.tree.BreaksAt ⟨false, false, false⟩ memberExpression.tree := by
    obtain ⟨e, he, ignored, takes, met⟩ := memberProgram_destructures
    exact ⟨e, he, ignored _ rfl, _, takes, met⟩
  obtain ⟨binding, analysis⟩ := findGlobals_unsupportedPattern program memberProgram_shaped
  obtain ⟨mode, resolved, raises, -⟩ := analysis (fun _ => .returned .null false) {}
  obtain rfl : ⟨false, false, false⟩ = mode := Except.ok.inj resolved
  exact ⟨program, memberProgram_shaped, breaks,
    fun table => (binding _ table).1.mpr ⟨_, breaks⟩, raises.mpr ⟨_, breaks⟩⟩

/-- A `var` in no function has no owner in an embedded script, so its target is not looked at. -/
theorem not_findGlobals_unsupportedPattern_embedded : memberProgram.tree.isProgram = true ∧
    memberProgram.tree.MadeOf (Node.Shaped Pattern.Readable) ∧
    (∃ e ∈ memberProgram.tree.events.items, ∃ p u, e.Destructures p ∧ Pattern.Meets p u) ∧
    (∀ table, (bindScopes memberProgram.tree ⟨false, false, true⟩ table).2 = none) ∧
    ∃ gs, (findGlobals (fun _ => .returned .null false) (.value memberProgram.tree)
      { hostEmbedded := true }).outcome = .ok gs := by
  obtain ⟨e, he, -, takes, met⟩ := memberProgram_destructures
  have ends : (memberProgram.tree.entries ⟨false, false, true⟩).fault = none :=
    Option.isNone_iff_eq_none.mp (by decide +kernel)
  have resolved : resolveMode memberProgram.tree true = .ok ⟨false, false, true⟩ := rfl
  obtain ⟨a, gs, -, group, -⟩ := Analysis.exists_of_named resolved ends fun e he =>
    memberProgram_shaped.exists_text he
  exact ⟨by decide, memberProgram_shaped, ⟨e, he, _, _, takes, met⟩, fun _ => ends, gs,
    Analysis.outcome_findGlobals.mpr ⟨by decide, a, group⟩⟩

end LexicalScope
