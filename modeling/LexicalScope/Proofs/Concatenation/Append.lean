import LexicalScope.Proofs.Concatenation.Law
import LexicalScope.Proofs.Reference.Partition

/-! # Programs in a row

The globals of two programs in a row follow from those of the two. To put `var` declarations of all
that a program reports before it binds every identifier that it reports, and only `this` is left.
-/

namespace LexicalScope

namespace Node

def named (i : Label) (x : String) : Node := ⟨i, [("type", .str "Identifier"), ("name", .str x)]⟩

def varDeclarator (d i : Label) (x : String) : Node :=
  ⟨d, [("type", .str "VariableDeclarator"), ("id", (named i x).tree), ("init", .null)]⟩

/-- The declaration `var x`, with any labels. -/
def varDeclaration (l m d i : Label) (x : String) : Node :=
  ⟨l, [("type", .str "VariableDeclaration"), ("kind", .str "var"),
    ("declarations", .arr m [(varDeclarator d i x).tree])]⟩

end Node

def Tree.DeclaresVar (t : Tree) (x : String) : Prop :=
  ∃ l m d i, t = (Node.varDeclaration l m d i x).tree

section

variable {l m d i : Label} {x : String}

theorem events_varDeclaration : (Node.varDeclaration l m d i x).tree.events = .ofList [
    ⟨.variablePattern, .named i x, [.varDeclarator d i x, .varDeclaration l m d i x]⟩,
    ⟨.variableDeclarator, .varDeclarator d i x, [.varDeclaration l m d i x]⟩,
    ⟨.variableDeclaration, .varDeclaration l m d i x, []⟩] := by
  have declaration : (Node.varDeclaration l m d i x).slots =
      .ofList [⟨.str "var", false⟩, ⟨(Node.varDeclarator d i x).tree, false⟩] := rfl
  have declarator : (Node.varDeclarator d i x).slots =
      .ofList [⟨(Node.named i x).tree, true⟩, ⟨.null, false⟩] := rfl
  rw [Tree.events, walk_of_node?_eq_some (n := .varDeclaration l m d i x) rfl, declaration,
    Yield.flatMap_ofList, Yield.collect_cons, Yield.collect_cons, walk_of_node?_eq_none rfl,
    walk_of_node?_eq_some (n := .varDeclarator d i x) rfl, declarator, Yield.flatMap_ofList,
    Yield.collect_cons, Yield.collect_cons, walk_of_node?_eq_none (s := ⟨.null, false⟩) rfl,
    walk_of_node?_eq_some (n := .named i x) rfl]
  rfl

theorem entries_varDeclaration (p : ProgramFrame) {mode : ScopeMode}
    (h : mode.hoistsToProgram = true) : p.entries mode (Node.varDeclaration l m d i x).tree =
      .ofList [.scope p.label, .scope p.label, .name p.label (.str x)] := by
  have nearest : nearest? mode.isVarScope [.varDeclaration l m d i x, p.node []] =
      .ok (some (p.node [])) := by
    have kind : (Node.varDeclaration l m d i x).kind = .variableDeclaration := rfl
    simp [nearest?, ScopeMode.isVarScope_of_hoists h, Kind.isScope, kind, Kind.isFunction]
  have declarators : Binding.declarators (.varDeclaration l m d i x) p.label =
      .ofList [.scope p.label, .scope p.label, .name p.label (.str x)] := by
    have names : Pattern.names (Node.named i x).tree = .ofList [.str x] :=
      Pattern.names_of_isIdentifier rfl
    have list : ((Node.varDeclaration l m d i x).get "declarations").elements =
        .ok [(Node.varDeclarator d i x).tree] := rfl
    have target : (Node.varDeclarator d i x).tree.field "id" = .ok (Node.named i x).tree := rfl
    simp [Binding.declarators, list, Yield.ofExcept, Binding.declarator, target,
      Binding.declarePattern, names, Binding.declareName]
    rfl
  have entries : Event.entries mode (Event.below [p.node []]
      ⟨.variableDeclaration, .varDeclaration l m d i x, []⟩) =
      Binding.atNearest mode.isVarScope [.varDeclaration l m d i x, p.node []]
        (Binding.declarators (.varDeclaration l m d i x)) := rfl
  rw [ProgramFrame.entries, events_varDeclaration, Yield.flatMap_ofList, Yield.collect_cons,
    Yield.collect_cons, Yield.collect_cons, entries, Binding.atNearest, nearest]
  change .empty ++ (.empty ++ (Binding.declarators _ p.label ++ .empty)) = _
  rw [declarators]
  rfl

end

namespace ProgramFrame

variable (p : ProgramFrame) {vars : List Tree}

theorem exists_variables (h : ∀ v ∈ vars, ∃ x, v.DeclaresVar x) :
    ∃ a : Analysis (p.program vars) false,
    a.free = [] ∧ ∀ v ∈ vars, ∀ x, v.DeclaresVar x → a.table.declares p.label (.str x) = true := by
  have prologue : prologueIsStrict vars = .ok false := by
    cases vars with
    | nil => rfl
    | cons v vars =>
      obtain ⟨x, l, m, d, i, rfl⟩ := h v List.mem_cons_self
      rfl
  have resolved : resolveMode (p.program vars) false =
      .ok ⟨(p.program []).isModule, false, false⟩ := by
    rw [resolveMode_program, prologue]
    rfl
  have hoists : ScopeMode.hoistsToProgram ⟨(p.program []).isModule, false, false⟩ = true := by
    simp [ScopeMode.hoistsToProgram]
  have bound : ((p.program vars).entries ⟨(p.program []).isModule, false, false⟩).fault = none := by
    rw [entries_program, Yield.fault_collect]
    intro v hv
    obtain ⟨x, l, m, d, i, rfl⟩ := h v hv
    rw [entries_varDeclaration p hoists]
    rfl
  have classified (table : ScopeTable) : freeReferences (p.program vars) table = .ok [] := by
    have none : (p.program vars).events.flatMap (Event.free table) = .empty := by
      rw [events_program, Yield.flatMap_append, Yield.flatMap_map, Yield.flatMap_collect,
        Yield.flatMap_single, Yield.collect_eq_empty]
      · rfl
      · intro v hv
        obtain ⟨x, l, m, d, i, rfl⟩ := h v hv
        rw [events_varDeclaration]
        rfl
    rw [freeReferences, none]
    rfl
  obtain ⟨a, hm, none⟩ : ∃ a : Analysis (p.program vars) false,
      a.mode = ⟨(p.program []).isModule, false, false⟩ ∧ a.free = [] :=
    ⟨⟨_, _, [], resolved, Prod.ext rfl bound, classified _⟩, rfl, rfl⟩
  refine ⟨a, none, ?_⟩
  rintro v hv x ⟨l, m, d, i, rfl⟩
  rw [entries_program] at bound
  rw [a.table_eq, hm, ScopeTable.declares_foldl_enter, entries_program,
    Yield.items_collect (Yield.fault_collect.mp bound)]
  refine .inr ⟨.str x, List.mem_flatMap.mpr ⟨_, hv, ?_⟩, rfl⟩
  rw [entries_varDeclaration p hoists]
  simp

theorem textNames_variables (a : Analysis (p.program vars) false)
    (h : ∀ v ∈ vars, ∃ x, v.DeclaresVar x) (name : (p.node vars).TextName) :
    (p.program vars).TextNames := by
  intro e he
  rcases (p.mem_events a.fault_events).mp he with ⟨v, hv, f, hf, rfl⟩ | rfl
  · obtain ⟨x, l, m, d, i, rfl⟩ := h v hv
    rw [events_varDeclaration] at hf
    simp only [Yield.items_ofList, List.mem_cons, List.not_mem_nil, or_false] at hf
    rcases hf with rfl | rfl | rfl
    · intro v hv
      exact ⟨x, (Except.ok.inj hv).symm⟩
    · intro v hv
      cases hv
    · intro v hv
      cases hv
  · exact name

/-- After declarations of all identifiers that a program reports, only `this` is left of it. -/
theorem exists_after_variables {hostEmbedded : Bool} (host : hostEmbedded = false) {bs : List Tree}
    {gb : List FreeVariable} (b : Analysis (p.program bs) hostEmbedded)
    (group : groupReferences b.free = .ok gb) (nodup : (p.program (vars ++ bs)).labels.Nodup)
    (names : (p.program bs).TextNames) (declare : ∀ v ∈ vars, ∃ x, v.DeclaresVar x)
    (covers : ∀ g ∈ gb, (∃ r ∈ g.members, r.isThis = false) →
      ∃ v ∈ vars, ∃ x, g.name = .str x ∧ v.DeclaresVar x) :
    (p.program (vars ++ bs)).TextNames ∧ ∃ c : Analysis (p.program (vars ++ bs)) hostEmbedded,
      c.free = (b.free.filter (·.isThis)).map (.rooted (p.program (vars ++ bs))) := by
  subst host
  obtain ⟨a, none, declares⟩ := p.exists_variables declare
  have root : (p.node vars).TextName :=
    p.textName_node (names _ ((p.mem_events b.fault_events).mpr (.inr rfl)))
  have names' := p.textNames_variables a declare root
  obtain ⟨c⟩ := p.nonempty_analysis_append a b names' names
  refine ⟨p.textNames_append a b names' names, c, ?_⟩
  rw [p.free_append a b c nodup, none, List.filter_nil, List.map_nil, List.nil_append]
  congr 1
  apply List.filter_congr
  intro r hr
  cases this : r.isThis with
  | true => simp [leaves, this]
  | false =>
    obtain ⟨g, hg, hm, hn⟩ :=
      exists_mem_groupByName (fun r hr => b.text_of_mem_free names hr) group hr
    obtain ⟨v, hv, x, hx, hd⟩ := covers g hg ⟨r, hm, this⟩
    have declared : a.table.declaresName (p.node []) r.name = true := by
      rw [hn, hx]
      exact declares v hv x hd
    simp [leaves, this, declared]

end ProgramFrame

/-- Two lists in a row report what either reports, without the identifiers that the top of the other
declares. -/
theorem findGlobals_append (parser : Parser) (options : GlobalsOptions) (p : ProgramFrame)
    {bs : List Tree} {gb : List FreeVariable} (namesB : (p.program bs).TextNames)
    (succeedsB : (findGlobals parser (.value (p.program bs)) options).outcome = .ok gb) :
    (∀ as ga, (p.program (as ++ bs)).labels.Nodup → (p.program as).TextNames →
      (findGlobals parser (.value (p.program as)) options).outcome = .ok ga →
      ∃ gs, (findGlobals parser (.value (p.program (as ++ bs))) options).outcome = .ok gs ∧
        ∃ (a : Analysis (p.program as) options.hostEmbedded)
          (b : Analysis (p.program bs) options.hostEmbedded)
          (c : Analysis (p.program (as ++ bs)) options.hostEmbedded),
          groupReferences a.free = .ok ga ∧ groupReferences b.free = .ok gb ∧
          groupReferences c.free = .ok gs ∧
          c.free = (a.free.filter (p.leaves b.table)).map (.rooted (p.program (as ++ bs))) ++
            (b.free.filter (p.leaves a.table)).map (.rooted (p.program (as ++ bs)))) ∧
    (∀ as l i q u,
      ((l, .key "body" :: .index i :: q, u) ∈ (p.program as).places [] →
        (l, .key "body" :: .index i :: q, u) ∈ (p.program (as ++ bs)).places []) ∧
      ((l, .key "body" :: .index i :: q, u) ∈ (p.program bs).places [] ↔
        (l, .key "body" :: .index (as.length + i) :: q, u) ∈ (p.program (as ++ bs)).places [])) ∧
    (options.hostEmbedded = false → ∀ vars, (p.program (vars ++ bs)).labels.Nodup →
      (∀ v ∈ vars, ∃ x, v.DeclaresVar x) →
      (∀ g ∈ gb, (∃ r ∈ g.members, r.isThis = false) →
        ∃ v ∈ vars, ∃ x, g.name = .str x ∧ v.DeclaresVar x) →
      ∃ gs, (findGlobals parser (.value (p.program (vars ++ bs))) options).outcome = .ok gs ∧
        ∃ (b : Analysis (p.program bs) options.hostEmbedded)
          (c : Analysis (p.program (vars ++ bs)) options.hostEmbedded),
          groupReferences b.free = .ok gb ∧ groupReferences c.free = .ok gs ∧
          c.free = (b.free.filter (·.isThis)).map (.rooted (p.program (vars ++ bs)))) := by
  obtain ⟨-, b, groupB⟩ := Analysis.outcome_findGlobals.mp succeedsB
  refine ⟨?rows, ?places, ?vars⟩
  case rows =>
    intro as ga nodup namesA succeedsA
    obtain ⟨-, a, groupA⟩ := Analysis.outcome_findGlobals.mp succeedsA
    obtain ⟨c⟩ := p.nonempty_analysis_append a b namesA namesB
    obtain ⟨gs, group⟩ := c.exists_group (p.textNames_append a b namesA namesB)
    exact ⟨gs, Analysis.outcome_findGlobals.mpr ⟨p.isProgram_program, c, group⟩, a, b, c, groupA,
      groupB, group, p.free_append a b c nodup⟩
  case places =>
    intro as l i q u
    simp only [ProgramFrame.mem_places_program]
    constructor
    · rintro ⟨x, hx, hm⟩
      exact ⟨x, by rw [List.getElem?_append_left (List.getElem?_eq_some_iff.mp hx).1, hx], hm⟩
    · rw [List.getElem?_append_right (Nat.le_add_right _ _), Nat.add_sub_cancel_left]
  case vars =>
    intro host vars nodup declare covers
    obtain ⟨names, c, free⟩ := p.exists_after_variables host b groupB nodup namesB declare covers
    obtain ⟨gs, group⟩ := c.exists_group names
    exact ⟨gs, Analysis.outcome_findGlobals.mpr ⟨p.isProgram_program, c, group⟩, b, c, groupB,
      group, free⟩

def scriptFrame : ProgramFrame where
  label := 0
  list := 1
  before := [("type", .str "Program")]
  after := []
  typed := rfl
  noBody := by decide
  bare := by simp [Node.memberSlots, metadataKeys]

/-- The statements `var x; this`. -/
def varThis : List Tree :=
  [(Node.varDeclaration 2 3 4 5 "x").tree, .obj 6 [("type", .str "ExpressionStatement"),
    ("expression", .obj 7 [("type", .str "ThisExpression")])]]

def useX : List Tree :=
  [.obj 8 [("type", .str "ExpressionStatement"), ("expression", (Node.named 9 "x").tree)]]

/-- The script `var x; this; x` reports `this` only, and `var x; x` reports nothing. -/
theorem findGlobals_append_var : ∃ gs, (findGlobals (fun _ => .returned .null false)
    (.value (scriptFrame.program (varThis ++ useX))) {}).outcome = .ok gs ∧ gs.length = 1 ∧
    (∃ (a : Analysis (scriptFrame.program varThis) false)
      (b : Analysis (scriptFrame.program useX) false)
      (c : Analysis (scriptFrame.program (varThis ++ useX)) false),
      groupReferences c.free = .ok gs ∧ c.free =
        (a.free.filter (scriptFrame.leaves b.table)).map
          (.rooted (scriptFrame.program (varThis ++ useX))) ++
        (b.free.filter (scriptFrame.leaves a.table)).map
          (.rooted (scriptFrame.program (varThis ++ useX)))) ∧
    ∃ (b : Analysis (scriptFrame.program useX) false)
      (c : Analysis (scriptFrame.program (varThis.take 1 ++ useX)) false),
      c.free = (b.free.filter (·.isThis)).map
        (.rooted (scriptFrame.program (varThis.take 1 ++ useX))) := by
  obtain ⟨ga, succeedsA, -⟩ : ∃ ga, (findGlobals (fun _ => .returned .null false)
      (.value (scriptFrame.program varThis)) {}).outcome = .ok ga ∧ ga.length = 1 :=
    exists_ok_of_map (by decide +kernel)
  obtain ⟨gb, succeedsB, -⟩ : ∃ gb, (findGlobals (fun _ => .returned .null false)
      (.value (scriptFrame.program useX)) {}).outcome = .ok gb ∧ gb.length = 1 :=
    exists_ok_of_map (by decide +kernel)
  obtain ⟨gs, succeeds, one⟩ : ∃ gs, (findGlobals (fun _ => .returned .null false)
      (.value (scriptFrame.program (varThis ++ useX))) {}).outcome = .ok gs ∧ gs.length = 1 :=
    exists_ok_of_map (by decide +kernel)
  have named : (findGlobals (fun _ => .returned .null false)
      (.value (scriptFrame.program useX)) {}).outcome.toOption.all fun gb =>
        gb.all fun g => g.name = .str "x" := by decide +kernel
  rw [succeedsB] at named
  obtain ⟨rows, -, vars⟩ := findGlobals_append (fun _ => .returned .null false) {} scriptFrame
    (by decide +kernel) succeedsB
  obtain ⟨gs', succeeds', a, b, c, -, -, group, law⟩ :=
    rows varThis ga (by decide) (by decide +kernel) succeedsA
  obtain rfl := Except.ok.inj (succeeds.symm.trans succeeds')
  have declares : (Node.varDeclaration 2 3 4 5 "x").tree.DeclaresVar "x" := ⟨2, 3, 4, 5, rfl⟩
  obtain ⟨-, -, b', c', -, -, law'⟩ := vars rfl (varThis.take 1) (by decide)
    (fun v hv => ⟨"x", by rwa [List.mem_singleton.mp hv]⟩)
    (fun g hg _ => ⟨_, List.mem_singleton_self _, "x",
      by simpa using List.all_eq_true.mp named g hg, declares⟩)
  exact ⟨gs, succeeds, one, ⟨a, b, c, group, law⟩, b', c', law'⟩

end LexicalScope
