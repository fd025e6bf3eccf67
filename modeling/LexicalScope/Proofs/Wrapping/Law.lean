import LexicalScope.Proofs.Concatenation.Append
import LexicalScope.Proofs.Fragment.Binding
import LexicalScope.Proofs.Fragment.Capture
import LexicalScope.Proofs.Wrapping.Frame

/-! # What wrapping leaves free

Where names hoist to the program, a name that statements declare at the top of the program they
declare at the function or at its body once they are wrapped, so the same references meet their
declarations. Only `this` and `arguments` can tell: a function that is no arrow binds them.
-/

namespace LexicalScope

variable {xs : List Tree} {mode : ScopeMode} {around around' : List Node}
  {table table' : ScopeTable} {e : Event} {x : Tree}

/-- A table declares just what some statements bind below some nodes. -/
def ScopeTable.Records (table : ScopeTable) (mode : ScopeMode) (xs : List Tree)
    (around : List Node) : Prop :=
  ∀ owner y, table.declares owner y = true ↔ ∃ z, z.key = y.key ∧
    ∃ x ∈ xs, ∃ e ∈ x.events.items, (e.below around).Binds mode owner z

theorem ScopeTable.records_of_bound {t : Tree} (bound : bindScopes t mode .empty = (table, none))
    (reported : ∀ x ∈ xs, ∀ e ∈ x.events.items, e.below around ∈ t.events.items)
    (others : ∀ e ∈ t.events.items, (∃ x ∈ xs, ∃ f ∈ x.events.items, f.below around = e) ∨
      ∀ owner z, ¬ e.Binds mode owner z) : table.Records mode xs around := by
  intro owner y
  rw [declares_iff_binds bound]
  refine exists_congr fun z => and_congr_right fun _ => ?_
  constructor
  · rintro ⟨e, he, binds⟩
    rcases others e he with ⟨x, hx, f, hf, rfl⟩ | none
    · exact ⟨x, hx, f, hf, binds⟩
    · exact absurd binds (none owner z)
  · rintro ⟨x, hx, f, hf, binds⟩
    exact ⟨_, reported x hx f hf, binds⟩

theorem Event.Declared.below (h : (e.below around).Declared table)
    (records : table.Records mode xs around) (records' : table'.Records mode xs around')
    (hosts : mode.Hosts around') (ends : ∀ x ∈ xs, x.events.fault = none)
    (apart : ∀ m ∈ around, m.label ∉ xs.flatMap Tree.labels) :
    (e.below around').Declared table' := by
  obtain ⟨y, hy, m, hm, hd⟩ := h
  obtain ⟨z, hz, v, hv, f, hf, binds⟩ := (records _ _).mp hd
  have declares {l : Label} (h : (f.below around').Binds mode l z) :
      table'.declares l y = true := (records' _ _).mpr ⟨z, hz, v, hv, f, hf, h⟩
  have beyond {m : Node} (hm : m ∈ around') (h : (f.below around').Binds mode m.label z) :
      (e.below around').Declared table' :=
    ⟨y, hy, m, List.mem_append_right e.path hm, declares h⟩
  -- a declaration that finds its owner among the nodes around finds one among any such nodes
  by_cases own : f.Binds mode m.label z
  · rcases own.below around' with binds | ⟨m, hm, binds⟩
    · rw [path_below] at hm
      rcases List.mem_append.mp hm with hm | hm
      · exact ⟨y, hy, m, List.mem_append_left around' hm, declares binds⟩
      · have inside : m.label ∈ v.labels := by
          rcases own.owner_mem with ⟨n, hn, hl⟩ | hl
          · exact hl ▸ label_mem_of_mem_path hf (ends v hv) hn
          · exact labels_subset_of_mem_walk hf hl
        exact absurd (List.mem_flatMap.mpr ⟨v, hv, inside⟩) (apart m hm)
    · exact beyond hm binds
  · obtain ⟨m, hm, binds⟩ := binds.beyond own hosts
    exact beyond hm binds

theorem Event.fault_free_of_text (compound : ∀ m ∈ e.path, m.kind ≠ .compound)
    (text : e.IsReference → ∃ s, e.node.tree.field "name" = .ok (.str s)) :
    (e.free table).fault = none := by
  have identifier (hr : e.IsReference) : (e.freeIdentifier table).fault = none := by
    obtain ⟨s, hs⟩ := text hr
    exact fault_freeIdentifier_of_text hs
  unfold free
  split
  · next hk => exact identifier (.inl hk)
  · next hk =>
    obtain ⟨b, hb⟩ := insideDeclarator_ok (List.forall_mem_cons.mp compound).2
    rw [hb]
    cases b with
    | true => rfl
    | false => exact identifier (.inr ⟨hk, (insideDeclarator_eq_ok hb).mp rfl⟩)
  · next hk =>
    obtain ⟨b, hb⟩ : ∃ b, bindsThis e.chain = .ok b :=
      bindsThis_ok fun m hm => compound m (mem_chain.mp hm)
    rw [freeThis, hb]
    cases b <;> exact Yield.fault_ofExcept.mpr ⟨_, rfl⟩
  · rfl

def FreeReference.moved (around : List Node) (r : FreeReference) : FreeReference :=
  { r with chain := around.reverse.map Node.tree ++ r.chain.tail }

namespace Wrapper

variable (w : Wrapper xs) (p q : ProgramFrame) {hostEmbedded : Bool}

def path (q : ProgramFrame) : List Node := w.nodes ++ [q.node [w.tree]]

/-- The references that the function binds and a program does not. -/
def drops (r : FreeReference) : Bool :=
  w.function.kind == .functionExpression && (r.isThis || r.name.isText "arguments")

variable {w p q}

theorem kind_ne_compound_path : ∀ m ∈ w.path q, m.kind ≠ .compound :=
  List.forall_mem_append.mpr ⟨w.kind_ne_compound, by simp⟩

theorem events_program : (q.program [w.tree]).events =
    (Yield.collect Tree.events xs).map (Event.below (w.path q)) ++
      .ofList (w.reports.map (Event.below [q.node [w.tree]]) ++
        [⟨.program, q.node [w.tree], []⟩]) := by
  rw [q.events_program, Yield.collect_cons, Yield.collect_nil, Yield.append_empty, w.events_tree,
    Yield.map_append, Yield.map_below_below, Yield.append_assoc]
  rfl

theorem fault_events (ends : ∀ x ∈ xs, x.events.fault = none) :
    (q.program [w.tree]).events.fault = none := by
  rw [events_program, Yield.fault_append, Yield.fault_map, Yield.fault_collect]
  exact ⟨ends, rfl⟩

theorem items_events (ends : ∀ x ∈ xs, x.events.fault = none) :
    (q.program [w.tree]).events.items =
      (xs.flatMap fun x => x.events.items).map (Event.below (w.path q)) ++
        (w.reports.map (Event.below [q.node [w.tree]]) ++ [⟨.program, q.node [w.tree], []⟩]) := by
  have inner : ((Yield.collect Tree.events xs).map (Event.below (w.path q))).fault = none := by
    rw [Yield.fault_map, Yield.fault_collect]
    exact ends
  rw [events_program, Yield.items_append _ inner, Yield.items_map, Yield.items_collect ends,
    Yield.items_ofList]

theorem mem_events (ends : ∀ x ∈ xs, x.events.fault = none) :
    e ∈ (q.program [w.tree]).events.items ↔
      (∃ x ∈ xs, ∃ f ∈ x.events.items, f.below (w.path q) = e) ∨
      (∃ f ∈ w.reports, f.below [q.node [w.tree]] = e) ∨ e = ⟨.program, q.node [w.tree], []⟩ := by
  rw [items_events ends]
  simp only [List.mem_append, List.mem_map, List.mem_flatMap, List.mem_singleton]
  refine or_congr_left ⟨?_, ?_⟩
  · rintro ⟨f, ⟨x, hx, hf⟩, he⟩
    exact ⟨x, hx, f, hf, he⟩
  · rintro ⟨x, hx, f, hf, he⟩
    exact ⟨f, ⟨x, hx, hf⟩, he⟩

theorem records (ends : ∀ x ∈ xs, x.events.fault = none)
    (bound : bindScopes (q.program [w.tree]) mode .empty = (table, none)) :
    table.Records mode xs (w.path q) := by
  apply ScopeTable.records_of_bound bound
  · intro x hx e he
    exact (mem_events ends).mpr (.inl ⟨x, hx, e, he, rfl⟩)
  · intro e he
    refine ((mem_events ends).mp he).imp_right ?_
    rintro (⟨f, hf, rfl⟩ | rfl) owner z binds
    · exact w.not_binds_reports hf binds
    · cases binds <;> simp_all

end Wrapper

theorem ProgramFrame.hoistsToProgram_eq_of_source {p q : ProgramFrame} {ys : List Tree}
    {mode' : ScopeMode} {hostEmbedded : Bool}
    (source : (q.program []).isModule = (p.program []).isModule)
    (resolved : resolveMode (p.program xs) hostEmbedded = .ok mode)
    (resolved' : resolveMode (q.program ys) hostEmbedded = .ok mode') :
    mode'.hoistsToProgram = mode.hoistsToProgram := by
  have same : (q.program ys).isModule = (p.program xs).isModule :=
    q.isModule_program.trans (source.trans p.isModule_program)
  rw [hoistsToProgram_of_resolveMode resolved, hoistsToProgram_of_resolveMode resolved', same]

theorem ProgramFrame.records {p : ProgramFrame}
    (bound : bindScopes (p.program xs) mode .empty = (table, none)) :
    table.Records mode xs [p.node xs] := by
  have ends : (p.program xs).events.fault = none := (Yield.fault_flatMap.mp (Prod.mk.inj bound).2).1
  apply ScopeTable.records_of_bound bound
  · intro x hx e he
    exact (p.mem_events ends).mpr (.inl ⟨x, hx, e, he, rfl⟩)
  · intro e he
    refine ((p.mem_events ends).mp he).imp_right ?_
    rintro rfl owner z binds
    cases binds <;> simp_all

namespace Wrapper

variable {w : Wrapper xs} {p q : ProgramFrame}

theorem capturesAlong_program {n : Node} {r : FreeReference} :
    ScopeTable.empty.capturesAlong r [n, p.node xs] = false := by
  simp [ScopeTable.capturesAlong, ScopeTable.capturesFrom, Initializes, Kind.declaresArguments]

theorem capturesAlong_path {n : Node} {r : FreeReference} :
    ScopeTable.empty.capturesAlong r (n :: w.path q) = w.drops r := by
  rcases w.kind_function with h | h <;>
    simp [path, nodes, ScopeTable.capturesAlong, ScopeTable.capturesFrom, Initializes, drops,
      Kind.declaresArguments, h, w.kind_block, w.kind_call, w.kind_statement]

theorem hosts_program (hoists : mode.hoistsToProgram = true) : mode.Hosts [p.node xs] := by
  constructor
  · exact ⟨_, List.mem_cons_self, by simp [ScopeMode.isVarScope_of_hoists hoists, Kind.isScope]⟩
  · exact ⟨_, List.mem_cons_self, by simp [Kind.isBlockScope, Kind.isScope]⟩
  · exact ⟨_, List.mem_cons_self,
      by simp [ScopeMode.isFunctionNameScope_of_hoists hoists, Kind.isScope]⟩

theorem apart_program (nodup : (p.program xs).labels.Nodup) :
    ∀ m ∈ [p.node xs], m.label ∉ xs.flatMap Tree.labels := by
  have own := ((p.holdsOnly xs).nodup nodup).1
  rw [Tree.labels, Tree.labelsItems_eq] at own
  simp only [List.forall_mem_singleton]
  exact fun h => own (List.mem_cons_of_mem _ h)

theorem apart_path (nodup : (q.program [w.tree]).labels.Nodup) :
    ∀ m ∈ w.path q, m.label ∉ xs.flatMap Tree.labels := by
  obtain ⟨own, inner⟩ := (q.holdsOnly [w.tree]).nodup nodup
  rw [Tree.labels, Tree.labelsItems_eq, List.flatMap_singleton] at own inner
  obtain ⟨inside, apart⟩ := w.not_mem_labels (List.nodup_cons.mp inner).2
  refine List.forall_mem_append.mpr ⟨apart, ?_⟩
  simp only [List.forall_mem_singleton]
  exact fun h => own (List.mem_cons_of_mem _ (inside h))

theorem isReference_program : (e.below [p.node xs]).IsReference ↔ e.IsReference :=
  Event.isReference_below_cons (by simp [Kind.isPattern]) (by simp)

theorem isReference_path : (e.below (w.path q)).IsReference ↔ e.IsReference :=
  Event.isReference_below_cons (by simp [Kind.isPattern, w.kind_block]) (by simp [w.kind_block])

theorem open_iff (he : e ∈ x.events.items) : (e.below (w.path q)).Open ↔
    (e.below [p.node xs]).Open ∧ w.drops e.reference = false := by
  obtain ⟨n, hn, -⟩ := suffix_path_of_mem_walk he
  obtain rfl := Tree.tree_of_node? hn
  rw [Event.open_below he isReference_path, Event.open_below he isReference_program,
    capturesAlong_program, capturesAlong_path, eq_self, and_true]

/-- A statement has the same free references in both programs but for those that the wrapper drops.
-/
theorem isFree_iff (hoists : mode.hoistsToProgram = true)
    (records : table.Records mode xs [p.node xs]) (records' : table'.Records mode xs (w.path q))
    (ends : ∀ x ∈ xs, x.events.fault = none) (nodup : (p.program xs).labels.Nodup)
    (nodup' : (q.program [w.tree]).labels.Nodup) (he : e ∈ x.events.items) :
    (e.below (w.path q)).IsFree table' ↔
      (e.below [p.node xs]).IsFree table ∧ w.drops e.reference = false := by
  have declared : (e.below (w.path q)).Declared table' ↔ (e.below [p.node xs]).Declared table := by
    constructor
    · intro h
      exact h.below records' records (hosts_program hoists) ends (apart_path nodup')
    · intro h
      exact h.below records records' (w.hosts mode _) ends (apart_program nodup)
  rw [Event.isFree_iff, Event.isFree_iff, open_iff (p := p) he, declared, and_right_comm]
  rfl

open scoped Classical in
theorem free_wrapped {hostEmbedded : Bool} (c : Analysis (q.program [w.tree]) hostEmbedded)
    (ends : ∀ x ∈ xs, x.events.fault = none) : c.free =
      ((xs.flatMap fun x => x.events.items).filter fun e =>
        (e.below (w.path q)).IsFree c.table).map fun e => (e.below (w.path q)).reference := by
  have others : (w.reports.map (Event.below [q.node [w.tree]]) ++
      [(⟨.program, q.node [w.tree], []⟩ : Event)]).filter (fun e => e.IsFree c.table) = [] := by
    rw [List.filter_eq_nil_iff]
    intro e he free
    have refers := (of_decide_eq_true free).refers
    rcases List.mem_append.mp he with he | he
    · obtain ⟨f, hf, rfl⟩ := List.mem_map.mp he
      simp [w.refers_reports hf] at refers
    · simp [List.mem_singleton.mp he, Kind.refers] at refers
  rw [eq_of_freeReferences c.classified, items_events ends, List.filter_append, others,
    List.append_nil, List.filter_map, List.map_map]
  rfl

theorem free_eq {hostEmbedded : Bool} (a : Analysis (p.program xs) hostEmbedded)
    (c : Analysis (q.program [w.tree]) hostEmbedded)
    (hoists : a.mode.hoistsToProgram = true) (hoists' : c.mode.hoistsToProgram = true)
    (nodup : (p.program xs).labels.Nodup) (nodup' : (q.program [w.tree]).labels.Nodup) :
    c.free = (a.free.filter fun r => !w.drops r).map (.moved (w.path q)) := by
  classical
  have ends := (p.items_events a.fault_events).1
  -- the directives of the statements are none of the wrapped program, so the modes may differ
  have bound : bindScopes (q.program [w.tree]) a.mode .empty = (c.table, none) := by
    have same : a.mode.hoistsToProgram = c.mode.hoistsToProgram := hoists.trans hoists'.symm
    rw [← c.bound, bindScopes, bindScopes, Tree.entries_congr same]
  have moved : FreeReference.moved (w.path q) ∘
      (fun e : Event => (e.below [p.node xs]).reference) =
      fun e => (e.below (w.path q)).reference := by
    funext e
    simp only [Function.comp_apply, Event.reference, Event.occurrence, FreeReference.moved,
      Event.chain_eq, Event.path_below, List.reverse_append, List.map_append,
      List.reverse_singleton, List.singleton_append, List.map_cons, List.tail_cons]
    rfl
  rw [free_wrapped c ends, p.free_program a, List.filter_map, List.map_map, List.filter_filter,
    moved]
  congr 1
  apply List.filter_congr
  intro e he
  obtain ⟨x, hx, he⟩ := List.mem_flatMap.mp he
  rw [Bool.eq_iff_iff]
  simp only [decide_eq_true_eq, Function.comp_apply, Bool.and_eq_true, Bool.not_eq_true']
  rw [isFree_iff hoists (ProgramFrame.records a.bound) (records ends bound) ends nodup nodup' he,
    and_comm]
  rfl

theorem nonempty_analysis {hostEmbedded : Bool} (a : Analysis (p.program xs) hostEmbedded)
    (hoists : a.mode.hoistsToProgram = true) (names : (p.program xs).TextNames)
    (source : (q.program []).isModule = (p.program []).isModule) :
    Nonempty (Analysis (q.program [w.tree]) hostEmbedded) := by
  have ends := (p.items_events a.fault_events).1
  obtain ⟨strict, prologue⟩ : ∃ strict, prologueIsStrict [w.tree] = .ok strict :=
    prologueIsStrict_ok (by simp [tree, Node.tree, Tree.object?])
  obtain ⟨mode, resolved⟩ : ∃ mode, resolveMode (q.program [w.tree]) hostEmbedded = .ok mode := by
    rw [q.resolveMode_program, prologue]
    exact ⟨_, rfl⟩
  have same : mode.hoistsToProgram = a.mode.hoistsToProgram :=
    ProgramFrame.hoistsToProgram_eq_of_source source a.resolved resolved
  have reported {x : Tree} (hx : x ∈ xs) {e : Event} (he : e ∈ x.events.items) :
      e.below [p.node xs] ∈ (p.program xs).events.items :=
    (p.mem_events a.fault_events).mpr (.inl ⟨x, hx, e, he, rfl⟩)
  have compound {x : Tree} (hx : x ∈ xs) {e : Event} (he : e ∈ x.events.items)
      {around : List Node} (h : ∀ m ∈ around, m.kind ≠ .compound) :
      ∀ m ∈ (e.below around).path, m.kind ≠ .compound :=
    List.forall_mem_append.mpr ⟨(Visits.of_mem_walk he).kind_ne_compound (ends x hx), h⟩
  have bound : ((q.program [w.tree]).entries mode).fault = none := by
    refine Yield.fault_flatMap.mpr ⟨fault_events ends, ?_⟩
    intro e he
    rcases (mem_events ends).mp he with ⟨x, hx, f, hf, rfl⟩ | ⟨f, hf, rfl⟩ | rfl
    · rw [Event.entries_congr same]
      exact Event.fault_entries_below (hosts_program hoists) (compound hx hf (by simp))
        (compound hx hf kind_ne_compound_path)
        ((Yield.fault_flatMap.mp a.fault_entries).2 _ (reported hx hf))
    · exact w.fault_entries_reports hf _ _
    · rfl
  obtain ⟨c, -⟩ := Analysis.exists_of_stages resolved bound fun e he => by
    rcases (mem_events ends).mp he with ⟨x, hx, f, hf, rfl⟩ | ⟨f, hf, rfl⟩ | rfl
    · refine Event.fault_free_of_text (compound hx hf kind_ne_compound_path) ?_
      intro hr
      have hr : (f.below [p.node xs]).IsReference :=
        isReference_program.mpr (isReference_path.mp hr)
      obtain ⟨v, hv⟩ := Event.exists_field_of_isReference hr (a.fault_free (reported hx hf))
      obtain ⟨s, rfl⟩ := names _ (reported hx hf) v hv
      exact ⟨s, hv⟩
    · rw [Event.free_of_not_refers (by simpa using w.refers_reports hf), Yield.fault_empty]
    · rfl
  exact ⟨c⟩

end Wrapper

/-- Wrapping a program in a function keeps what it reports but for what the function binds, `this`
and `arguments` unless it is an arrow. -/
theorem findGlobals_wrap (parser : Parser) (options : GlobalsOptions) (p q : ProgramFrame)
    {xs : List Tree} (w : Wrapper xs) {gs : List FreeVariable}
    (source : (q.node []).get "sourceType" = (p.node []).get "sourceType")
    (hoists : (p.program xs).isModule = true ∨ options.hostEmbedded = false)
    (nodup : (p.program xs).labels.Nodup) (nodup' : (q.program [w.tree]).labels.Nodup)
    (names : (p.program xs).TextNames)
    (succeeds : (findGlobals parser (.value (p.program xs)) options).outcome = .ok gs) :
    (∃ gs', (findGlobals parser (.value (q.program [w.tree])) options).outcome = .ok gs' ∧
      ∃ (a : Analysis (p.program xs) options.hostEmbedded)
        (c : Analysis (q.program [w.tree]) options.hostEmbedded),
        groupReferences a.free = .ok gs ∧ groupReferences c.free = .ok gs' ∧
        c.free = (a.free.filter fun r => !w.drops r).map (.moved (w.path q))) ∧
    ∀ l i r u, (l, .key "body" :: .index i :: r, u) ∈ (p.program xs).places [] ↔
      (l, .key "body" :: .index 0 :: .key "expression" :: .key "callee" :: .key "body" ::
        .key "body" :: .index i :: r, u) ∈ (q.program [w.tree]).places [] := by
  refine ⟨?analyses, ?places⟩
  case analyses =>
    obtain ⟨-, a, group⟩ := Analysis.outcome_findGlobals.mp succeeds
    have isModule : (q.program []).isModule = (p.program []).isModule :=
      congrArg (·.isText "module") source
    have hoistsA : a.mode.hoistsToProgram = true := by
      rw [hoistsToProgram_of_resolveMode a.resolved]
      rcases hoists with h | h <;> simp [h]
    obtain ⟨c⟩ := Wrapper.nonempty_analysis (w := w) a hoistsA names isModule
    have hoistsC : c.mode.hoistsToProgram = true :=
      (ProgramFrame.hoistsToProgram_eq_of_source isModule a.resolved c.resolved).trans hoistsA
    have free := Wrapper.free_eq a c hoistsA hoistsC nodup nodup'
    obtain ⟨gs', group'⟩ : ∃ gs', groupReferences c.free = .ok gs' := by
      apply groupReferences_ok
      rw [free, List.forall_mem_map]
      intro r hr
      exact a.text_of_mem_free (r := r) names (List.mem_of_mem_filter hr)
    exact ⟨gs', Analysis.outcome_findGlobals.mpr ⟨q.isProgram_program, c, group'⟩, a, c, group,
      group', free⟩
  case places =>
    intro l i r u
    rw [p.mem_places_program, q.mem_places_program]
    simp only [List.getElem?_cons_zero, Option.some.injEq, exists_eq_left', w.mem_places]

/-- Some statements in the body of a function that is called at once. -/
def calledFunction (xs : List Tree) : Wrapper xs :=
  let block : Node := ⟨10, [("type", .str "BlockStatement"), ("body", .arr 11 xs)]⟩
  let function : Node := ⟨12, [("type", .str "FunctionExpression"), ("id", .null),
    ("params", .arr 13 []), ("body", block.tree)]⟩
  let call : Node := ⟨14, [("type", .str "CallExpression"), ("callee", function.tree),
    ("arguments", .arr 15 [])]⟩
  { statement := ⟨16, [("type", .str "ExpressionStatement"), ("expression", call.tree)]⟩
    call := call
    function := function
    block := block
    list := 11
    kind_statement := rfl
    kind_call := rfl
    kind_function := .inl rfl
    kind_block := rfl
    expression := ⟨[_], [], rfl, by simp [Node.memberSlots, metadataKeys]⟩
    callee := ⟨[_], [_], rfl, by simp [Node.memberSlots, metadataKeys]⟩
    body := ⟨[_, _, _], [], rfl, by simp [Node.memberSlots, metadataKeys, Tree.null, Tree.node?]⟩
    statements := ⟨[_], [], rfl, by simp [Node.memberSlots, metadataKeys]⟩
    anonymous := rfl
    parameterless := rfl }

/-- The script `var x; this; x` reports `this`, and nothing once it is the body of a function. -/
theorem findGlobals_wrap_varThis : ∃ gs gs',
    (findGlobals (fun _ => .returned .null false)
      (.value (scriptFrame.program (varThis ++ useX))) {}).outcome = .ok gs ∧
    (findGlobals (fun _ => .returned .null false)
      (.value (scriptFrame.program [(calledFunction (varThis ++ useX)).tree])) {}).outcome =
        .ok gs' ∧ gs.length = 1 ∧ gs'.length = 0 ∧
    ∃ (a : Analysis (scriptFrame.program (varThis ++ useX)) false)
      (c : Analysis (scriptFrame.program [(calledFunction (varThis ++ useX)).tree]) false),
      groupReferences a.free = .ok gs ∧ groupReferences c.free = .ok gs' ∧
      c.free = (a.free.filter fun r => !(calledFunction (varThis ++ useX)).drops r).map
        (.moved ((calledFunction (varThis ++ useX)).path scriptFrame)) := by
  obtain ⟨gs, succeeds, one⟩ : ∃ gs, (findGlobals (fun _ => .returned .null false)
      (.value (scriptFrame.program (varThis ++ useX))) {}).outcome = .ok gs ∧ gs.length = 1 :=
    exists_ok_of_map (by decide +kernel)
  obtain ⟨gs', wrapped, none⟩ : ∃ gs', (findGlobals (fun _ => .returned .null false)
      (.value (scriptFrame.program [(calledFunction (varThis ++ useX)).tree])) {}).outcome =
        .ok gs' ∧ gs'.length = 0 := exists_ok_of_map (by decide +kernel)
  obtain ⟨⟨gs'', wrapped', a, c, group, group', free⟩, -⟩ :=
    findGlobals_wrap (fun _ => .returned .null false) {} scriptFrame scriptFrame
      (calledFunction (varThis ++ useX)) rfl (.inr rfl) (by decide) (by decide) (by decide +kernel)
      succeeds
  obtain rfl := Except.ok.inj (wrapped.symm.trans wrapped')
  exact ⟨gs, gs', succeeds, wrapped, one, none, a, c, group, group', free⟩

end LexicalScope
