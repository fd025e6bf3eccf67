import LexicalScope.Proofs.Globals
import LexicalScope.Proofs.Reference.Exactness
import LexicalScope.Proofs.Resolution.Adequacy
import LexicalScope.Proofs.Resolution.Resolver
import LexicalScope.Proofs.Vocabulary.Success

/-! # The resolver agrees with the analysis

Along a descent the environment knows of the nodes around just what the analysis asks of a chain and
a table. So at every node the resolver and the classification give the same reference, and over a
program the same free variables.
-/

namespace LexicalScope

/-- A reference below some nodes as it is seen from the outermost of them. -/
def FreeReference.within (r : FreeReference) (outer : List Node) : FreeReference :=
  { r with chain := outer.reverse.map Node.tree ++ r.chain }

namespace Node

variable {n m : Node} {c : Slot} {field : Bool}

theorem field_iff_initializes (nodup : n.tree.labels.Nodup) (hc : (c, field) ∈ n.regions)
    (hm : c.value.node? = some m) : field = true ↔ Initializes n m := by
  have hl : c.value.label? = some m.label := by
    rw [← Tree.tree_of_node? hm]
    rfl
  unfold regions at hc
  split at hc
  · next hk =>
    rcases List.mem_append.mp hc with hc | hc
    · obtain ⟨d, hd, he⟩ := List.mem_map.mp hc
      obtain ⟨rfl, rfl⟩ := Prod.mk.inj he
      refine iff_of_false (by simp) ?_
      rintro ⟨-, hv⟩
      -- the key would have a label of the value
      have hs : n.slots = n.computedKey "key" ++ n.plain "value" := by simp [slots, hk]
      have apart := pairwise_slots nodup
      rw [hs, Yield.items_append _ (by simp), List.pairwise_append] at apart
      have hn (t : Tree) (h : t.label? = some m.label) : m.label ∈ t.labels := by
        cases t <;> simp_all [Tree.label?, Tree.labels]
      exact apart.2.2 d hd ⟨n.get "value", false⟩ (by simp [plain]) (hn _ hl) (hn _ hv)
    · obtain ⟨d, hd, he⟩ := List.mem_map.mp hc
      obtain ⟨rfl, rfl⟩ := Prod.mk.inj he
      obtain rfl : d = ⟨n.get "value", false⟩ := by simpa [plain] using hd
      exact iff_of_true rfl ⟨hk, hl⟩
  · next hk =>
    obtain ⟨d, hd, he⟩ := List.mem_map.mp hc
    obtain ⟨rfl, rfl⟩ := Prod.mk.inj he
    refine iff_of_false (by simp) ?_
    rintro ⟨hf, -⟩
    exact hk hf

end Node

/-- An environment knows of the nodes around a slot what a table and a chain tell. -/
structure Environment.Describes (env : Environment) (table : ScopeTable) (outer : List Node)
    (s : Slot) : Prop where
  names : ∀ x, env.names.any (·.contains x) = true ↔
    ∃ n ∈ outer, table.declares n.label (.str x) = true
  arguments : env.bindsArguments = outer.any (·.kind.declaresArguments)
  this : ∀ n, s.value.node? = some n → (env.bindsThis = false ↔
    (∀ m ∈ outer, m.kind.declaresArguments = false) ∧
      (n :: outer).IsChain fun m k => ¬ Initializes k m)
  declaring : insideDeclarator outer = .ok env.declaring

namespace Environment

variable {env : Environment} {table : ScopeTable} {outer : List Node} {s c : Slot} {n : Node}
  {hoists field : Bool}

theorem describes_top : top.Describes table [] s where
  names := by simp [top]
  arguments := rfl
  this := by simp [top]
  declaring := rfl

theorem Describes.enter (h : env.Describes table outer s) (hn : s.value.node? = some n)
    (hk : n.kind ≠ .compound) (nodup : n.tree.labels.Nodup)
    (hd : ∀ x, table.declares n.label (.str x) = true ↔ x ∈ n.declares hoists)
    (hc : (c, field) ∈ n.regions) : (env.enter hoists n field).Describes table (n :: outer) c where
  names x := by
    simp only [Environment.enter, List.any_cons, Bool.or_eq_true, h.names, List.contains_iff_mem,
      ← hd, List.mem_cons, exists_eq_or_imp]
  arguments := by
    rw [Environment.enter, h.arguments, List.any_cons, Bool.or_comm]
  this m hm := by
    have hi := Node.field_iff_initializes nodup hc hm
    have ht := h.this n hn
    simp only [Environment.enter, Bool.or_eq_false_iff, List.mem_cons, forall_eq_or_imp,
      List.isChain_cons_cons] at ht ⊢
    rw [ht, ← hi, Bool.not_eq_true]
    tauto
  declaring := by
    rw [insideDeclarator, if_neg hk, Environment.enter]
    simp only
    split
    · exact h.declaring
    · rfl

theorem Describes.captures (h : env.Describes table outer s) (hk : n.kind = .identifier)
    (hd : ∀ x, table.declares n.label (.str x) = false) (x : String) :
    table.captures (n :: outer).reverse (.str x) = .ok (env.binds x) := by
  have hn : table.binds (.str x) n = false := by
    simp [ScopeTable.binds, hd, hk, Kind.declaresArguments]
  have ho : outer.any (table.binds (.str x)) =
      (x == "arguments" && env.bindsArguments || env.names.any (·.contains x)) := by
    rw [Bool.eq_iff_iff]
    simp only [List.any_eq_true, ScopeTable.binds, Bool.or_eq_true, Bool.and_eq_true, h.names,
      h.arguments, decide_eq_true_eq, Atom.str.injEq, beq_iff_eq]
    constructor
    · rintro ⟨m, hm, hb | hb⟩
      · exact .inl ⟨hb.1, m, hm, hb.2⟩
      · exact .inr ⟨m, hm, hb⟩
    · rintro (⟨hx, m, hm, hb⟩ | ⟨m, hm, hb⟩)
      · exact ⟨m, hm, .inl ⟨hx, hb⟩⟩
      · exact ⟨m, hm, .inr hb⟩
  have hu : decide (Atom.str x = .str "undefined") = (x == "undefined") := by
    rw [Bool.eq_iff_iff]
    simp
  rw [Tree.str, ScopeTable.captures, List.any_reverse, List.any_cons, hn, ho, hu, binds,
    Bool.false_or, Bool.or_assoc]

theorem Describes.bindsThis (h : env.Describes table outer s) (hn : s.value.node? = some n)
    (hk : n.kind = .thisExpression) (ho : ∀ m ∈ outer, m.kind ≠ .compound) :
    LexicalScope.bindsThis (n :: outer).reverse = .ok env.bindsThis := by
  have path : ∀ m ∈ (n :: outer).reverse, m.kind ≠ .compound := by
    intro m hm
    rcases List.mem_cons.mp (List.mem_reverse.mp hm) with rfl | hm
    · simp [hk]
    · exact ho m hm
  have arrow : n.kind.declaresArguments = false := by simp [hk, Kind.declaresArguments]
  obtain ⟨b, hb⟩ := bindsThis_ok path
  have same : b = false ↔ env.bindsThis = false := by
    rw [bindsThis_eq_ok hb, h.this n hn, List.isChain_reverse]
    simp only [← Kind.declaresArguments_eq_false, List.mem_reverse, List.mem_cons, forall_eq_or_imp,
      arrow, true_and]
  rw [hb]
  cases b <;> cases hb : env.bindsThis <;> simp_all

theorem Describes.items_free_identifier (h : env.Describes table outer s)
    (identifier : n.kind = .identifier) (shape : n.WellShaped)
    (hd : ∀ x, table.declares n.label (.str x) = true ↔ x ∈ n.declares hoists) :
    (((n.reports s.target).map (Event.mk · n outer)).flatMap fun e => (e.free table).items) =
      (env.references n s.target).map (·.within outer) := by
  obtain ⟨x, hx⟩ : ∃ x, n.get "name" = .str x := by
    simpa only [Node.WellShaped, identifier] using shape
  have named : n.get "name" ≠ .null := by simp [hx, Tree.str, Tree.null]
  have hf := Tree.field_eq_of_get named
  have captures := h.captures identifier
    (by simp [← Bool.not_eq_true, hd, Node.declares, identifier]) x
  have free (k : Kind) : ((Event.mk k n outer).freeIdentifier table).items =
      if env.binds x then []
      else [(⟨.str x, n.tree, [n.tree]⟩ : FreeReference).within outer] := by
    simp only [Event.freeIdentifier, hf, hx, Event.chain, captures, bind, Except.bind]
    cases env.binds x <;>
      simp [pure, Except.pure, Yield.ofExcept, Event.occurrence, Event.chain, FreeReference.within]
  have own : (((n.get "name").text?.toList.filter (!env.binds ·)).map
        (⟨.str ·, n.tree, [n.tree]⟩ : String → FreeReference)).map (·.within outer) =
      if env.binds x then []
      else [(⟨.str x, n.tree, [n.tree]⟩ : FreeReference).within outer] := by
    cases hb : env.binds x <;> simp [hx, Tree.str, Tree.text?, hb]
  simp only [Node.reports, identifier, references, List.map_cons, List.map_nil, List.flatMap_cons,
    List.flatMap_nil, List.append_nil]
  cases s.target with
  | false =>
    simpa only [Event.free, free, Bool.false_and, Bool.false_eq_true, if_false] using own.symm
  | true =>
    simp only [if_true, Event.free, h.declaring, Bool.true_and]
    cases env.declaring
    · simpa only [free, Bool.false_eq_true, if_false] using own.symm
    · simp

theorem Describes.items_free_this (h : env.Describes table outer s)
    (hn : s.value.node? = some n) (this : n.kind = .thisExpression)
    (ho : ∀ m ∈ outer, m.kind ≠ .compound) :
    (((n.reports s.target).map (Event.mk · n outer)).flatMap fun e => (e.free table).items) =
      (env.references n s.target).map (·.within outer) := by
  have chain : LexicalScope.bindsThis (Event.mk .thisExpression n outer).chain = _ :=
    h.bindsThis hn this ho
  simp only [Node.reports, this, references, List.map_cons, List.map_nil, List.flatMap_cons,
    List.flatMap_nil, List.append_nil, Event.free, Event.freeThis, chain, bind, Except.bind]
  cases env.bindsThis <;>
    simp [pure, Except.pure, Yield.ofExcept, Event.occurrence, Event.chain, FreeReference.within]

/-- At every node the reports and the environment give the same references. -/
theorem Describes.items_free (h : env.Describes table outer s) (hn : s.value.node? = some n)
    (shape : n.WellShaped) (ho : ∀ m ∈ outer, m.kind ≠ .compound)
    (hd : ∀ x, table.declares n.label (.str x) = true ↔ x ∈ n.declares hoists) :
    (((n.reports s.target).map (Event.mk · n outer)).flatMap fun e => (e.free table).items) =
      (env.references n s.target).map (·.within outer) := by
  by_cases identifier : n.kind = .identifier
  · exact h.items_free_identifier identifier shape hd
  by_cases this : n.kind = .thisExpression
  · exact h.items_free_this hn this ho
  have none : env.references n s.target = [] := by
    unfold references
    split <;> simp_all
  rw [none, List.map_nil, List.flatMap_map, List.flatMap_eq_nil_iff]
  intro k hk
  have refers : k.refers = false := by
    rcases Node.kind_of_mem_reports hk with rfl | h | h | h
    · cases hk : n.kind <;> simp_all [Kind.refers, Node.WellShaped]
    · exact absurd h.1 identifier
    · rw [h.2]
      rfl
    · rw [h.2]
      rfl
  rw [Event.free_of_not_refers refers, Yield.items_empty]

end Environment

theorem flatMap_free_eq_resolve {table : ScopeTable} {hoists : Bool} {env : Environment}
    {outer : List Node} {s : Slot} (vocabulary : s.value.InVocabulary)
    (around : ∀ m ∈ outer, m.WellShaped) (nodup : s.value.labels.Nodup)
    (declares : ∀ n ns, Visits outer s n ns →
      ∀ x, table.declares n.label (.str x) = true ↔ x ∈ n.declares hoists)
    (describes : env.Describes table outer s) :
    ((walk outer s).items.flatMap fun e => (e.free table).items) =
      (resolve hoists env s).map (·.within outer) := by
  induction s using slot_induction generalizing outer env with
  | step s ih =>
    cases hn : s.value.node? with
    | none => simp [walk_of_node?_eq_none hn, resolve_of_node?_eq_none hn]
    | some n =>
      obtain ⟨shape, inner⟩ := vocabulary.wellShaped hn
      have ends : (walk outer s).fault = none := vocabulary.fault_walk
      have own := declares n outer ((Visits.iff hn ends).mpr (.inr ⟨rfl, rfl⟩))
      rw [← Tree.tree_of_node? hn] at nodup
      have below : ∀ r ∈ n.regions,
          ((walk (n :: outer) r.1).items.flatMap fun e => (e.free table).items) =
            ((resolve hoists (env.enter hoists n r.2) r.1).map (·.inside n)).map
              (·.within outer) := by
        intro r hr
        have hc : r.1 ∈ n.slots.items := n.map_fst_regions ▸ List.mem_map_of_mem hr
        have visits (m : Node) (ns : List Node) (hm : Visits (n :: outer) r.1 m ns) :=
          declares m ns ((Visits.iff hn ends).mpr (.inl ⟨r.1, hc, hm⟩))
        rw [ih n hn r.1 hc (inner r.1 hc).2 (List.forall_mem_cons.mpr ⟨shape, around⟩)
          (Node.nodup_slot nodup hc) visits (describes.enter hn shape.ne_compound nodup own hr),
          List.map_map]
        apply List.map_congr_left
        intro x _
        simp [FreeReference.within, FreeReference.inside]
      rw [items_walk hn ends, List.flatMap_append, resolve_of_node?_eq_some hn, List.map_append,
        describes.items_free hn shape (fun m hm => (around m hm).ne_compound) own,
        List.flatMap_assoc, ← n.map_fst_regions, List.flatMap_map, List.flatMap_congr below,
        List.map_flatMap]

theorem Environment.text_of_mem_references {env : Environment} {n : Node} {target : Bool}
    {r : FreeReference} (h : r ∈ env.references n target) : ∃ x, r.name = .str x := by
  unfold references at h
  split at h
  · split at h
    · cases h
    · obtain ⟨x, -, rfl⟩ := List.mem_map.mp h
      exact ⟨x, rfl⟩
  · split at h
    · cases h
    · rw [List.mem_singleton.mp h]
      exact ⟨_, rfl⟩
  · cases h

theorem text_of_mem_resolve {hoists : Bool} {env : Environment} {s : Slot} {r : FreeReference}
    (h : r ∈ resolve hoists env s) : ∃ x, r.name = .str x := by
  induction s using slot_induction generalizing env r with
  | step s ih =>
    cases hn : s.value.node? with
    | none => simp [resolve_of_node?_eq_none hn] at h
    | some n =>
      rw [resolve_of_node?_eq_some hn, List.mem_append] at h
      rcases h with h | h
      · obtain ⟨c, hc, h⟩ := List.mem_flatMap.mp h
        obtain ⟨r, hr, rfl⟩ := List.mem_map.mp h
        exact ih n hn c.1 (n.map_fst_regions ▸ List.mem_map_of_mem hc) (r := r) hr
      · exact Environment.text_of_mem_references h

/-- On every program of the vocabulary the analysis succeeds with the free variables that the
resolver finds. -/
theorem findGlobals_eq_resolveProgram (parser : Parser) {t : Tree} (options : GlobalsOptions)
    (program : t.isProgram = true) (vocabulary : t.InVocabulary) (nodup : t.labels.Nodup) :
    ∃ gs, resolveProgram t options.hostEmbedded = .ok gs ∧
      (findGlobals parser (.value t) options).outcome = .ok gs := by
  obtain ⟨root, hn, hk⟩ := Tree.exists_node_of_isProgram program
  have ht : t.IsProgramAt root := ⟨hn, hk, vocabulary, nodup⟩
  obtain ⟨strict, hm⟩ := resolveMode_ok hn hk (vocabulary.wellShaped hn).1 options.hostEmbedded
  generalize hmode : ScopeMode.mk _ strict options.hostEmbedded = mode at hm
  have hoists : (t.object?.any (fun n => (n.get "sourceType").isText "module") ||
      !options.hostEmbedded) = mode.hoistsToProgram := by
    rw [← hmode, Tree.object?_of_node? hn]
    rfl
  have bound : bindScopes t mode .empty =
      ((t.entries mode).items.foldl ScopeTable.enter .empty, none) :=
    Prod.ext rfl (vocabulary.fault_entries mode)
  generalize (t.entries mode).items.foldl ScopeTable.enter .empty = table at bound
  have agrees := flatMap_free_eq_resolve (s := ⟨t, false⟩) vocabulary (by simp) nodup
    (fun n ns hv x => ht.declares_iff bound hv) Environment.describes_top
  have whole (r : FreeReference) : r.within [] = r := rfl
  simp only [whole, List.map_id'] at agrees
  have free : freeReferences t table = .ok (resolve mode.hoistsToProgram .top ⟨t, false⟩) :=
    Yield.toExcept_eq_ok.mpr ⟨vocabulary.fault_free table,
      (Yield.items_flatMap (vocabulary.fault_free table)).trans agrees⟩
  have texts : ∀ r ∈ resolve mode.hoistsToProgram .top ⟨t, false⟩, ∃ x, r.name = .str x := by
    intro r hr
    exact text_of_mem_resolve hr
  obtain ⟨gs, hg⟩ := groupReferences_ok texts
  refine ⟨gs, ?_, outcome_findGlobals_value.mpr
    ⟨program, outcome_globalsOf.mpr ⟨mode, table, _, hm, bound, free, hg⟩⟩⟩
  rw [resolveProgram]
  simp only [hoists, hg]

theorem pair_inVocabulary : pair.tree.InVocabulary := by
  have slots : pair.slots.items = [⟨.identifier 7 "p", false⟩, ⟨.identifier 8 "x", false⟩] := rfl
  have shape : pair.WellShaped := show "ArrayExpression" ≠ "pattern" by decide
  refine .node rfl shape ?_ ?_
  · simp only [slots, List.forall_mem_cons]
    exact ⟨Node.admits_of_kind rfl (by decide) (by decide),
      Node.admits_of_kind rfl (by decide) (by decide), by simp⟩
  · simp only [slots, List.forall_mem_cons]
    exact ⟨(Tree.isIdentifier_identifier 7 "p").inVocabulary,
      (Tree.isIdentifier_identifier 8 "x").inVocabulary, by simp⟩

theorem arrow_inVocabulary : arrow.tree.InVocabulary := by
  have parameter := Tree.isIdentifier_identifier 4 "p"
  have slots : arrow.slots.items =
      [⟨.null, true⟩, ⟨.identifier 4 "p", true⟩, ⟨pair.tree, false⟩] := rfl
  refine .node rfl ⟨.inl rfl, .inr ⟨_, _, rfl, by simpa using .identifier parameter⟩⟩ ?_ ?_
  · simp only [slots, List.forall_mem_cons]
    exact ⟨by simp [Node.Admits, Tree.null, Tree.node?],
      Node.admits_of_kind rfl (by decide) (by decide),
      Node.admits_of_kind (m := pair) rfl (by decide) (by decide), by simp⟩
  · simp only [slots, List.forall_mem_cons]
    exact ⟨.nothing rfl, parameter.inVocabulary, pair_inVocabulary, by simp⟩

theorem arrowProgram_inVocabulary : arrowProgram.tree.InVocabulary := by
  have slots : arrowProgram.slots.items = [⟨arrow.tree, false⟩] := rfl
  refine .node rfl (.inr ⟨_, _, rfl, by simp [Node.tree, Tree.object?]⟩) ?_ ?_
  · simp only [slots, List.forall_mem_cons]
    exact ⟨Node.admits_of_kind (m := arrow) rfl (by decide) (by decide), by simp⟩
  · simp only [slots, List.forall_mem_cons]
    exact ⟨arrow_inVocabulary, by simp⟩

/-- The free variable of the program `p => [p, x]` is found both ways. -/
theorem findGlobals_eq_resolveProgram_arrow :
    arrowProgram.tree.isProgram = true ∧ arrowProgram.tree.InVocabulary ∧
      arrowProgram.tree.labels.Nodup ∧ ∃ gs, resolveProgram arrowProgram.tree true = .ok gs ∧
        (findGlobals (fun _ => .returned .null false) (.value arrowProgram.tree)
          { hostEmbedded := true }).outcome = .ok gs ∧
        gs.map (fun g => (g.name, g.members.map (·.node.label?))) = [(.str "x", [some 8])] := by
  have nodup : arrowProgram.tree.labels.Nodup := by decide
  obtain ⟨gs, resolved, found⟩ := findGlobals_eq_resolveProgram (fun _ => .returned .null false)
    { hostEmbedded := true } (by decide) arrowProgram_inVocabulary nodup
  obtain ⟨_, resolved', group⟩ : ∃ gs, resolveProgram arrowProgram.tree true = .ok gs ∧
      gs.map (fun g => (g.name, g.members.map (·.node.label?))) = [(.str "x", [some 8])] :=
    exists_ok_of_map (by decide +kernel)
  obtain rfl := Except.ok.inj (resolved.symm.trans resolved')
  exact ⟨by decide, arrowProgram_inVocabulary, nodup, gs, resolved, found, group⟩

end LexicalScope
