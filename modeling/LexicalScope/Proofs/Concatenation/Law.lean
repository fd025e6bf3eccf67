import LexicalScope.Proofs.Concatenation.Frame

/-! # Statement lists in a row

What is free in two lists of statements in a row is free in one of them and not declared at the top
of the other. Only the top of a program can reach from one list into the other: all else that a list
declares is declared within its own statements.
-/

namespace LexicalScope

/-- A reference with a tree in the place of its root. -/
def FreeReference.rooted (root : Tree) (r : FreeReference) : FreeReference :=
  { r with chain := root :: r.chain.tail }

theorem prologueIsStrict_append {as bs : List Tree} {x y : Bool} (ha : prologueIsStrict as = .ok x)
    (hb : prologueIsStrict bs = .ok y) : ∃ z, prologueIsStrict (as ++ bs) = .ok z := by
  induction as with
  | nil => exact ⟨y, hb⟩
  | cons a as ih =>
    rw [List.cons_append]
    rw [prologueIsStrict] at ha ⊢
    simp only [bind, Except.bind, pure, Except.pure] at ha ⊢
    cases hk : a.get? "type" with
    | error e => simp [hk] at ha
    | ok kind =>
      simp only [hk] at ha ⊢
      split at ha
      · rw [if_pos ‹_›]
        exact ⟨_, rfl⟩
      · rw [if_neg ‹_›]
        cases hd : a.get? "directive" with
        | error e => simp [hd] at ha
        | ok directive =>
          simp only [hd] at ha ⊢
          split at ha
          · rw [if_pos ‹_›]
            exact ⟨_, rfl⟩
          · rw [if_neg ‹_›]
            split at ha
            · rw [if_pos ‹_›]
              exact ⟨_, rfl⟩
            · rw [if_neg ‹_›]
              exact ih ha

namespace ProgramFrame

variable (p : ProgramFrame) {xs ys zs : List Tree} {hostEmbedded : Bool}
  {own other table : ScopeTable} {x : Tree} {e : Event}

/-- Whether the top of a program leaves a reference free. A `this` is not looked up in tables. -/
def leaves (table : ScopeTable) (r : FreeReference) : Bool :=
  r.isThis || !table.declaresName (p.node []) r.name

theorem alike_below : (e.below [p.node xs]).Alike (e.below [p.node ys]) where
  kind := rfl
  path := by
    rw [Event.path_below, Event.path_below]
    exact List.rel_append (List.forall₂_same.mpr fun n _ => .refl n) (.cons p.alike .nil)
  name := rfl

/-- A report within a statement is free beside others unless they declare its name at the top. -/
theorem isFree_below (he : e ∈ x.events.items) (ends : x.events.fault = none)
    (union : ∀ l y, table.declares l y = true ↔ own.declares l y = true ∨ other.declares l y = true)
    (outside : ∀ l y, other.declares l y = true → l = p.label ∨ l ∉ x.labels) :
    (e.below [p.node zs]).IsFree table ↔ (e.below [p.node xs]).IsFree own ∧
      (e.kind = .thisExpression ∨ other.declaresName (p.node []) (e.node.get "name") = false) := by
  have alike : (e.below [p.node xs]).Alike (e.below [p.node zs]) := p.alike_below
  have declared : (e.below [p.node zs]).Declared table ↔ (e.below [p.node xs]).Declared own ∨
      other.declaresName (p.node []) (e.node.get "name") = true := by
    rw [alike.declared_iff fun _ _ _ _ => rfl]
    constructor
    · rintro ⟨y, hy, n, hn, hd⟩
      rcases (union _ _).mp hd with hd | hd
      · exact .inl ⟨y, hy, n, hn, hd⟩
      · right
        have top : n.label = p.label := by
          rw [Event.path_below] at hn
          rcases List.mem_append.mp hn with hm | hm
          · exact (outside _ _ hd).resolve_right
              (not_not.mpr (label_mem_of_mem_path he ends hm))
          · exact congrArg Node.label (List.mem_singleton.mp hm)
        have hy : e.node.get "name" = .atom y := hy
        rw [hy, ScopeTable.declaresName]
        rw [top] at hd
        exact hd
    · rintro (⟨y, hy, n, hn, hd⟩ | hd)
      · exact ⟨y, hy, n, hn, (union _ _).mpr (.inl hd)⟩
      · cases hy : e.node.get "name" with
        | atom y =>
          rw [hy] at hd
          refine ⟨y, hy, p.node xs, ?_, (union _ _).mpr (.inr hd)⟩
          rw [Event.path_below]
          exact List.mem_append_right _ (List.mem_singleton_self _)
        | arr l vs => simp [hy, ScopeTable.declaresName] at hd
        | obj l fs => simp [hy, ScopeTable.declaresName] at hd
  rw [Event.isFree_iff, Event.isFree_iff, alike.open_iff, declared, Event.kind_below,
    Event.kind_below, not_or, Bool.not_eq_true]
  tauto

open scoped Classical in
theorem free_program (a : Analysis (p.program xs) hostEmbedded) : a.free =
    ((xs.flatMap fun x => x.events.items).filter fun e =>
      (e.below [p.node xs]).IsFree a.table).map fun e => (e.below [p.node xs]).reference := by
  have root : ¬ Event.IsFree a.table ⟨.program, p.node xs, []⟩ := fun h => by
    simpa [Kind.refers] using h.refers
  rw [eq_of_freeReferences a.classified, (p.items_events a.fault_events).2,
    List.filter_append, List.filter_singleton]
  simp [root, List.filter_map, Function.comp_def]

open scoped Classical in
theorem free_part (a : Analysis (p.program xs) hostEmbedded)
    (union : ∀ l y, table.declares l y = true ↔
      a.table.declares l y = true ∨ other.declares l y = true)
    (outside : ∀ l y, other.declares l y = true → l = p.label ∨ l ∉ xs.flatMap Tree.labels) :
    (((xs.flatMap fun x => x.events.items).filter fun e =>
      (e.below [p.node zs]).IsFree table).map fun e => (e.below [p.node zs]).reference) =
      (a.free.filter (p.leaves other)).map (FreeReference.rooted (p.program zs)) := by
  have ends := (p.items_events a.fault_events).1
  rw [p.free_program a, List.filter_map, List.map_map, List.filter_filter]
  have chain (e : Event) : (e.below [p.node zs]).reference =
      (e.below [p.node xs]).reference.rooted (p.program zs) := by
    simp only [Event.reference, Event.occurrence, FreeReference.rooted, Event.chain_below,
      List.map_cons, List.tail_cons]
    rfl
  rw [show (fun e : Event => (e.below [p.node zs]).reference) =
    FreeReference.rooted (p.program zs) ∘ fun e => (e.below [p.node xs]).reference
      from funext chain]
  congr 1
  apply List.filter_congr
  intro e he
  obtain ⟨x, hx, he⟩ := List.mem_flatMap.mp he
  have free : (e.below [p.node zs]).IsFree table ↔ (e.below [p.node xs]).IsFree a.table ∧
      (e.kind = .thisExpression ∨ other.declaresName (p.node []) (e.node.get "name") = false) :=
    p.isFree_below he (ends x hx) union fun l y hd =>
      (outside l y hd).imp_right (mt fun hl => List.mem_flatMap.mpr ⟨x, hx, hl⟩)
  have this : (e.below [p.node xs]).reference.isThis = decide (e.kind = .thisExpression) := by
    rw [← Event.isThis_reference he]
    rfl
  rw [Bool.eq_iff_iff]
  simp only [decide_eq_true_eq, Function.comp_apply, Bool.and_eq_true, leaves, Bool.or_eq_true,
    this, Bool.not_eq_true', free]
  have name (hk : e.kind ≠ .thisExpression) :
      (e.below [p.node xs]).reference.name = e.node.get "name" := if_neg hk
  by_cases hk : e.kind = .thisExpression
  · simp [hk]
  · simp only [hk, false_or, name hk, and_comm]

theorem classified_of_mem (a : Analysis (p.program xs) hostEmbedded)
    (names : (p.program xs).TextNames) (hx : x ∈ xs) (he : e ∈ x.events.items) :
    e.node.TextName ∧ ((e.below [p.node xs]).free a.table).fault = none := by
  have reported : e.below [p.node xs] ∈ (p.program xs).events.items :=
    (p.mem_events a.fault_events).mpr (.inl ⟨x, hx, e, he, rfl⟩)
  exact ⟨names (e.below [p.node xs]) reported, a.fault_free reported⟩

theorem entries_append (a : Analysis (p.program xs) hostEmbedded)
    (b : Analysis (p.program ys) hostEmbedded) {mode : ScopeMode}
    (hm : mode.hoistsToProgram = a.mode.hoistsToProgram) :
    (p.program (xs ++ ys)).entries mode =
      (p.program xs).entries a.mode ++ (p.program ys).entries b.mode := by
  rw [entries_program, entries_program, entries_program, Yield.collect_append,
    p.entries_congr hm, p.entries_congr (p.hoistsToProgram_eq b a)]

theorem fault_events_append (ha : (p.program xs).events.fault = none)
    (hb : (p.program ys).events.fault = none) :
    (p.program (xs ++ ys)).events.fault = none := by
  rw [events_program, Yield.fault_append, Yield.fault_map, Yield.fault_collect] at *
  exact ⟨List.forall_mem_append.mpr ⟨ha.1, hb.1⟩, rfl⟩

theorem exists_prologue_append (a : Analysis (p.program xs) hostEmbedded)
    (b : Analysis (p.program ys) hostEmbedded) :
    ∃ strict, prologueIsStrict (xs ++ ys) = .ok strict := by
  have ha := a.resolved
  have hb := b.resolved
  rw [resolveMode_program] at ha hb
  cases hx : prologueIsStrict xs with
  | error e => simp [hx, Except.map] at ha
  | ok x =>
    cases hy : prologueIsStrict ys with
    | error e => simp [hy, Except.map] at hb
    | ok y => exact prologueIsStrict_append hx hy

theorem classified_of_mem_append (a : Analysis (p.program xs) hostEmbedded)
    (b : Analysis (p.program ys) hostEmbedded) (namesA : (p.program xs).TextNames)
    (namesB : (p.program ys).TextNames) (hx : x ∈ xs ++ ys) (he : e ∈ x.events.items) :
    e.node.TextName ∧ ∃ zs table, ((e.below [p.node zs]).free table).fault = none := by
  rcases List.mem_append.mp hx with hx | hx
  · exact (p.classified_of_mem a namesA hx he).imp_right fun hf => ⟨_, _, hf⟩
  · exact (p.classified_of_mem b namesB hx he).imp_right fun hf => ⟨_, _, hf⟩

theorem textNames_append (a : Analysis (p.program xs) hostEmbedded)
    (b : Analysis (p.program ys) hostEmbedded) (namesA : (p.program xs).TextNames)
    (namesB : (p.program ys).TextNames) : (p.program (xs ++ ys)).TextNames := by
  intro e he
  rcases (p.mem_events (p.fault_events_append a.fault_events b.fault_events)).mp he with
    ⟨x, hx, f, hf, rfl⟩ | rfl
  · exact (p.classified_of_mem_append a b namesA namesB hx hf).1
  · exact p.textName_node (namesA _ ((p.mem_events a.fault_events).mpr (.inr rfl)))

theorem nonempty_analysis_append (a : Analysis (p.program xs) hostEmbedded)
    (b : Analysis (p.program ys) hostEmbedded) (namesA : (p.program xs).TextNames)
    (namesB : (p.program ys).TextNames) :
    Nonempty (Analysis (p.program (xs ++ ys)) hostEmbedded) := by
  obtain ⟨strict, prologue⟩ := p.exists_prologue_append a b
  obtain ⟨mode, resolved⟩ : ∃ mode, resolveMode (p.program (xs ++ ys)) hostEmbedded = .ok mode := by
    rw [resolveMode_program, prologue]
    exact ⟨_, rfl⟩
  have hoists : mode.hoistsToProgram = a.mode.hoistsToProgram := by
    have same : (p.program (xs ++ ys)).isModule = (p.program xs).isModule := p.isModule_program
    rw [hoistsToProgram_of_resolveMode resolved, hoistsToProgram_of_resolveMode a.resolved, same]
  have bound : ((p.program (xs ++ ys)).entries mode).fault = none := by
    rw [p.entries_append a b hoists]
    exact Yield.fault_append.mpr ⟨a.fault_entries, b.fault_entries⟩
  obtain ⟨c, -⟩ := Analysis.exists_of_stages resolved bound fun e he => by
    rcases (p.mem_events (p.fault_events_append a.fault_events b.fault_events)).mp he with
      ⟨x, hx, f, hf, rfl⟩ | rfl
    · obtain ⟨text, zs, table, hf⟩ := p.classified_of_mem_append a b namesA namesB hx hf
      exact p.alike_below.fault_free text hf
    · rfl
  exact ⟨c⟩

theorem declares_append (a : Analysis (p.program xs) hostEmbedded)
    (b : Analysis (p.program ys) hostEmbedded) (c : Analysis (p.program (xs ++ ys)) hostEmbedded)
    (l : Label) (y : Atom) : c.table.declares l y = true ↔
      a.table.declares l y = true ∨ b.table.declares l y = true := by
  rw [c.table_eq, p.entries_append a b (p.hoistsToProgram_eq c a),
    Yield.items_append _ a.fault_entries, a.table_eq, b.table_eq]
  simp only [ScopeTable.declares_foldl_enter, ScopeTable.declares_empty, Bool.false_eq_true,
    false_or, List.mem_append, or_and_right, exists_or]

/-- What is free in two lists in a row is free in one of them and left free by the top of the
other. -/
theorem free_append (a : Analysis (p.program xs) hostEmbedded)
    (b : Analysis (p.program ys) hostEmbedded) (c : Analysis (p.program (xs ++ ys)) hostEmbedded)
    (nodup : (p.program (xs ++ ys)).labels.Nodup) :
    c.free = (a.free.filter (p.leaves b.table)).map (.rooted (p.program (xs ++ ys))) ++
      (b.free.filter (p.leaves a.table)).map (.rooted (p.program (xs ++ ys))) := by
  classical
  obtain ⟨-, -, apart⟩ := p.nodup_labels_append nodup
  rw [p.free_program c, List.flatMap_append, List.filter_append, List.map_append,
    p.free_part a (p.declares_append a b c)
      fun l y hd => (p.label_of_declares b hd).imp_right fun hl hl' => apart hl' hl,
    p.free_part b (fun l y => (p.declares_append a b c l y).trans or_comm)
      fun l y hd => (p.label_of_declares a hd).imp_right fun hl hl' => apart hl hl']

end ProgramFrame

end LexicalScope
