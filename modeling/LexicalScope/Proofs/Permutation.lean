import LexicalScope.Proofs.Analysis
import LexicalScope.Proofs.Matching.Walk
import LexicalScope.Proofs.Reference.Partition
import LexicalScope.Proofs.Walk.Below

/-! # Permuted programs

Nothing that is found of a program depends on the order of the items of its lists or of the members
of its objects. Binding makes the same entries in another order, which leaves the same scopes, and
every reference is resolved on its own. So a declaration binds the references of its scope whether
it stands before or after them.
-/

namespace LexicalScope

/-- A tree with its lists and members in another order. The keys of an object are distinct. -/
def Tree.Permuted (t t' : Tree) : Prop := t.Matches false (fun _ => False) t'

/-- The body of a program is a list of objects. -/
def Tree.HasStatements (t : Tree) : Prop :=
  ∃ l vs, t.get? "body" = .ok (.arr l vs) ∧ ∀ v ∈ vs, ∃ n, v.object? = some n

theorem Tree.HasStatements.exists_mode {t : Tree} (h : t.HasStatements) (hostEmbedded : Bool) :
    ∃ mode, resolveMode t hostEmbedded = .ok mode := by
  obtain ⟨l, vs, body, objects⟩ := h
  obtain ⟨strict, prologue⟩ := prologueIsStrict_ok objects
  rw [resolveMode_of_body body, prologue]
  exact ⟨_, rfl⟩

namespace Tree.Permuted

variable {t t' : Tree} {hostEmbedded : Bool}

theorem symm (h : t.Permuted t') : t'.Permuted t := Tree.Matches.symm h

theorem hasStatements (h : t.Permuted t') (statements : t.HasStatements) : t'.HasStatements := by
  obtain ⟨l, vs, body, objects⟩ := statements
  obtain ⟨v, body', hv⟩ := Tree.Matches.get? h (fun _ => .inl id) body
  obtain ⟨us, rfl, items⟩ := hv.items
  refine ⟨l, us, body', ?_⟩
  intro u hu
  obtain ⟨v, hv, hm⟩ := items.exists_left hu
  obtain ⟨n, hn⟩ := objects v hv
  have node := hm.object?
  rw [hn] at node
  generalize u.object? = found at node ⊢
  cases node
  exact ⟨_, rfl⟩

theorem arranges_events (h : t.Permuted t') :
    t.events.Arranges false (Event.Matches false fun _ => False) t'.events :=
  Tree.Matches.arranges_events h fun _ => id

theorem arranges_entries (h : t.Permuted t') (mode : ScopeMode) :
    (t.entries mode).Arranges false (· = ·) (t'.entries mode) :=
  Tree.Matches.arranges_entries h (fun _ => id) mode

/-- Binding a permuted tree makes the same entries in another order. -/
theorem perm_entries (h : t.Permuted t') {mode : ScopeMode} (ends : (t.entries mode).fault = none) :
    (t.entries mode).items.Perm (t'.entries mode).items := by
  obtain ⟨es, order, same⟩ := (h.arranges_entries mode ends).2
  rw [List.forall₂_eq_eq_eq] at same
  exact same ▸ order.1

theorem bindScopes_eq (h : t.Permuted t') {mode : ScopeMode} {table : ScopeTable}
    (ends : (bindScopes t mode table).2 = none) :
    (bindScopes t' mode table).2 = none ∧
      (bindScopes t mode table).1.owners.Perm (bindScopes t' mode table).1.owners ∧
      ∀ owner x, (bindScopes t' mode table).1.declares owner x =
        (bindScopes t mode table).1.declares owner x := by
  have entries := h.perm_entries ends
  refine ⟨(h.arranges_entries mode ends).1, ?_, ?_⟩
  · refine (List.perm_ext_iff_of_nodup (bindScopes t mode table).1.nodup
      (bindScopes t' mode table).1.nodup).mpr ?_
    intro owner
    have same : (∃ entry ∈ (t.entries mode).items, entry.owner = owner) ↔
        ∃ entry ∈ (t'.entries mode).items, entry.owner = owner := by
      simp only [entries.mem_iff]
    exact (ScopeTable.mem_owners_foldl_enter _ table owner).trans
      ((or_congr_right same).trans (ScopeTable.mem_owners_foldl_enter _ table owner).symm)
  · intro owner x
    rw [Bool.eq_iff_iff]
    refine (ScopeTable.declares_foldl_enter _ table owner x).trans (Iff.trans ?_
      (ScopeTable.declares_foldl_enter _ table owner x).symm)
    simp only [entries.mem_iff]

theorem textNames (h : t.Permuted t') (names : t.TextNames) (ends : t.events.fault = none) :
    t'.TextNames := by
  intro e' he' v' hv'
  obtain ⟨e, he, hm⟩ := (h.arranges_events ends).2.exists_left he'
  obtain ⟨v, hv, him⟩ := (Tree.Matches.symm hm.node).field (by decide) hv'
  obtain ⟨s, rfl⟩ := names e he v hv
  cases Tree.Matches.symm him
  exact ⟨s, rfl⟩

theorem entries_mode (h : t.Permuted t') (a : Analysis t hostEmbedded) {mode' : ScopeMode}
    (resolved : resolveMode t' hostEmbedded = .ok mode') :
    t'.entries mode' = t'.entries a.mode := by
  refine Yield.flatMap_congr fun e _ => Event.entries_congr ?_ e
  rw [hoistsToProgram_of_resolveMode resolved, hoistsToProgram_of_resolveMode a.resolved,
    Tree.Matches.isModule_eq h]

theorem exists_analysis (h : t.Permuted t') (a : Analysis t hostEmbedded)
    (statements : t.HasStatements) (names : t.TextNames) : Nonempty (Analysis t' hostEmbedded) := by
  obtain ⟨mode', resolved⟩ := (h.hasStatements statements).exists_mode hostEmbedded
  have bound : (t'.entries mode').fault = none := by
    rw [h.entries_mode a resolved]
    exact (h.arranges_entries a.mode a.fault_entries).1
  obtain ⟨a', -⟩ := Analysis.exists_of_stages resolved bound fun e' he' => by
    obtain ⟨e, he, hm⟩ := (h.arranges_events a.fault_events).2.exists_left he'
    exact hm.alike.fault_free (names e he) (a.fault_free he)
  exact ⟨a'⟩

theorem declares_eq (h : t.Permuted t') (a : Analysis t hostEmbedded)
    (a' : Analysis t' hostEmbedded) (owner : Label) (x : Atom) :
    a'.table.declares owner x = a.table.declares owner x := by
  have same := (h.bindScopes_eq (congrArg Prod.snd a.bound)).2.2 owner x
  rwa [bindScopes, ← h.entries_mode a a'.resolved, ← a'.table_eq, a.bound] at same

theorem perm_free (h : t.Permuted t') (a : Analysis t hostEmbedded)
    (a' : Analysis t' hostEmbedded) (names : t.TextNames) :
    (a.free.map FreeReference.place).Perm (a'.free.map FreeReference.place) := by
  classical
  have free := eq_of_freeReferences a.classified
  have free' := eq_of_freeReferences a'.classified
  have events : Arranged false (Event.Matches false fun _ => False)
      (t.events.items.filter fun e => e.IsFree a.table)
      (t'.events.items.filter fun e => e.IsFree a'.table) := by
    apply (h.arranges_events a.fault_events).2.filter
    intro e _ e' _ hm
    exact decide_eq_decide.mpr (hm.alike.isFree_iff fun n _ x _ => h.declares_eq a a' n.label x)
  rw [free, free', List.map_map, List.map_map]
  refine (events.reordered_map ?_).1
  intro e he e' hm
  obtain ⟨he, hf⟩ := List.mem_filter.mp he
  refine hm.alike.place_reference fun hk => ?_
  obtain ⟨s, hs⟩ := a.text_of_isFree names he (of_decide_eq_true hf) hk
  exact ⟨.str s, hs⟩

theorem exists_findGlobals {parser : Parser} {options : GlobalsOptions} {gs : List FreeVariable}
    (h : t.Permuted t') (statements : t.HasStatements) (names : t.TextNames)
    (succeeds : (findGlobals parser (.value t) options).outcome = .ok gs) :
    ∃ gs', (findGlobals parser (.value t') options).outcome = .ok gs' := by
  obtain ⟨program, a, -⟩ := Analysis.outcome_findGlobals.mp succeeds
  obtain ⟨a'⟩ : Nonempty (Analysis t' options.hostEmbedded) := h.exists_analysis a statements names
  obtain ⟨gs', group⟩ := a'.exists_group (h.textNames names a.fault_events)
  have program' : t'.isProgram = true := (Tree.Matches.isProgram_eq h).trans program
  exact ⟨gs', Analysis.outcome_findGlobals.mpr ⟨program', a', group⟩⟩

end Tree.Permuted

/-- The order of lists and of members changes neither whether a program can be analyzed nor what is
found. -/
theorem findGlobals_permuted (parser : Parser) (options : GlobalsOptions) {t t' : Tree}
    (permuted : t.Permuted t') (statements : t.HasStatements) (names : t.TextNames) :
    ((∃ gs, (findGlobals parser (.value t) options).outcome = .ok gs) ↔
      ∃ gs, (findGlobals parser (.value t') options).outcome = .ok gs) ∧
    (∀ gs gs', (findGlobals parser (.value t) options).outcome = .ok gs →
      (findGlobals parser (.value t') options).outcome = .ok gs' →
      List.Forall₂ (fun g g' => g'.name = g.name ∧ g'.count = g.count ∧
        (g.members.map FreeReference.place).Perm (g'.members.map FreeReference.place)) gs gs') ∧
    ∀ mode table, ((bindScopes t mode table).2 = none ↔ (bindScopes t' mode table).2 = none) ∧
      ((bindScopes t mode table).2 = none →
        (bindScopes t mode table).1.owners.Perm (bindScopes t' mode table).1.owners ∧
        ∀ owner x, (bindScopes t' mode table).1.declares owner x =
          (bindScopes t mode table).1.declares owner x) := by
  refine ⟨⟨?there, ?back⟩, ?groups, ?scopes⟩
  case there =>
    rintro ⟨gs, h⟩
    exact permuted.exists_findGlobals statements names h
  case back =>
    rintro ⟨gs', h⟩
    obtain ⟨-, a', -⟩ := Analysis.outcome_findGlobals.mp h
    have ends : t.events.fault = none := (permuted.symm.arranges_events a'.fault_events).1
    exact permuted.symm.exists_findGlobals (permuted.hasStatements statements)
      (permuted.textNames names ends) h
  case groups =>
    intro gs gs' h h'
    obtain ⟨-, a, group⟩ := Analysis.outcome_findGlobals.mp h
    obtain ⟨-, a', group'⟩ := Analysis.outcome_findGlobals.mp h'
    refine (groupReferences_perm (fun r hr => a.text_of_mem_free names hr)
      (permuted.perm_free a a' names) group group').imp ?_
    rintro g g' ⟨name, places⟩
    have count := places.length_eq
    rw [List.length_map, List.length_map] at count
    exact ⟨name, count.symm, places⟩
  case scopes =>
    intro mode table
    refine ⟨⟨fun h => (permuted.bindScopes_eq h).1, fun h => (permuted.symm.bindScopes_eq h).1⟩, ?_⟩
    intro h
    exact (permuted.bindScopes_eq h).2

theorem Tree.permuted_identifier (l : Label) (s : String) :
    (identifier l s).Permuted (identifier l s) :=
  .of_members (fun _ => by simp) (.of_forall₂
    (.cons ⟨rfl, fun _ => .atom _⟩ (.cons ⟨rfl, fun _ => .atom _⟩ .nil)))

/-- The arrow function `p => [x, p]`, with its members in another order. -/
def arrowSwapped : Node :=
  ⟨2, [("type", .str "ArrowFunctionExpression"),
    ("body", .obj 5 [("type", .str "ArrayExpression"),
      ("elements", .arr 6 [.identifier 8 "x", .identifier 7 "p"])]),
    ("params", .arr 3 [.identifier 4 "p"])]⟩

def arrowSwappedProgram : Node :=
  ⟨0, [("body", .arr 1 [arrowSwapped.tree]), ("type", .str "Program")]⟩

theorem permuted_arrowProgram : arrowProgram.tree.Permuted arrowSwappedProgram.tree := by
  have items : (Tree.arr 6 [.identifier 7 "p", .identifier 8 "x"]).Permuted
      (.arr 6 [.identifier 8 "x", .identifier 7 "p"]) :=
    .of_items ⟨_, ⟨.swap _ _ _, by simp⟩,
      .cons (Tree.permuted_identifier _ _) (.cons (Tree.permuted_identifier _ _) .nil)⟩
  have body : pair.tree.Permuted (.obj 5 [("type", .str "ArrayExpression"),
      ("elements", .arr 6 [.identifier 8 "x", .identifier 7 "p"])]) :=
    .of_members (fun _ => by decide) (.of_forall₂
      (.cons ⟨rfl, fun _ => .atom _⟩ (.cons ⟨rfl, fun _ => items⟩ .nil)))
  have params : (Tree.arr 3 [.identifier 4 "p"]).Permuted (.arr 3 [.identifier 4 "p"]) :=
    .of_items (.of_forall₂ (.cons (Tree.permuted_identifier _ _) .nil))
  have function : arrow.tree.Permuted arrowSwapped.tree :=
    .of_members (fun _ => by decide) ⟨_, ⟨.cons _ (.swap _ _ _), by simp⟩,
      .cons ⟨rfl, fun _ => .atom _⟩
        (.cons ⟨rfl, fun _ => body⟩ (.cons ⟨rfl, fun _ => params⟩ .nil))⟩
  have statements : (Tree.arr 1 [arrow.tree]).Permuted (.arr 1 [arrowSwapped.tree]) :=
    .of_items (.of_forall₂ (.cons function .nil))
  exact .of_members (fun _ => by decide) ⟨_, ⟨.swap _ _ _, by simp⟩,
    .cons ⟨rfl, fun _ => statements⟩ (.cons ⟨rfl, fun _ => .atom _⟩ .nil)⟩

/-- The programs `p => [p, x]` and `p => [x, p]` report `x`, once each. -/
theorem findGlobals_permuted_arrow : ∃ gs gs',
    (findGlobals (fun _ => .returned .null false) (.value arrowProgram.tree) {}).outcome = .ok gs ∧
    (findGlobals (fun _ => .returned .null false) (.value arrowSwappedProgram.tree) {}).outcome =
      .ok gs' ∧ gs.length = 1 ∧
    List.Forall₂ (fun g g' => g'.name = g.name ∧ g'.count = g.count ∧
      (g.members.map FreeReference.place).Perm (g'.members.map FreeReference.place)) gs gs' := by
  obtain ⟨gs, succeeds, one⟩ : ∃ gs, (findGlobals (fun _ => .returned .null false)
      (.value arrowProgram.tree) {}).outcome = .ok gs ∧ gs.length = 1 :=
    exists_ok_of_map (by decide +kernel)
  obtain ⟨there, groups, -⟩ := findGlobals_permuted (fun _ => .returned .null false) {}
    permuted_arrowProgram ⟨1, [arrow.tree], rfl, by simp [arrow, Node.tree, Tree.object?]⟩
    (by decide +kernel)
  obtain ⟨gs', succeeds'⟩ := there.mp ⟨gs, succeeds⟩
  exact ⟨gs, gs', succeeds, succeeds', one, groups gs gs' succeeds succeeds'⟩

end LexicalScope
